/-
# `FlightRec.Record.Depth` — the call depth of a step

Record has no view of the client's calls and returns; it sees the statements the
client stops at.  `alter_db` (record/db.c) marks two statements of a function in
advance: START, the statement at the first address of its scope, and END, the
statement of greatest address among the others.  `process_breakpoint`
(record/run.c) counts: one up before a step at a START statement is stored, one
down after a step at an END statement.

Against this stands what the client does (`ClientEvent`): activations enter their
function at its START statement, execute statements of the function in any
order, and return.  The recorded depth is the number of live activations at
every step exactly if, from one step to the next, one activation returns when
the first of them is at an END statement and none returns otherwise
(`depth_eq_live_iff`).
-/
import FlightRec.Lib.Words
import FlightRec.Schema
import FlightRec.Lib.Query
import Mathlib.Algebra.Group.Nat.Defs

namespace FlightRec

open Query

/-! ## The program as `alter_db` leaves it -/

/-- A line table entry as `proc_lines` inserts it. -/
structure LineRow where
  fileId : Nat
  line : Nat
  address : Nat
  deriving DecidableEq, Repr

/-- Functions, scopes and line table of the client; an address has one line. -/
structure Program where
  functions : List FunctionRow
  scopes : List ScopeRow
  lines : List LineRow
  addresses : (lines.map (·.address)).Nodup

/-- `UPDATE statement SET scope_id = …`: the innermost scope around the address. -/
def Program.scopeIdOf (p : Program) (address : Nat) : Option Nat :=
  (orderByDesc ScopeRow.depth
    (p.scopes.filter fun s => address < s.endAddr ∧ s.startAddr ≤ address)).head?.map (·.id)

/-- `UPDATE statement SET function_id = …`: the function whose scope is around the address. -/
def Program.functionIdOf (p : Program) (address : Nat) : Option Nat :=
  (p.functions.find? fun f => p.scopes.any fun s =>
    s.id == f.scopeId && decide (s.startAddr ≤ address) && decide (address < s.endAddr)).map (·.id)

/-- `UPDATE statement SET func_flag = (SELECT 1 …)`: the address starts a function. -/
def Program.startFlagOf (p : Program) (address : Nat) : Option Nat :=
  if p.functions.any fun f => p.scopes.any fun s => s.id == f.scopeId && s.startAddr == address
  then some funcFlagStart else none

/-- The statement table after the first three updates. -/
def Program.startStatements (p : Program) : List StatementRow :=
  p.lines.map fun l =>
    { fileId := l.fileId, line := l.line, address := l.address,
      scopeId := p.scopeIdOf l.address, functionId := p.functionIdOf l.address,
      funcFlag := p.startFlagOf l.address }

/-- The rows the last update marks: of the statements without a flag whose scope
ends after them, those of greatest address in their function. -/
def Program.endStatements (p : Program) : List StatementRow :=
  latestPerGroup StatementRow.functionId StatementRow.address
    (p.startStatements.filter fun st => st.funcFlag = none ∧
      ∃ s ∈ p.scopes, st.scopeId = some s.id ∧ st.address < s.endAddr)

/-- The statement table after `alter_db`. -/
def Program.statements (p : Program) : List StatementRow :=
  p.startStatements.map fun st =>
    if st ∈ p.endStatements then { st with funcFlag := some funcFlagEnd } else st

/-! ## The tracer -/

/-- `struct cached_line`: an instrumented address; a `NULL` column is fetched as 0. -/
structure CachedLine where
  address : Nat
  funcId : Nat
  funcFlag : Nat
  deriving DecidableEq, Repr

/-- `lookup_cache`: the line of an instrumented address. -/
def Program.lookupCache (p : Program) (address : Nat) : Option CachedLine :=
  (p.statements.find? fun st => st.address = address).map fun st =>
    { address := st.address, funcId := st.functionId.getD 0, funcFlag := st.funcFlag.getD 0 }

/-- The counters of `process_breakpoint`: `step_id`, and the statics `depth` and `func_id`. -/
structure Tracer where
  stepId : Nat
  depth : Nat
  funcId : Nat
  deriving DecidableEq, Repr

/-- All counters start at 0. -/
def Tracer.init : Tracer := { stepId := 0, depth := 0, funcId := 0 }

/-- Values of `ULONG`. -/
def ulongSize : Nat := 2 ^ 64

/-- The counters on arrival at a line: a new step, and a START statement counts up. -/
def Tracer.arrive (t : Tracer) (line : CachedLine) : Tracer :=
  if line.funcId ≠ t.funcId ∨ line.funcFlag = funcFlagStart then
    { stepId := t.stepId + 1
      depth := if line.funcFlag = funcFlagStart then (t.depth + 1) % ulongSize else t.depth
      funcId := line.funcId }
  else { t with stepId := t.stepId + 1 }

/-- The counters when the line is done: an END statement counts down, at 0 around the corner. -/
def Tracer.depart (t : Tracer) (line : CachedLine) : Tracer :=
  if line.funcFlag = funcFlagEnd then { t with depth := (t.depth + (ulongSize - 1)) % ulongSize }
  else t

/-- `process_breakpoint` at a known line: the counters for the next stop, and the
row the step worker makes of what it sends. -/
def processBreakpoint (line : CachedLine) (t : Tracer) : Tracer × StepRow :=
  let t := t.arrive line
  (t.depart line,
    { id := t.stepId, address := line.address, depth := toInt64 t.depth,
      functionId := t.funcId })

section
variable (line : CachedLine) (t : Tracer)

theorem processBreakpoint_depth :
    (processBreakpoint line t).2.depth = toInt64 (t.arrive line).depth := by
  rw [processBreakpoint]

@[simp] theorem Tracer.arrive_stepId : (t.arrive line).stepId = t.stepId + 1 := by
  unfold Tracer.arrive
  split <;> rfl

theorem Tracer.arrive_depth : (t.arrive line).depth =
    if line.funcFlag = funcFlagStart then (t.depth + 1) % ulongSize else t.depth := by
  unfold Tracer.arrive
  by_cases h : line.funcFlag = funcFlagStart
  · rw [if_pos (Or.inr h)]
  · rw [if_neg h]
    split <;> rfl

theorem Tracer.arrive_funcId : (t.arrive line).funcId = line.funcId := by
  unfold Tracer.arrive
  split
  · rfl
  · rename_i h
    exact (not_not.mp fun hne => h (Or.inl hne)).symm

@[simp] theorem Tracer.depart_stepId : (t.depart line).stepId = t.stepId := by
  unfold Tracer.depart
  split <;> rfl

theorem Tracer.depart_depth_end (h : line.funcFlag = funcFlagEnd) :
    (t.depart line).depth = (t.depth + (ulongSize - 1)) % ulongSize := by
  rw [Tracer.depart, if_pos h]

theorem Tracer.depart_of_not_end (h : line.funcFlag ≠ funcFlagEnd) : t.depart line = t := by
  rw [Tracer.depart, if_neg h]

end

theorem ulong_pred {d : Nat} (h1 : 1 ≤ d) (hd : d < ulongSize) :
    (d + (ulongSize - 1)) % ulongSize = d - 1 := by
  unfold ulongSize at *
  omega

/-! ## START statements -/

section
variable {p : Program}

theorem Program.mem_statements {st : StatementRow} (h : st ∈ p.statements) :
    ∃ st₀ ∈ p.startStatements, st.address = st₀.address ∧ st.functionId = st₀.functionId ∧
      st.funcFlag = if st₀ ∈ p.endStatements then some funcFlagEnd else st₀.funcFlag := by
  obtain ⟨st₀, h₀, rfl⟩ := List.mem_map.mp h
  refine ⟨st₀, h₀, ?_⟩
  split <;> exact ⟨rfl, rfl, rfl⟩

theorem Program.endStatements_flag {st : StatementRow} (h : st ∈ p.endStatements) :
    st.funcFlag = none := by
  have hmem := (mem_latestPerGroup h).1
  have := (List.mem_filter.mp hmem).2
  simp only [decide_eq_true_eq] at this
  exact this.1

/-- The entry address of a function carries the START flag: the last update
touches only statements without a flag. -/
theorem Program.lookupCache_start {f : FunctionRow} {sc : ScopeRow} (hf : f ∈ p.functions)
    (hsc : sc ∈ p.scopes) (hid : sc.id = f.scopeId) {line : CachedLine}
    (h : p.lookupCache sc.startAddr = some line) : line.funcFlag = funcFlagStart := by
  obtain ⟨st, hfind, rfl⟩ := Option.map_eq_some_iff.mp h
  have haddr : st.address = sc.startAddr := by simpa using List.find?_some hfind
  obtain ⟨st₀, h₀, ha, _, hflag⟩ := Program.mem_statements (List.mem_of_find?_eq_some hfind)
  have hstart : st₀.funcFlag = some funcFlagStart := by
    obtain ⟨l, _, rfl⟩ := List.mem_map.mp h₀
    have hl : l.address = sc.startAddr := ha.symm.trans haddr
    simp only [Program.startFlagOf, hl]
    rw [if_pos]
    simp only [List.any_eq_true, Bool.and_eq_true, beq_iff_eq]
    exact ⟨f, hf, sc, hsc, hid, rfl⟩
  have hne : st₀ ∉ p.endStatements := fun hend => by
    rw [Program.endStatements_flag hend] at hstart
    cases hstart
  show st.funcFlag.getD 0 = funcFlagStart
  rw [hflag, if_neg hne, hstart]
  rfl

end

/-! ## Executions -/

/-- What the client does, as far as the depth is concerned. -/
inductive ClientEvent where
  | call (f : FunctionRow) (address : Nat)
  | exec (address : Nat)
  | ret
  deriving DecidableEq, Repr

/-- The events are a well-nested execution of the program with `live` activations:
a function is entered at the first address of its scope, the running activation
executes instrumented statements of its function in any order, and it returns.
An activation takes stack space, so there are always fewer than 2⁶⁴. -/
def Program.legal (p : Program) : List FunctionRow → List ClientEvent → Bool
  | _, [] => true
  | live, .call f address :: es =>
      decide (f ∈ p.functions) &&
        p.scopes.any (fun s => s.id == f.scopeId && s.startAddr == address) &&
        (p.lookupCache address).isSome && decide (live.length + 1 < ulongSize) &&
        p.legal (f :: live) es
  | f :: live, .exec address :: es =>
      (p.lookupCache address).any (fun line => line.funcId == f.id) && p.legal (f :: live) es
  | [], .exec _ :: _ => false
  | _ :: live, .ret :: es => p.legal live es
  | [], .ret :: _ => false

/-- From one step to the next, one activation returns if the first of them is at
an END statement, and none returns otherwise; `due` is how many still have to.  A START
statement that an activation executes again counts up once more, so it must come where one
return is due: directly behind an END statement, as in a loop over the whole body. -/
def Program.returnsAtEnd (p : Program) : Int → List ClientEvent → Bool
  | _, [] => true
  | due, .ret :: es => p.returnsAtEnd (due - 1) es
  | due, .call _ _ :: es => decide (due = 0) && p.returnsAtEnd 0 es
  | due, .exec address :: es =>
      if (p.lookupCache address).any (fun line => line.funcFlag == funcFlagStart) then
        decide (due = 1) && p.returnsAtEnd 0 es
      else
        decide (due = 0) && p.returnsAtEnd
          (if (p.lookupCache address).any (fun line => line.funcFlag == funcFlagEnd)
            then 1 else 0) es

/-- One recorded step: the counter of the depth, the number of live activations when it is
executed, and whether counting down after it wraps below 0. -/
structure Observation where
  depth : Nat
  live : Nat
  wraps : Bool
  deriving DecidableEq, Repr

/-- `process_breakpoint` at an address, observed. -/
def Program.observe (p : Program) (t : Tracer) (live : Nat) (address : Nat) :
    Tracer × Option Observation :=
  match p.lookupCache address with
  | none => (t, none)     -- the address is not instrumented
  | some line =>
      let depth := (t.arrive line).depth
      ((processBreakpoint line t).1,
        some { depth, live, wraps := line.funcFlag == funcFlagEnd && depth == 0 })

/-- The recorded steps of an execution. -/
def Program.observations (p : Program) (t : Tracer) : List FunctionRow → List ClientEvent →
    List Observation
  | _, [] => []
  | live, .call f address :: es =>
      let result := p.observe t (live.length + 1) address
      result.2.toList ++ p.observations result.1 (f :: live) es
  | live, .exec address :: es =>
      let result := p.observe t live.length address
      result.2.toList ++ p.observations result.1 live es
  | live, .ret :: es => p.observations t live.tail es

/-- The step shows the number of live activations, at least 1, and the counter stays above 0. -/
def Observation.Right (o : Observation) : Prop :=
  o.depth = o.live ∧ 1 ≤ o.depth ∧ o.wraps = false

instance (o : Observation) : Decidable o.Right := inferInstanceAs (Decidable (_ ∧ _ ∧ _))

/-! ## The depth is the number of live activations -/

section
variable {p : Program}

theorem Program.observe_start (t : Tracer) (live : Nat) {address : Nat} {line : CachedLine}
    (hline : p.lookupCache address = some line) (hflag : line.funcFlag = funcFlagStart) :
    ∃ o, p.observe t live address = (t.arrive line, some o) ∧
      o.depth = (t.depth + 1) % ulongSize ∧ o.live = live ∧ o.wraps = false ∧
      (t.arrive line).depth = (t.depth + 1) % ulongSize := by
  have hne : line.funcFlag ≠ funcFlagEnd := by rw [hflag]; decide
  have hdepth : (t.arrive line).depth = (t.depth + 1) % ulongSize := by
    rw [Tracer.arrive_depth, if_pos hflag]
  refine ⟨{ depth := (t.arrive line).depth, live, wraps := false }, ?_, hdepth, rfl, rfl, hdepth⟩
  simp [Program.observe, hline, processBreakpoint, Tracer.depart_of_not_end line _ hne, hne]

theorem Program.observe_inner (t : Tracer) (live : Nat) {address : Nat} {line : CachedLine}
    (hline : p.lookupCache address = some line) (hflag : line.funcFlag ≠ funcFlagStart) :
    ∃ o t', p.observe t live address = (t', some o) ∧ o.depth = t.depth ∧ o.live = live ∧
      o.wraps = (line.funcFlag == funcFlagEnd && t.depth == 0) ∧
      t'.depth = if line.funcFlag = funcFlagEnd then (t.depth + (ulongSize - 1)) % ulongSize
        else t.depth := by
  have hdepth : (t.arrive line).depth = t.depth := by
    rw [Tracer.arrive_depth, if_neg hflag]
  refine ⟨_, _, by simp only [Program.observe, hline, processBreakpoint]; rfl, hdepth, rfl, ?_, ?_⟩
  · simp only [hdepth]
  · by_cases hend : line.funcFlag = funcFlagEnd
    · rw [Tracer.depart_depth_end line _ hend, hdepth, if_pos hend]
    · rw [Tracer.depart_of_not_end line _ hend, hdepth, if_neg hend]

/-- The counter is behind by the returns still due, so a START statement is right on entry
if there are none. -/
theorem Observation.right_start {o : Observation} {depth live : Nat} {due : Int}
    (hod : o.depth = (depth + 1) % ulongSize) (hol : o.live = live + 1) (how : o.wraps = false)
    (hdepth : (depth : Int) = live - due) (ht : depth < ulongSize) (hlive : live + 1 < ulongSize) :
    o.Right ↔ due = 0 := by
  rw [Observation.Right, hod, hol, how]
  constructor
  · rintro ⟨heq, _, _⟩
    by_cases hfull : depth + 1 = ulongSize
    · rw [hfull, Nat.mod_self] at heq
      omega
    · rw [Nat.mod_eq_of_lt (by omega)] at heq
      omega
  · intro hdue
    rw [Nat.mod_eq_of_lt (by omega)]
    exact ⟨by omega, by omega, rfl⟩

theorem Observation.right_again {o : Observation} {depth live : Nat} {due : Int}
    (hod : o.depth = (depth + 1) % ulongSize) (hol : o.live = live) (how : o.wraps = false)
    (hdepth : (depth : Int) = live - due) (ht : depth < ulongSize) (hpos : 1 ≤ live)
    (hlive : live < ulongSize) : o.Right ↔ due = 1 := by
  rw [Observation.Right, hod, hol, how]
  constructor
  · rintro ⟨heq, _, _⟩
    by_cases hfull : depth + 1 = ulongSize
    · rw [hfull, Nat.mod_self] at heq
      omega
    · rw [Nat.mod_eq_of_lt (by omega)] at heq
      omega
  · intro hdue
    rw [Nat.mod_eq_of_lt (by omega)]
    exact ⟨by omega, by omega, rfl⟩

theorem Observation.right_inner {o : Observation} {depth live : Nat} {due : Int} {b : Bool}
    (hod : o.depth = depth) (hol : o.live = live) (how : o.wraps = (b && depth == 0))
    (hdepth : (depth : Int) = live - due) (hpos : 1 ≤ live) : o.Right ↔ due = 0 := by
  rw [Observation.Right, hod, hol, how]
  constructor
  · rintro ⟨heq, _, _⟩
    omega
  · intro hdue
    have hne : depth ≠ 0 := by omega
    exact ⟨by omega, by omega, by simp [hne]⟩

/-- The counter is the number of live activations less the returns still due;
that is the invariant, and a step shows the right depth when nothing is due. -/
theorem Program.right_iff_returnsAtEnd : ∀ (es : List ClientEvent) (live : List FunctionRow)
    (t : Tracer) (due : Int), p.legal live es = true →
    (t.depth : Int) = live.length - due → t.depth < ulongSize → live.length < ulongSize →
    ((∀ o ∈ p.observations t live es, o.Right) ↔ p.returnsAtEnd due es = true)
  | [], _, _, _, _, _, _, _ => by simp [Program.observations, Program.returnsAtEnd]
  | .ret :: es, [], _, _, hlegal, _, _, _ => by cases hlegal
  | .ret :: es, f :: live, t, due, hlegal, hdepth, ht, hlive => by
      refine Program.right_iff_returnsAtEnd es live t (due - 1) hlegal ?_ ht ?_
      · rw [hdepth, List.length_cons]
        push_cast
        omega
      · rw [List.length_cons] at hlive
        omega
  | .exec address :: es, [], _, _, hlegal, _, _, _ => by cases hlegal
  | .exec address :: es, f :: live, t, due, hlegal, hdepth, ht, hlive => by
      simp only [Program.legal, Bool.and_eq_true, Option.any_eq_true] at hlegal
      obtain ⟨⟨line, hline, _⟩, hlegal⟩ := hlegal
      have hpos : 1 ≤ (f :: live).length := by simp
      by_cases hflag : line.funcFlag = funcFlagStart
      · -- the START statement is executed again: the counter goes up without a call
        obtain ⟨o, hobs, hod, hol, how, ht'⟩ := p.observe_start t (f :: live).length hline hflag
        simp only [Program.observations, hobs, Option.toList_some, List.singleton_append,
          List.forall_mem_cons, Program.returnsAtEnd, hline, Option.any_some, hflag,
          beq_self_eq_true, if_true, Bool.and_eq_true, decide_eq_true_eq]
        rw [Observation.right_again hod hol how hdepth ht hpos hlive]
        refine and_congr_right fun hdue => ?_
        have hmod : (t.depth + 1) % ulongSize = t.depth + 1 := Nat.mod_eq_of_lt (by omega)
        refine Program.right_iff_returnsAtEnd es (f :: live) (t.arrive line) 0 hlegal ?_ ?_ hlive
        · rw [ht', hmod]
          omega
        · rw [ht', hmod]
          omega
      obtain ⟨o, t', hobs, hod, hol, how, ht'⟩ :=
        p.observe_inner t (f :: live).length hline hflag
      simp only [Program.observations, hobs, Option.toList_some, List.singleton_append,
        List.forall_mem_cons, Program.returnsAtEnd, hline, Option.any_some,
        beq_eq_false_iff_ne.mpr hflag, Bool.false_eq_true, if_false, Bool.and_eq_true,
        decide_eq_true_eq]
      rw [Observation.right_inner hod hol how hdepth hpos]
      refine and_congr_right fun hdue => ?_
      have hmod : (t.depth + (ulongSize - 1)) % ulongSize = t.depth - 1 :=
        ulong_pred (by omega) ht
      have hdep : (t'.depth : Int) = (f :: live).length -
          (if (line.funcFlag == funcFlagEnd) = true then 1 else 0) := by
        rw [ht', hmod]
        by_cases hend : line.funcFlag = funcFlagEnd
        · simp only [hend, if_true, beq_self_eq_true]
          omega
        · simp only [hend, if_false, beq_iff_eq]
          omega
      have hlt : t'.depth < ulongSize := by
        rw [ht', hmod]
        split <;> omega
      exact Program.right_iff_returnsAtEnd es (f :: live) t' _ hlegal hdep hlt hlive
  | .call f address :: es, live, t, due, hlegal, hdepth, ht, hlive => by
      simp only [Program.legal, Bool.and_eq_true, decide_eq_true_eq, List.any_eq_true,
        beq_iff_eq] at hlegal
      obtain ⟨⟨⟨⟨hf, sc, hsc, hid, haddr⟩, hline⟩, hroom⟩, hlegal⟩ := hlegal
      obtain ⟨line, hline⟩ := Option.isSome_iff_exists.mp hline
      have hflag : line.funcFlag = funcFlagStart :=
        p.lookupCache_start hf hsc hid (haddr ▸ hline)
      obtain ⟨o, hobs, hod, hol, how, ht'⟩ :=
        p.observe_start t (live.length + 1) hline hflag
      simp only [Program.observations, hobs, Option.toList_some, List.singleton_append,
        List.forall_mem_cons, Program.returnsAtEnd, Bool.and_eq_true, decide_eq_true_eq]
      rw [Observation.right_start hod hol how hdepth ht hroom]
      refine and_congr_right fun hdue => ?_
      have hmod : (t.depth + 1) % ulongSize = t.depth + 1 := Nat.mod_eq_of_lt (by omega)
      refine Program.right_iff_returnsAtEnd es (f :: live) (t.arrive line) 0 hlegal ?_ ?_ ?_
      · rw [ht', hmod, List.length_cons]
        omega
      · rw [ht', hmod]
        omega
      · rw [List.length_cons]
        omega

end

/-- **The recorded depth is the number of live activations** at every step of an
execution, at least 1 and never counted below 0, exactly if activations return
at END statements and START statements are executed again behind END statements only. -/
theorem depth_eq_live_iff (p : Program) (es : List ClientEvent) (legal : p.legal [] es = true) :
    (∀ o ∈ p.observations .init [] es, o.Right) ↔ p.returnsAtEnd 0 es = true :=
  p.right_iff_returnsAtEnd es [] .init 0 legal (by simp [Tracer.init])
    (by simp [Tracer.init, ulongSize]) (by simp [ulongSize])

/-- `main` calls `f`; both have an opening, a middle and a closing line. -/
def twoFunctions : Program where
  functions := [⟨1, "main", 1⟩, ⟨2, "f", 2⟩]
  scopes := [⟨1, 0, 1, 0x1000, 0x1010⟩, ⟨2, 0, 1, 0x2000, 0x2010⟩]
  lines := [⟨1, 10, 0x1000⟩, ⟨1, 11, 0x1004⟩, ⟨1, 12, 0x1008⟩,
            ⟨1, 3, 0x2000⟩, ⟨1, 4, 0x2004⟩, ⟨1, 5, 0x2008⟩]
  addresses := by decide

/-- `main` loops over its middle line and calls `f` twice. -/
def loopingRun : List ClientEvent :=
  [.call ⟨1, "main", 1⟩ 0x1000, .exec 0x1004,
   .call ⟨2, "f", 2⟩ 0x2000, .exec 0x2004, .exec 0x2004, .exec 0x2008, .ret, .exec 0x1004,
   .call ⟨2, "f", 2⟩ 0x2000, .exec 0x2008, .ret, .exec 0x1008, .ret]

theorem depth_eq_live_looping :
    (∀ o ∈ twoFunctions.observations .init [] loopingRun, o.Right) ↔
      twoFunctions.returnsAtEnd 0 loopingRun = true :=
  depth_eq_live_iff twoFunctions loopingRun (by decide)

example : twoFunctions.returnsAtEnd 0 loopingRun = true := by decide

/-- A body whose last statement is a loop: the END statement is executed three times. -/
def loopAtEnd : List ClientEvent :=
  [.call ⟨1, "main", 1⟩ 0x1000, .exec 0x1008, .exec 0x1008, .exec 0x1008, .ret]

/-- With a loop over the END statement the depth drops to 0 and then wraps; the step behind
is stored with depth -1. -/
theorem depth_wraps_in_loop :
    twoFunctions.legal [] loopAtEnd = true ∧
      twoFunctions.observations .init [] loopAtEnd =
        [⟨1, 1, false⟩, ⟨1, 1, false⟩, ⟨0, 1, true⟩, ⟨2 ^ 64 - 1, 1, false⟩] ∧
      (processBreakpoint ⟨0x1008, 1, 2⟩ ⟨3, 2 ^ 64 - 1, 1⟩).2.depth = -1 ∧
      ¬ ∀ o ∈ twoFunctions.observations .init [] loopAtEnd, o.Right := by
  decide

end FlightRec
