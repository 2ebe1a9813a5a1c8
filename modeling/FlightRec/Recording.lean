/-
# `FlightRec.Recording` — what Record writes is what Examine reads

Examine's results are about databases that are finished (`Recorded`) and whose
depths evolve as a call stack does (`DepthsEvolve`).  Both are shown here of the
database of a run of Record: the first of every run (`record_located`) through code that
belongs to functions (`record_recorded`), the second as long as the depth stays at least 1
(`record_depthsEvolve_of_pos`), and so of every execution in which activations return at
END statements (`record_depthsEvolve`).
-/
import FlightRec.Examine.Stack
import FlightRec.Record.Depth

namespace FlightRec

open CallStack

/-! ## The database of a run -/

/-- The rows sent to the step worker when the client passes the given addresses;
it does not stop at one that is not instrumented. -/
def Program.stepRows (p : Program) : Tracer → List Nat → List StepRow
  | _, [] => []
  | t, address :: rest =>
      match p.lookupCache address with
      | none => p.stepRows t rest
      | some line =>
          (processBreakpoint line t).2 :: p.stepRows (processBreakpoint line t).1 rest

/-- The database of a run: its steps, and the tables that were filled before it. -/
def Program.record (p : Program) (files : List FileRow) (exitSignal : Option Nat)
    (addresses : List Nat) : Db where
  steps := p.stepRows .init addresses
  statements := p.statements
  files := files
  functions := p.functions
  exitSignal := exitSignal

section
variable {p : Program}

theorem Program.stepRows_cons (t : Tracer) (address : Nat) (rest : List Nat) :
    p.stepRows t (address :: rest) = match p.lookupCache address with
      | none => p.stepRows t rest
      | some line =>
          (processBreakpoint line t).2 :: p.stepRows (processBreakpoint line t).1 rest := rfl

theorem Program.lookupCache_address {address : Nat} {line : CachedLine}
    (h : p.lookupCache address = some line) : line.address = address := by
  obtain ⟨st, hfind, rfl⟩ := Option.map_eq_some_iff.mp h
  simpa using List.find?_some hfind

@[simp] theorem processBreakpoint_id (line : CachedLine) (t : Tracer) :
    (processBreakpoint line t).2.id = t.stepId + 1 := t.arrive_stepId line

@[simp] theorem processBreakpoint_stepId (line : CachedLine) (t : Tracer) :
    (processBreakpoint line t).1.stepId = t.stepId + 1 := by
  change ((t.arrive line).depart line).stepId = t.stepId + 1
  rw [Tracer.depart_stepId, Tracer.arrive_stepId]

theorem Program.stepRows_ids : ∀ (addresses : List Nat) (t : Tracer),
    (p.stepRows t addresses).map (·.id) =
      List.range' (t.stepId + 1) (p.stepRows t addresses).length
  | [], _ => rfl
  | address :: rest, t => by
      rw [Program.stepRows_cons]
      cases p.lookupCache address with
      | none => exact Program.stepRows_ids rest t
      | some line =>
          have ih := Program.stepRows_ids rest (processBreakpoint line t).1
          rw [processBreakpoint_stepId] at ih
          simp only [List.map_cons, List.length_cons, List.range'_succ, processBreakpoint_id, ih]

theorem Program.stepRows_line : ∀ (addresses : List Nat) (t : Tracer),
    ∀ s ∈ p.stepRows t addresses, ∃ line, p.lookupCache s.address = some line ∧
      s.functionId = line.funcId ∧ s.address ∈ addresses
  | [], _, s, hs => by cases hs
  | address :: rest, t, s, hs => by
      rw [Program.stepRows_cons] at hs
      cases hline : p.lookupCache address with
      | none =>
          rw [hline] at hs
          obtain ⟨line, h, hf, hmem⟩ := Program.stepRows_line rest t s hs
          exact ⟨line, h, hf, List.mem_cons_of_mem _ hmem⟩
      | some line =>
          rw [hline] at hs
          rcases List.mem_cons.mp hs with rfl | hs
          · have haddress : (processBreakpoint line t).2.address = address :=
              Program.lookupCache_address hline
            refine ⟨line, haddress ▸ hline, t.arrive_funcId line, ?_⟩
            rw [haddress]
            exact List.mem_cons_self
          · obtain ⟨line', h, hf, hmem⟩ := Program.stepRows_line rest _ s hs
            exact ⟨line', h, hf, List.mem_cons_of_mem _ hmem⟩

/-! ## The database is finished -/

theorem Program.statement_of_line {address : Nat} {line : CachedLine}
    (h : p.lookupCache address = some line) :
    ∃ st ∈ p.statements, p.statements.find? (fun st => st.address = address) = some st ∧
      st.address = address ∧ line.funcId = st.functionId.getD 0 ∧
      line.funcFlag = st.funcFlag.getD 0 ∧ st.functionId = p.functionIdOf address := by
  obtain ⟨st, hfind, rfl⟩ := Option.map_eq_some_iff.mp h
  have hmem : st ∈ p.statements := List.mem_of_find?_eq_some hfind
  have haddress : st.address = address := by simpa using List.find?_some hfind
  obtain ⟨st₀, hmem₀, ha, hf, _⟩ := Program.mem_statements hmem
  obtain ⟨l, _, rfl⟩ := List.mem_map.mp hmem₀
  have hl : l.address = address := ha.symm.trans haddress
  refine ⟨st, hmem, hfind, haddress, rfl, rfl, ?_⟩
  rw [hf, ← hl]

theorem Program.statements_address :
    p.statements.map (·.address) = p.lines.map (·.address) := by
  unfold Program.statements Program.startStatements
  rw [List.map_map, List.map_map]
  refine List.map_congr_left fun l _ => ?_
  simp only [Function.comp_apply]
  split <;> rfl

theorem oneRow_of_nodup {α : Type} {key : α → Nat} {l : List α} (h : (l.map key).Nodup) {r : α}
    (hr : r ∈ l) : OneRow key (key r) l := by
  have hcount : (l.map key).count (key r) = 1 :=
    List.count_eq_one_of_mem h (List.mem_map.mpr ⟨r, hr, rfl⟩)
  rw [List.count, List.countP_map, List.countP_eq_length_filter] at hcount
  rw [OneRow, ← hcount]
  congr 1

/-- **A run leaves a finished database**, if the files of the line table are in table `file`. -/
theorem Program.record_located {files : List FileRow} {exitSignal : Option Nat}
    {addresses : List Nat} (hfiles : ∀ l ∈ p.lines, OneRow FileRow.id l.fileId files) :
    Located (p.record files exitSignal addresses) := by
  refine ⟨Program.stepRows_ids addresses .init, ?_, ?_⟩
  · intro s hs
    obtain ⟨line, hline, _, _⟩ := Program.stepRows_line addresses .init s hs
    obtain ⟨st, hst, _, haddress, _⟩ := Program.statement_of_line hline
    have hnodup : (p.statements.map (·.address)).Nodup := by
      rw [Program.statements_address]
      exact p.addresses
    exact haddress ▸ oneRow_of_nodup hnodup hst
  · intro st hst
    obtain ⟨st₀, hmem₀, rfl⟩ := List.mem_map.mp hst
    obtain ⟨l, hl, rfl⟩ := List.mem_map.mp hmem₀
    split
    · exact hfiles l hl
    · exact hfiles l hl

/-- The steps are in functions if functions have ids of their own and the code the client
passes belongs to functions. -/
theorem Program.record_recorded {files : List FileRow} {exitSignal : Option Nat}
    {addresses : List Nat} (hfiles : ∀ l ∈ p.lines, OneRow FileRow.id l.fileId files)
    (hfunctions : (p.functions.map (·.id)).Nodup)
    (hcode : ∀ a ∈ addresses, (p.lookupCache a).isSome → (p.functionIdOf a).isSome) :
    Recorded (p.record files exitSignal addresses) := by
  refine ⟨Program.record_located hfiles, fun s hs => ?_⟩
  obtain ⟨line, hline, hfunction, hmem⟩ := Program.stepRows_line addresses .init s hs
  obtain ⟨st, hst, _, _, hid, _, hof⟩ := Program.statement_of_line hline
  have hsome := hcode s.address hmem (by rw [hline]; rfl)
  obtain ⟨id, hid'⟩ := Option.isSome_iff_exists.mp hsome
  have hf : s.functionId = id := by
    rw [hfunction, hid, hof, hid']
    rfl
  obtain ⟨f, hfind, rfl⟩ := Option.map_eq_some_iff.mp hid'
  exact hf ▸ oneRow_of_nodup hfunctions (List.mem_of_find?_eq_some hfind)

/-! ## The depths are those of a call stack -/

/-- A call stack that follows the flags of the steps has the height of the recorded
depths: `t.depth` is what the last step has left of it. -/
theorem Program.stepRows_depth {push pop : Nat → Bool} : ∀ (addresses : List Nat) (t : Tracer),
    (∀ s ∈ p.stepRows t addresses, ∀ line, p.lookupCache s.address = some line →
      push s.id = (line.funcFlag == funcFlagStart) ∧ pop s.id = (line.funcFlag == funcFlagEnd)) →
    (∀ s ∈ p.stepRows t addresses, 1 ≤ s.depth) →
    t.depth = (leave pop t.stepId (stackAt push pop t.stepId)).length →
    t.depth + addresses.length < 2 ^ 63 →
    ∀ s ∈ p.stepRows t addresses, s.depth = (stackAt push pop s.id).length
  | [], _, _, _, _, _, s, hs => by cases hs
  | address :: rest, t, hmarks, hpos, hdepth, hroom, s, hs => by
      rw [List.length_cons] at hroom
      rw [Program.stepRows_cons] at hmarks hpos hs
      cases hline : p.lookupCache address with
      | none =>
          rw [hline] at hmarks hpos hs
          exact Program.stepRows_depth rest t hmarks hpos hdepth (by omega) s hs
      | some line =>
          rw [hline] at hmarks hpos hs
          obtain ⟨hhead, htail⟩ := List.forall_mem_cons.mp hmarks
          obtain ⟨hposHead, hposTail⟩ := List.forall_mem_cons.mp hpos
          have haddress : (processBreakpoint line t).2.address = address :=
            Program.lookupCache_address hline
          obtain ⟨hpush, hpop⟩ := hhead line (haddress ▸ hline)
          rw [processBreakpoint_id] at hpush hpop
          have harrive : (t.arrive line).depth =
              if line.funcFlag = funcFlagStart then t.depth + 1 else t.depth := by
            rw [Tracer.arrive_depth, Nat.mod_eq_of_lt (by unfold ulongSize; omega)]
          have hle : (t.arrive line).depth ≤ t.depth + 1 := by
            rw [harrive]
            split <;> omega
          have hstored : (processBreakpoint line t).2.depth = (t.arrive line).depth := by
            rw [processBreakpoint_depth, toInt64_of_lt (by omega)]
          have hone : 1 ≤ (t.arrive line).depth := by omega
          have hdepart : (processBreakpoint line t).1.depth =
              if line.funcFlag = funcFlagEnd then (t.arrive line).depth - 1
              else (t.arrive line).depth := by
            by_cases hend : line.funcFlag = funcFlagEnd
            · rw [if_pos hend, ← ulong_pred hone (by unfold ulongSize; omega)]
              exact Tracer.depart_depth_end line _ hend
            · rw [if_neg hend]
              exact congrArg Tracer.depth (Tracer.depart_of_not_end line _ hend)
          have hrow : (t.arrive line).depth = (stackAt push pop (t.stepId + 1)).length := by
            rw [harrive, stackAt, enter, hpush]
            by_cases hstart : line.funcFlag = funcFlagStart
            · rw [if_pos hstart, if_pos (beq_iff_eq.mpr hstart), List.length_cons, hdepth]
            · rw [if_neg hstart, if_neg (mt beq_iff_eq.mp hstart), hdepth]
          rcases List.mem_cons.mp hs with rfl | hs
          · rw [processBreakpoint_id, hstored, hrow]
          · refine Program.stepRows_depth rest _ htail hposTail ?_ ?_ s hs
            · rw [processBreakpoint_stepId, leave, hpop, hdepart, hrow]
              by_cases hend : line.funcFlag = funcFlagEnd
              · rw [if_pos hend, if_pos (beq_iff_eq.mpr hend), List.length_tail]
              · rw [if_neg hend, if_neg (mt beq_iff_eq.mp hend)]
            · rw [hdepart]
              split <;> omega

theorem Program.record_funcFlagAt {files : List FileRow} {exitSignal : Option Nat}
    {addresses : List Nat} {s : StepRow} (hs : s ∈ p.stepRows .init addresses) {line : CachedLine}
    (hline : p.lookupCache s.address = some line) :
    (p.record files exitSignal addresses).enters s.id = (line.funcFlag == funcFlagStart) ∧
      (p.record files exitSignal addresses).ends s.id = (line.funcFlag == funcFlagEnd) := by
  obtain ⟨st, _, hfind, _, _, hflag, _⟩ := Program.statement_of_line hline
  have hstep : (p.stepRows .init addresses).find? (fun x => x.id = s.id) = some s := by
    have hnodup : ((p.stepRows .init addresses).map (·.id)).Nodup := by
      rw [Program.stepRows_ids]
      exact List.nodup_range'
    cases hfound : (p.stepRows .init addresses).find? (fun x => x.id = s.id) with
    | none => simpa using List.find?_eq_none.mp hfound s hs
    | some s' =>
        have hid : s'.id = s.id := by simpa using List.find?_some hfound
        rw [List.inj_on_of_nodup_map hnodup (List.mem_of_find?_eq_some hfound) hs hid]
  have hat : (p.record files exitSignal addresses).funcFlagAt s.id = st.funcFlag := by
    change ((p.stepRows .init addresses).find? _).bind _ = _
    rw [hstep, Option.bind_some]
    change (p.statements.find? _).bind _ = _
    rw [hfind, Option.bind_some]
  rw [Db.enters, Db.ends, hat, hflag]
  cases st.funcFlag with
  | none => exact ⟨rfl, rfl⟩
  | some flag => exact ⟨rfl, rfl⟩

theorem Program.record_depthsEvolve_of_pos {files : List FileRow} {exitSignal : Option Nat}
    {addresses : List Nat} (short : addresses.length < 2 ^ 63)
    (hpos : ∀ s ∈ p.stepRows .init addresses, 1 ≤ s.depth) :
    DepthsEvolve (p.record files exitSignal addresses) := by
  refine ⟨?_, hpos⟩
  refine Program.stepRows_depth addresses .init ?_ hpos ?_ ?_
  · intro s hs line hline
    exact Program.record_funcFlagAt hs hline
  · change 0 = (leave _ 0 []).length
    unfold leave
    split <;> rfl
  · change 0 + addresses.length < 2 ^ 63
    omega

/-! ## Executions -/

/-- Where the client passes on the way. -/
def ClientEvent.address? : ClientEvent → Option Nat
  | .call _ address => some address
  | .exec address => some address
  | .ret => none

theorem Program.observe_depth (t : Tracer) (live address : Nat) (rest : List Nat) :
    (p.observe t live address).2.toList.map (fun o => toInt64 o.depth) ++
        (p.stepRows (p.observe t live address).1 rest).map (·.depth) =
      (p.stepRows t (address :: rest)).map (·.depth) := by
  rw [Program.stepRows_cons]
  unfold Program.observe
  cases p.lookupCache address with
  | none => rfl
  | some line =>
      rw [List.map_cons, processBreakpoint_depth]
      rfl

theorem Program.observe_live {t : Tracer} {live address : Nat} {o : Observation}
    (h : o ∈ (p.observe t live address).2) : o.live = live := by
  unfold Program.observe at h
  cases hline : p.lookupCache address with
  | none =>
      rw [hline] at h
      cases h
  | some line =>
      rw [hline] at h
      cases h
      rfl

theorem Program.observations_depth : ∀ (es : List ClientEvent) (t : Tracer)
    (live : List FunctionRow), (p.observations t live es).map (fun o => toInt64 o.depth) =
      (p.stepRows t (es.filterMap ClientEvent.address?)).map (·.depth)
  | [], _, _ => rfl
  | .ret :: es, t, live => Program.observations_depth es t live.tail
  | .call f address :: es, t, live => by
      have hcons : (ClientEvent.call f address :: es).filterMap ClientEvent.address? =
          address :: es.filterMap ClientEvent.address? := rfl
      rw [hcons, ← Program.observe_depth t (live.length + 1), ← Program.observations_depth es,
        ← List.map_append]
      rfl
  | .exec address :: es, t, live => by
      have hcons : (ClientEvent.exec address :: es).filterMap ClientEvent.address? =
          address :: es.filterMap ClientEvent.address? := rfl
      rw [hcons, ← Program.observe_depth t live.length, ← Program.observations_depth es,
        ← List.map_append]
      rfl

theorem Program.observations_live_le : ∀ (es : List ClientEvent) (t : Tracer)
    (live : List FunctionRow), ∀ o ∈ p.observations t live es, o.live ≤ live.length + es.length
  | [], _, _, o, ho => by cases ho
  | .ret :: es, t, live, o, ho => by
      have hle := Program.observations_live_le es t live.tail o ho
      rw [List.length_tail] at hle
      rw [List.length_cons]
      omega
  | .call f address :: es, t, live, o, ho => by
      rcases List.mem_append.mp ho with ho | ho
      · rw [Program.observe_live (Option.mem_toList.mp ho), List.length_cons]
        omega
      · have hle := Program.observations_live_le es _ (f :: live) o ho
        rw [List.length_cons] at hle ⊢
        omega
  | .exec address :: es, t, live, o, ho => by
      rcases List.mem_append.mp ho with ho | ho
      · rw [Program.observe_live (Option.mem_toList.mp ho)]
        omega
      · have hle := Program.observations_live_le es _ live o ho
        rw [List.length_cons]
        omega

/-- **The stacks that Examine reconstructs are those of the client**, for executions
in which activations return at END statements: the depths recorded are the heights
of a call stack that follows the flags. -/
theorem Program.record_depthsEvolve {files : List FileRow} {exitSignal : Option Nat}
    {es : List ClientEvent} (legal : p.legal [] es = true)
    (returns : p.returnsAtEnd 0 es = true) (short : es.length < 2 ^ 63) :
    DepthsEvolve (p.record files exitSignal (es.filterMap ClientEvent.address?)) := by
  have hright : ∀ o ∈ p.observations .init [] es, o.Right :=
    (Program.right_iff_returnsAtEnd es [] .init 0 legal (by simp [Tracer.init])
      (by simp [Tracer.init, ulongSize]) (by simp [ulongSize])).mpr returns
  have hlength : (es.filterMap ClientEvent.address?).length ≤ es.length :=
    List.length_filterMap_le _ _
  refine Program.record_depthsEvolve_of_pos (Nat.lt_of_le_of_lt hlength short) ?_
  intro s hs
  have hdepth : s.depth ∈ (p.observations .init [] es).map fun o => toInt64 o.depth := by
    rw [Program.observations_depth]
    exact List.mem_map.mpr ⟨s, hs, rfl⟩
  obtain ⟨o, ho, heq⟩ := List.mem_map.mp hdepth
  obtain ⟨hlive, hpos, -⟩ := hright o ho
  have hle := Program.observations_live_le es .init [] o ho
  rw [List.length_nil] at hle
  rw [← heq, toInt64_of_lt (by omega)]
  omega

end

end FlightRec
