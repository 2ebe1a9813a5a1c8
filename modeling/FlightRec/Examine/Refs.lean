/-
# `FlightRec.Examine.Refs` — references to variables

The IDE asks for the variables of a scope and for the value of an expression, and
gets a number (`variablesReference`) for everything it can ask the fields or items
of.  `get_var_ref` of examine/vars.c keeps these numbers in the table `local.ref`,
keyed by parent type, parent and child name; its three callers pass what they take
for the parent.

`add_var_items` and `add_var_fields` pass the parent type of a scope for what is a
reference, and variables go by the scope they are shown in and by their name.  So
the numbers stand for what was asked for exactly as long as these keys do
(`examine_identified_iff`).
-/
import Mathlib
import FlightRec.Lib.Intern
import FlightRec.Lib.Query
import FlightRec.Schema

namespace FlightRec

open Intern Query

/-! ## What is known of the client's variables -/

/-- `PTYPE_SCOPE`. -/
def ptypeScope : Nat := 1

/-- `PTYPE_EXPR`. -/
def ptypeExpr : Nat := 3

/-- `GLOBAL_SCOPE`. -/
def globalScope : Nat := 0

/-- A row of table `var`; the compiler leaves some variables without a name. -/
structure VarRow where
  id : Nat
  name : Option String
  scopeId : Nat
  fileId : Nat
  line : Nat
  deriving DecidableEq, Repr

/-- A row of table `member`; members of anonymous types have no name. -/
structure MemberRow where
  offset : Nat
  name : Option String
  start : Nat
  type : Nat
  deriving DecidableEq, Repr

/-- What a row of `local.ref` says of its reference. -/
structure RefTarget where
  address : Nat
  type : Nat
  indirect : Nat
  deriving DecidableEq, Repr

/-- What an entry of a list becomes: an error, a plain value, or a reference. -/
inductive Shown where
  | failed
  | plain
  | ref (target : RefTarget)
  deriving DecidableEq, Repr

/-- The tables of the recording, and what the lookups in the debug information, in
memory and in the types come to: where a variable is at a step, the base type, item
size and number of items of a reference at the current step, how an address with a type
and a number of indirections is shown at it, the address of the AST that an expression is
parsed to in a scope, and what an AST evaluates to at the step of its frame and the
current one. -/
structure DebugInfo where
  vars : List VarRow
  scopeAncestors : List ScopeAncestorRow
  members : List MemberRow
  varLocation : Nat → Nat → Option (Nat × Nat)
  arrayInfo : Nat → RefTarget → Option (Nat × Nat × Nat)
  shown : Nat → RefTarget → Shown
  parsed : String → Nat → Option Nat
  evaluated : Nat → Nat → Nat → Shown

/-- `struct frame`. -/
structure Frame where
  id : Nat
  scope : Nat
  step : Nat
  file : Nat
  line : Nat
  deriving DecidableEq, Repr

/-! ## The tables of references and expressions -/

/-- What a reference is asked for: a variable, a field or an item of a reference, or
the result of an expression. -/
inductive Entity where
  | var (id : Nat)
  | field (ref : Nat) (member : MemberRow)
  | item (ref index : Nat)
  | expr (text : String)
  deriving DecidableEq, Repr

/-- A call of `get_var_ref`: what it is for, and the key it is made with. -/
structure Ask where
  entity : Entity
  parentType : Nat
  parent : Nat
  child : Option String
  deriving DecidableEq, Repr

/-- A reference that was given out. -/
structure Given where
  ask : Ask
  id : Nat
  deriving DecidableEq, Repr

/-- `local.ref`, by parent type, parent and child. -/
abbrev RefTable := Table (Nat × Nat × String) RefTarget

/-- `local.ref` and `local.expr`; an AST is its address. -/
structure RefState where
  refs : RefTable
  exprs : Table String (Option Nat)

/-- No requests yet. -/
def RefState.init : RefState := { refs := .empty, exprs := .empty }

/-- The unique columns of `local.ref`; a `NULL` child is equal to nothing. -/
def Ask.key (a : Ask) : Option (Nat × Nat × String) :=
  a.child.map fun child => (a.parentType, a.parent, child)

/-- `get_var_ref`. -/
def getVarRef (a : Ask) (target : RefTarget) (refs : RefTable) : RefTable × Given :=
  let put := refs.put a.key target
  (put.1, { ask := a, id := put.2 })

/-- `query_expr_cache`: the id of the expression and what column `ast` has for it. -/
def queryExprCache (text : String) (exprs : Table String (Option Nat)) :
    Table String (Option Nat) × Nat × Option Nat :=
  match exprs.find (some text) with
  | some row => (exprs, row.id, row.val)
  | none => (exprs.insert (some text) none, exprs.seq + 1, none)

/-- `update_expr_cache`: `SET ast = ? WHERE id = ?` is bound to the id and the AST, in
this order, so that it is the AST that says which row is updated. -/
def updateExprCache (id ast : Nat) (exprs : Table String (Option Nat)) :
    Table String (Option Nat) := exprs.set ast (some id)

/-! ## Lists of variables, items and fields -/

/-- One entry of a list: the references after it and those given out, or a failure. -/
abbrev AddEntry := RefTable → Option (RefTable × List Given)

/-- The entries of a list are added up to the first that fails. -/
def addEntries : List AddEntry → RefTable → RefTable × List Given
  | [], refs => (refs, [])
  | entry :: rest, refs =>
      match entry refs with
      | none => (refs, [])
      | some (refs, given) =>
          let result := addEntries rest refs
          (result.1, given ++ result.2)

section
variable (info : DebugInfo) (curStep : Nat)

/-- `add_var_entry`, as far as references go. -/
def addVarEntry (a : Ask) (target : RefTarget) : AddEntry := fun refs =>
  match info.shown curStep target with
  | .failed => none
  | .plain => some (refs, [])
  | .ref target =>
      let result := getVarRef a target refs
      some (result.1, [result.2])

/-- `add_var`. -/
def addVar (scope varId step : Nat) : AddEntry := fun refs =>
  match info.vars.find? (·.id == varId) with
  | none => none
  | some v =>
      match info.varLocation varId step with
      | none => none
      | some (address, type) =>
          addVarEntry info curStep
            { entity := .var varId, parentType := ptypeScope, parent := scope, child := v.name }
            ⟨address, type, 0⟩ refs

/-- `sprintf(name, "[%d]", i)`. -/
def itemName (i : Nat) : String := "[" ++ (BitVec.ofNat 32 i).toInt.repr ++ "]"

/-- `add_var_items`. -/
def addVarItems (refId : Nat) (start count : UInt32) (refs : RefTable) : RefTable × List Given :=
  match refs.get refId with
  | none => (refs, [])
  | some target =>
      match info.arrayInfo curStep target with
      | none => (refs, [])
      | some (baseType, itemSize, dim) =>
          addEntries ((List.range' start.toNat (min count.toNat dim - start.toNat)).map fun i =>
            addVarEntry info curStep
              { entity := .item refId i, parentType := 1, parent := refId, child := itemName i }
              ⟨(target.address + i * itemSize) % 2 ^ 64, baseType, target.indirect - 1⟩) refs

/-- `add_var_fields`. -/
def addVarFields (refId : Nat) (refs : RefTable) : RefTable × List Given :=
  match refs.get refId with
  | none => (refs, [])
  | some target =>
      addEntries ((orderBy MemberRow.start
        (info.members.filter (·.offset = target.type))).map fun m =>
          addVarEntry info curStep
            { entity := .field refId m, parentType := 1, parent := refId, child := m.name }
            ⟨(target.address + m.start) % 2 ^ 64, m.type, 0⟩) refs

/-! ## Requests -/

/-- The variables of a frame: of its scope and of the scopes around it, but for the
global one, unless they are declared later in the file. -/
def DebugInfo.localVars (frame : Frame) : List VarRow :=
  (info.vars.flatMap fun v =>
    (info.scopeAncestors.filter fun s =>
      (v.scopeId = s.ancestor ∨ v.scopeId = frame.scope) ∧ s.id = frame.scope ∧
        v.scopeId ≠ globalScope).map fun _ => v).filter
    fun v => ¬ (v.fileId = frame.file ∧ frame.line ≤ v.line)

/-- A `variables` request for a scope, for the items or for the fields of a
reference, or an `evaluate` request. -/
inductive VarRequest where
  | scope (scope : Nat)
  | items (ref : Nat) (start count : UInt32)
  | fields (ref : Nat)
  | evaluate (text : String) (frameId : Nat)
  deriving DecidableEq, Repr

/-- `process_variables` for a scope. -/
def processScopeVars (frames : List Frame) (scope : Nat) (refs : RefTable) :
    RefTable × List Given :=
  if scope = globalScope then
    addEntries ((info.vars.filter (·.scopeId = globalScope)).map fun v =>
      addVar info curStep globalScope v.id curStep) refs
  else
    match frames.find? (·.scope == scope) with
    | none => (refs, [])
    | some frame =>
        addEntries ((info.localVars frame).map fun v =>
          addVar info curStep scope v.id frame.step) refs

/-- `process_evaluate`, with the references of `get_eval_result`. -/
def processEvaluate (frames : List Frame) (text : String) (frameId : Nat) (st : RefState) :
    RefState × List Given :=
  match frames.find? (·.id == frameId) with
  | none => (st, [])
  | some frame =>
      let (exprs, id, ast) := queryExprCache text st.exprs
      let result := fun (exprs : Table String (Option Nat)) (ast : Nat) =>
        match info.evaluated ast frame.step curStep with
        | .failed => ({ st with exprs }, [])
        | .plain => ({ st with exprs }, [])
        | .ref target =>
            let result := getVarRef
              { entity := .expr text, parentType := ptypeExpr, parent := id, child := "" }
              target st.refs
            ({ refs := result.1, exprs }, [result.2])
      match ast with
      | some ast => result exprs ast
      | none =>
          match info.parsed text frame.scope with
          | some ast => result (updateExprCache id ast exprs) ast
          | none => ({ st with exprs }, [])

end

/-- A request, with the frames of the last `stackTrace` and the current step. -/
structure VarCall where
  frames : List Frame
  curStep : Nat
  request : VarRequest
  deriving DecidableEq, Repr

/-- One request. -/
def VarCall.process (info : DebugInfo) (call : VarCall) (st : RefState) : RefState × List Given :=
  match call.request with
  | .scope scope =>
      let result := processScopeVars info call.curStep call.frames scope st.refs
      ({ st with refs := result.1 }, result.2)
  | .items ref start count =>
      let result := addVarItems info call.curStep ref start count st.refs
      ({ st with refs := result.1 }, result.2)
  | .fields ref =>
      let result := addVarFields info call.curStep ref st.refs
      ({ st with refs := result.1 }, result.2)
  | .evaluate text frameId => processEvaluate info call.curStep call.frames text frameId st

/-- The references given out in a session, in order. -/
def examine (info : DebugInfo) : RefState → List VarCall → List Given
  | _, [] => []
  | st, call :: rest => (call.process info st).2 ++ examine info (call.process info st).1 rest

/-! ## Numbers and keys -/

/-- The number of a reference, and the key it was given to. -/
def Given.issue (g : Given) : Nat × Option (Nat × Nat × String) := (g.id, g.ask.key)

/-- The name of a variable. -/
def DebugInfo.varName (info : DebugInfo) (varId : Nat) : Option String :=
  (info.vars.find? (·.id == varId)).bind (·.name)

/-- How a reference is asked for: what the callers of `get_var_ref` make of the
entity.  Only the scope of a variable and the number of an expression are left open. -/
def Ask.Made (info : DebugInfo) (a : Ask) : Prop :=
  match a.entity with
  | .var varId => a.parentType = ptypeScope ∧ a.child = info.varName varId
  | .field ref m => a.parentType = ptypeScope ∧ a.parent = ref ∧ a.child = m.name
  | .item ref i =>
      a.parentType = ptypeScope ∧ a.parent = ref ∧ a.child = some (itemName i) ∧ i < 2 ^ 32
  | .expr _ => a.parentType = ptypeExpr ∧ a.child = some ""

/-- The references in `given` are of variables, fields and items, and were added to `refs`. -/
structure Adds (info : DebugInfo) (refs refs' : RefTable) (given : List Given) : Prop where
  issued : ∀ l, Issued refs l → Issued refs' (l ++ given.map Given.issue)
  made : ∀ g ∈ given, g.ask.Made info
  noExpr : ∀ g ∈ given, ∀ text, g.ask.entity ≠ .expr text

section
variable {info : DebugInfo} {curStep : Nat}

theorem adds_nil (refs : RefTable) : Adds info refs refs [] where
  issued := fun l h => by simpa using h
  made := fun g hg => by cases hg
  noExpr := fun g hg => by cases hg

theorem Adds.append {refs refs' refs'' : RefTable} {given given' : List Given}
    (h : Adds info refs refs' given) (h' : Adds info refs' refs'' given') :
    Adds info refs refs'' (given ++ given') where
  issued := fun l hl => by
    rw [List.map_append, ← List.append_assoc]
    exact h'.issued _ (h.issued l hl)
  made := fun g hg => (List.mem_append.mp hg).elim (h.made g) (h'.made g)
  noExpr := fun g hg => (List.mem_append.mp hg).elim (h.noExpr g) (h'.noExpr g)

theorem getVarRef_issued {refs : RefTable} {l : List (Nat × Option (Nat × Nat × String))}
    (h : Issued refs l) (a : Ask) (target : RefTarget) :
    Issued (getVarRef a target refs).1 (l ++ [(getVarRef a target refs).2.issue]) :=
  h.put a.key target

theorem addVarEntry_adds {a : Ask} {target : RefTarget} {refs refs' : RefTable}
    {given : List Given} (h : addVarEntry info curStep a target refs = some (refs', given))
    (made : a.Made info) (noExpr : ∀ text, a.entity ≠ .expr text) :
    Adds info refs refs' given := by
  unfold addVarEntry at h
  split at h
  · cases h
  · cases h
    exact adds_nil refs
  · cases h
    refine ⟨fun l hl => getVarRef_issued hl a _, fun g hg => ?_, fun g hg => ?_⟩
    · rw [List.mem_singleton.mp hg]
      exact made
    · rw [List.mem_singleton.mp hg]
      exact noExpr

theorem addVar_adds {scope varId step : Nat} {refs refs' : RefTable} {given : List Given}
    (h : addVar info curStep scope varId step refs = some (refs', given)) :
    Adds info refs refs' given := by
  unfold addVar at h
  cases hfind : info.vars.find? (·.id == varId) with
  | none =>
      rw [hfind] at h
      cases h
  | some v =>
      simp only [hfind] at h
      split at h
      · cases h
      · refine addVarEntry_adds h ⟨rfl, ?_⟩ fun _ heq => by cases heq
        simp [DebugInfo.varName, hfind]

theorem addEntries_adds : ∀ {entries : List AddEntry} (refs : RefTable),
    (∀ entry ∈ entries, ∀ refs refs' given, entry refs = some (refs', given) →
      Adds info refs refs' given) →
    Adds info refs (addEntries entries refs).1 (addEntries entries refs).2
  | [], refs, _ => adds_nil refs
  | entry :: rest, refs, hadds => by
      unfold addEntries
      cases hentry : entry refs with
      | none => exact adds_nil refs
      | some result =>
          obtain ⟨refs', given⟩ := result
          exact (hadds entry (by simp) refs refs' given hentry).append
            (addEntries_adds refs' fun e he => hadds e (by simp [he]))

theorem addVarItems_adds (refId : Nat) (start count : UInt32) (refs : RefTable) :
    Adds info refs (addVarItems info curStep refId start count refs).1
      (addVarItems info curStep refId start count refs).2 := by
  unfold addVarItems
  split
  · exact adds_nil refs
  · split
    · exact adds_nil refs
    · refine addEntries_adds refs fun entry hentry => ?_
      obtain ⟨i, hi, rfl⟩ := List.mem_map.mp hentry
      intro refs refs' given h
      refine addVarEntry_adds h ⟨rfl, rfl, rfl, ?_⟩ fun _ heq => by cases heq
      obtain ⟨_, hbound⟩ := List.mem_range'_1.mp hi
      have hcount := count.toNat_lt
      omega

theorem addVarFields_adds (refId : Nat) (refs : RefTable) :
    Adds info refs (addVarFields info curStep refId refs).1
      (addVarFields info curStep refId refs).2 := by
  unfold addVarFields
  split
  · exact adds_nil refs
  · refine addEntries_adds refs fun entry hentry => ?_
    obtain ⟨m, _, rfl⟩ := List.mem_map.mp hentry
    exact fun refs refs' given h =>
      addVarEntry_adds h ⟨rfl, rfl, rfl⟩ fun _ heq => by cases heq

theorem processScopeVars_adds (frames : List Frame) (scope : Nat) (refs : RefTable) :
    Adds info refs (processScopeVars info curStep frames scope refs).1
      (processScopeVars info curStep frames scope refs).2 := by
  have vars : ∀ (scope step : Nat) (l : List VarRow), Adds info refs
      (addEntries (l.map fun v => addVar info curStep scope v.id step) refs).1
      (addEntries (l.map fun v => addVar info curStep scope v.id step) refs).2 := by
    intro scope step l
    refine addEntries_adds refs fun entry hentry => ?_
    obtain ⟨v, _, rfl⟩ := List.mem_map.mp hentry
    exact fun refs refs' given h => addVar_adds h
  unfold processScopeVars
  split
  · exact vars _ _ _
  · split
    · exact adds_nil refs
    · exact vars _ _ _

end

/-- The tables and what was given out: the numbers of the references belong to their
keys, and those of the expressions to their texts. -/
structure Sound (info : DebugInfo) (st : RefState) (given : List Given) : Prop where
  issued : Issued st.refs (given.map Given.issue)
  made : ∀ g ∈ given, g.ask.Made info
  exprs : ∃ told, Issued st.exprs told ∧
    ∀ g ∈ given, ∀ text, g.ask.entity = .expr text → (g.ask.parent, some text) ∈ told

section
variable {info : DebugInfo} {st : RefState} {given : List Given}

theorem sound_init (info : DebugInfo) : Sound info .init [] where
  issued := issued_empty
  made := fun g hg => by cases hg
  exprs := ⟨[], issued_empty, fun g hg => by cases hg⟩

theorem Sound.adds (h : Sound info st given) {refs : RefTable} {new : List Given}
    (hadds : Adds info st.refs refs new) : Sound info { st with refs } (given ++ new) where
  issued := by
    rw [List.map_append]
    exact hadds.issued _ h.issued
  made := fun g hg => (List.mem_append.mp hg).elim (h.made g) (hadds.made g)
  exprs := by
    obtain ⟨told, hissued, htold⟩ := h.exprs
    refine ⟨told, hissued, fun g hg text heq => ?_⟩
    rcases List.mem_append.mp hg with hg | hg
    · exact htold g hg text heq
    · exact absurd heq (hadds.noExpr g hg text)

theorem queryExprCache_issued {exprs : Table String (Option Nat)}
    {told : List (Nat × Option String)}
    (h : Issued exprs told) (text : String) :
    Issued (queryExprCache text exprs).1
      (told ++ [((queryExprCache text exprs).2.1, some text)]) := by
  unfold queryExprCache
  cases hfind : exprs.find (some text) with
  | some row => exact h.found hfind
  | none => exact h.insert hfind none

theorem Sound.evaluate (h : Sound info st given) (curStep : Nat) (frames : List Frame)
    (text : String) (frameId : Nat) :
    Sound info (processEvaluate info curStep frames text frameId st).1
      (given ++ (processEvaluate info curStep frames text frameId st).2) := by
  obtain ⟨told, hissued, htold⟩ := h.exprs
  have hquery := queryExprCache_issued hissued text
  unfold processEvaluate
  split
  · simpa using h
  · rename_i frame _
    generalize queryExprCache text st.exprs = found at hquery
    obtain ⟨exprs, id, ast⟩ := found
    -- whatever becomes of the expression, its number stays
    have quiet : ∀ exprs', Issued exprs' (told ++ [(id, some text)]) →
        Sound info { st with exprs := exprs' } (given ++ []) := fun exprs' hexprs' =>
      ⟨by simpa using h.issued, by simpa using h.made, _, hexprs', fun g hg text' heq =>
        List.mem_append_left _ (htold g (by simpa using hg) text' heq)⟩
    have loud : ∀ exprs' target, Issued exprs' (told ++ [(id, some text)]) →
        let result := getVarRef
          { entity := .expr text, parentType := ptypeExpr, parent := id, child := "" }
          target st.refs
        Sound info { refs := result.1, exprs := exprs' } (given ++ [result.2]) := by
      intro exprs' target hexprs' result
      refine ⟨?_, fun g hg => ?_, _, hexprs', fun g hg text' heq => ?_⟩
      · rw [List.map_append]
        exact getVarRef_issued h.issued _ target
      · rcases List.mem_append.mp hg with hg | hg
        · exact h.made g hg
        · rw [List.mem_singleton.mp hg]
          exact ⟨rfl, rfl⟩
      · rcases List.mem_append.mp hg with hg | hg
        · exact List.mem_append_left _ (htold g hg text' heq)
        · rw [List.mem_singleton.mp hg] at heq ⊢
          cases heq
          exact List.mem_append_right _ (List.mem_singleton.mpr rfl)
    cases ast with
    | some ast =>
        simp only []
        split
        · exact quiet exprs hquery
        · exact quiet exprs hquery
        · exact loud exprs _ hquery
    | none =>
        simp only []
        split
        · next ast _ =>
            split
            · exact quiet _ (hquery.set ast _)
            · exact quiet _ (hquery.set ast _)
            · exact loud _ _ (hquery.set ast _)
        · exact quiet exprs hquery

theorem Sound.process (h : Sound info st given) (call : VarCall) :
    Sound info (call.process info st).1 (given ++ (call.process info st).2) := by
  rcases call with ⟨frames, curStep, request⟩
  cases request with
  | scope scope => exact h.adds (processScopeVars_adds frames scope st.refs)
  | items ref start count => exact h.adds (addVarItems_adds ref start count st.refs)
  | fields ref => exact h.adds (addVarFields_adds ref st.refs)
  | evaluate text frameId => exact h.evaluate curStep frames text frameId

theorem Sound.examine {st : RefState} {given : List Given} (h : Sound info st given) :
    ∀ calls : List VarCall, ∃ st', Sound info st' (given ++ examine info st calls)
  | [] => ⟨st, by simpa [FlightRec.examine] using h⟩
  | call :: rest => by
      have := (h.process call).examine rest
      rwa [List.append_assoc] at this

end

/-! ## When numbers stand for what was asked for -/

/-- Two references do not get in each other's way.  A variable is asked for in one
scope only, by a name that no other variable shown in that scope has; a field has a
name that no other field of its reference has; a variable is not named like a field
or an item of the reference whose number its scope has; and no field is named like an
item.  A variable or field without a name is asked for once. -/
def Ask.Clear (a b : Ask) : Prop :=
  match a.entity, b.entity with
  | .var v, .var w =>
      (v = w → a.parent = b.parent ∧ a.child ≠ none) ∧
        (v ≠ w → a.parent = b.parent → a.child = b.child → a.child = none)
  | .field ref m, .field ref' m' => ref = ref' →
      (m = m' → m.name ≠ none) ∧ (m ≠ m' → m.name = m'.name → m.name = none)
  | .var _, .field ref m => a.parent = ref → a.child = m.name → m.name = none
  | .field ref m, .var _ => b.parent = ref → b.child = m.name → m.name = none
  | .var _, .item ref i => a.parent = ref → a.child ≠ some (itemName i)
  | .item ref i, .var _ => b.parent = ref → b.child ≠ some (itemName i)
  | .field ref m, .item ref' i => ref = ref' → m.name ≠ some (itemName i)
  | .item ref i, .field ref' m => ref = ref' → m.name ≠ some (itemName i)
  | .item _ _, .item _ _ => True
  | .expr _, _ => True
  | _, .expr _ => True

theorem itemName_inj {i j : Nat} (hi : i < 2 ^ 32) (hj : j < 2 ^ 32)
    (h : itemName i = itemName j) : i = j := by
  unfold itemName at h
  have hrepr : (BitVec.ofNat 32 i).toInt.repr = (BitVec.ofNat 32 j).toInt.repr := by
    simpa using h
  have hbits := BitVec.toInt_inj.mp (Int.repr_injective hrepr)
  have hnat := congrArg BitVec.toNat hbits
  rwa [BitVec.toNat_ofNat, BitVec.toNat_ofNat, Nat.mod_eq_of_lt hi, Nat.mod_eq_of_lt hj] at hnat

/-- Two calls get the same number exactly if they are for the same. -/
def Ask.Identified (a b : Ask) : Prop := (a.key = b.key ∧ a.key ≠ none) ↔ a.entity = b.entity

theorem Ask.key_eq_iff {a b : Ask} : (a.key = b.key ∧ a.key ≠ none) ↔
    a.parentType = b.parentType ∧ a.parent = b.parent ∧ a.child = b.child ∧ a.child ≠ none := by
  unfold Ask.key
  cases a.child <;> cases b.child <;> simp

section
variable {a b : Ask}

theorem Ask.identified_same (hptype : a.parentType = b.parentType) (heq : a.entity = b.entity) :
    a.Identified b ↔ a.parent = b.parent ∧ a.child = b.child ∧ a.child ≠ none := by
  rw [Ask.Identified, Ask.key_eq_iff, iff_true_right heq, and_iff_right hptype]

theorem Ask.identified_apart (hptype : a.parentType = b.parentType) (hne : a.entity ≠ b.entity) :
    a.Identified b ↔ (a.parent = b.parent → a.child = b.child → a.child = none) := by
  rw [Ask.Identified, Ask.key_eq_iff, iff_false_right hne]
  constructor
  · intro h hparent hchild
    by_contra hnone
    exact h ⟨hptype, hparent, hchild, hnone⟩
  · rintro h ⟨_, hparent, hchild, hnone⟩
    exact hnone (h hparent hchild)

theorem Ask.clear_iff_of_same (hptype : a.parentType = b.parentType) (heq : a.entity = b.entity)
    (h : a.Clear b ↔ a.parent = b.parent ∧ a.child = b.child ∧ a.child ≠ none) :
    a.Clear b ↔ a.Identified b := h.trans (Ask.identified_same hptype heq).symm

theorem Ask.clear_iff_of_apart (hptype : a.parentType = b.parentType) (hne : a.entity ≠ b.entity)
    (h : a.Clear b ↔ (a.parent = b.parent → a.child = b.child → a.child = none)) :
    a.Clear b ↔ a.Identified b := h.trans (Ask.identified_apart hptype hne).symm

theorem Ask.identified_comm : a.Identified b ↔ b.Identified a := by
  have hkey : (a.key = b.key ∧ a.key ≠ none) ↔ (b.key = a.key ∧ b.key ≠ none) := by
    constructor
    · exact fun h => ⟨h.1.symm, h.1 ▸ h.2⟩
    · exact fun h => ⟨h.1.symm, h.1 ▸ h.2⟩
  unfold Ask.Identified
  rw [hkey, eq_comm (b := b.entity)]

variable {info : DebugInfo}

theorem Ask.identified_expr {text : String} (ha : a.Made info) (hb : b.Made info)
    (hexpr : b.entity = .expr text) (hother : ∀ text, a.entity ≠ .expr text) :
    a.Identified b := by
  have hne : a.entity ≠ b.entity := fun h => hother text (h.trans hexpr)
  have hpb : b.parentType = ptypeExpr := by
    rw [Ask.Made, hexpr] at hb
    exact hb.1
  have hpa : a.parentType = ptypeScope := by
    unfold Ask.Made at ha
    cases h : a.entity with
    | expr text' => exact absurd h (hother text')
    | var | field | item =>
        rw [h] at ha
        exact ha.1
  rw [Ask.Identified, Ask.key_eq_iff, iff_false_right hne, hpa, hpb]
  exact fun h => absurd h.1 (by decide)

end

section
variable {info : DebugInfo} {v ref i ptype parent ptype' parent' : Nat} {m : MemberRow}
  {child child' : Option String}

theorem Ask.clear_var_field (ha : Ask.Made info ⟨.var v, ptype, parent, child⟩)
    (hb : Ask.Made info ⟨.field ref m, ptype', parent', child'⟩) :
    Ask.Clear ⟨.var v, ptype, parent, child⟩ ⟨.field ref m, ptype', parent', child'⟩ ↔
      Ask.Identified ⟨.var v, ptype, parent, child⟩ ⟨.field ref m, ptype', parent', child'⟩ := by
  obtain ⟨rfl, rfl⟩ : ptype = ptypeScope ∧ child = info.varName v := ha
  obtain ⟨rfl, rfl, rfl⟩ : ptype' = ptypeScope ∧ parent' = ref ∧ child' = m.name := hb
  refine Ask.clear_iff_of_apart rfl (by simp) ?_
  exact ⟨fun h hp hc => hc.trans (h hp hc), fun h hp hc => hc.symm.trans (h hp hc)⟩

theorem Ask.clear_var_item (ha : Ask.Made info ⟨.var v, ptype, parent, child⟩)
    (hb : Ask.Made info ⟨.item ref i, ptype', parent', child'⟩) :
    Ask.Clear ⟨.var v, ptype, parent, child⟩ ⟨.item ref i, ptype', parent', child'⟩ ↔
      Ask.Identified ⟨.var v, ptype, parent, child⟩ ⟨.item ref i, ptype', parent', child'⟩ := by
  obtain ⟨rfl, rfl⟩ : ptype = ptypeScope ∧ child = info.varName v := ha
  obtain ⟨rfl, rfl, rfl, _⟩ :
    ptype' = ptypeScope ∧ parent' = ref ∧ child' = some (itemName i) ∧ i < 2 ^ 32 := hb
  refine Ask.clear_iff_of_apart rfl (by simp) ⟨fun h hp hc => absurd hc (h hp), fun h hp hc => ?_⟩
  have hnone : info.varName v = none := h hp hc
  rw [hnone] at hc
  cases hc

theorem Ask.clear_field_item {ref' : Nat} (ha : Ask.Made info ⟨.field ref m, ptype, parent, child⟩)
    (hb : Ask.Made info ⟨.item ref' i, ptype', parent', child'⟩) :
    Ask.Clear ⟨.field ref m, ptype, parent, child⟩ ⟨.item ref' i, ptype', parent', child'⟩ ↔
      Ask.Identified ⟨.field ref m, ptype, parent, child⟩
        ⟨.item ref' i, ptype', parent', child'⟩ := by
  obtain ⟨rfl, rfl, rfl⟩ : ptype = ptypeScope ∧ parent = ref ∧ child = m.name := ha
  obtain ⟨rfl, rfl, rfl, _⟩ :
    ptype' = ptypeScope ∧ parent' = ref' ∧ child' = some (itemName i) ∧ i < 2 ^ 32 := hb
  refine Ask.clear_iff_of_apart rfl (by simp) ⟨fun h hp hc => absurd hc (h hp), fun h hp hc => ?_⟩
  have hnone : m.name = none := h hp hc
  rw [hnone] at hc
  cases hc

end

/-- Of two things that are not expressions the parent types are the same, so it is the
parents and the names that keep them apart. -/
theorem Ask.clear_iff {info : DebugInfo} {a b : Ask} (ha : a.Made info) (hb : b.Made info)
    (texts : ∀ text text', a.entity = .expr text → b.entity = .expr text' →
      (a.parent = b.parent ↔ text = text')) :
    a.Clear b ↔ a.Identified b := by
  rcases a with ⟨entity, ptype, parent, child⟩
  rcases b with ⟨entity', ptype', parent', child'⟩
  cases entity with
  | var v =>
      cases entity' with
      | var w =>
          obtain ⟨rfl, rfl⟩ : ptype = ptypeScope ∧ child = info.varName v := ha
          obtain ⟨rfl, rfl⟩ : ptype' = ptypeScope ∧ child' = info.varName w := hb
          by_cases hvw : v = w
          · subst hvw
            refine Ask.clear_iff_of_same rfl rfl ?_
            simp [Ask.Clear]
          · refine Ask.clear_iff_of_apart rfl (by simpa using hvw) ?_
            simp [Ask.Clear, hvw]
      | field ref m => exact Ask.clear_var_field ha hb
      | item ref i => exact Ask.clear_var_item ha hb
      | expr text => exact iff_of_true trivial (Ask.identified_expr ha hb rfl nofun)
  | field ref m =>
      cases entity' with
      | var w => exact (Ask.clear_var_field hb ha).trans Ask.identified_comm
      | field ref' m' =>
          obtain ⟨rfl, rfl, rfl⟩ : ptype = ptypeScope ∧ parent = ref ∧ child = m.name := ha
          obtain ⟨rfl, rfl, rfl⟩ : ptype' = ptypeScope ∧ parent' = ref' ∧ child' = m'.name := hb
          by_cases hsame : parent = parent' ∧ m = m'
          · obtain ⟨rfl, rfl⟩ := hsame
            refine Ask.clear_iff_of_same rfl rfl ?_
            simp [Ask.Clear]
          · refine Ask.clear_iff_of_apart rfl (by simpa using hsame) ?_
            simp only [Ask.Clear]
            constructor
            · exact fun h hp hc => (h hp).2 (fun hm => hsame ⟨hp, hm⟩) hc
            · exact fun h hp => ⟨fun hm => absurd ⟨hp, hm⟩ hsame, fun _ => h hp⟩
      | item ref' i => exact Ask.clear_field_item ha hb
      | expr text => exact iff_of_true trivial (Ask.identified_expr ha hb rfl nofun)
  | item ref i =>
      cases entity' with
      | var w => exact (Ask.clear_var_item hb ha).trans Ask.identified_comm
      | field ref' m =>
          have hclear := (Ask.clear_field_item hb ha).trans Ask.identified_comm
          exact (imp_congr_left eq_comm).trans hclear
      | item ref' j =>
          obtain ⟨rfl, rfl, rfl, hi⟩ :
            ptype = ptypeScope ∧ parent = ref ∧ child = some (itemName i) ∧ i < 2 ^ 32 := ha
          obtain ⟨rfl, rfl, rfl, hj⟩ :
            ptype' = ptypeScope ∧ parent' = ref' ∧ child' = some (itemName j) ∧ j < 2 ^ 32 := hb
          by_cases hsame : parent = parent' ∧ i = j
          · obtain ⟨rfl, rfl⟩ := hsame
            exact Ask.clear_iff_of_same rfl rfl (iff_of_true trivial ⟨rfl, rfl, by simp⟩)
          · refine Ask.clear_iff_of_apart rfl (by simpa using hsame)
              (iff_of_true trivial fun hp hc => ?_)
            exact absurd ⟨hp, itemName_inj hi hj (Option.some.inj hc)⟩ hsame
      | expr text => exact iff_of_true trivial (Ask.identified_expr ha hb rfl nofun)
  | expr text =>
      cases entity' with
      | var | field | item =>
          refine iff_of_true trivial (Ask.identified_comm.mp ?_)
          exact Ask.identified_expr hb ha rfl nofun
      | expr text' =>
          obtain ⟨rfl, rfl⟩ : ptype = ptypeExpr ∧ child = some "" := ha
          obtain ⟨rfl, rfl⟩ : ptype' = ptypeExpr ∧ child' = some "" := hb
          have htext : parent = parent' ↔ text = text' := texts text text' rfl rfl
          by_cases hsame : text = text'
          · subst hsame
            exact Ask.clear_iff_of_same rfl rfl (iff_of_true trivial ⟨htext.mpr rfl, rfl, by simp⟩)
          · refine Ask.clear_iff_of_apart rfl (by simpa using hsame)
              (iff_of_true trivial fun hp _ => ?_)
            exact absurd (htext.mp hp) hsame

/-- **References stand for what was asked for** in a session exactly if the calls that
got them are clear of each other. -/
theorem examine_identified_iff (info : DebugInfo) (calls : List VarCall) :
    ((examine info .init calls).Pairwise fun a b =>
      a.id = b.id ↔ a.ask.entity = b.ask.entity) ↔
    (examine info .init calls).Pairwise fun a b => a.ask.Clear b.ask := by
  obtain ⟨st, hsound⟩ := (sound_init info).examine calls
  rw [List.nil_append] at hsound
  generalize examine info .init calls = given at hsound
  obtain ⟨told, htold, hexpr⟩ := hsound.exprs
  have hids : given.Pairwise fun a b =>
      (a.id = b.id ↔ a.ask.key = b.ask.key ∧ a.ask.key ≠ none) :=
    List.pairwise_map.mp hsound.issued.told
  have hclear : ∀ a ∈ given, ∀ b ∈ given, (a.ask.Clear b.ask ↔ a.ask.Identified b.ask) :=
    fun a ha b hb => Ask.clear_iff (hsound.made a ha) (hsound.made b hb) fun text text' ht ht' =>
      htold.same_iff (hexpr a ha text ht) (hexpr b hb text' ht')
  constructor
  · refine fun h => (h.and hids).imp_of_mem fun {a b} ha hb hab => ?_
    exact (hclear a ha b hb).mpr (hab.2.symm.trans hab.1)
  · refine fun h => (h.and hids).imp_of_mem fun {a b} ha hb hab => ?_
    exact hab.2.trans ((hclear a ha b hb).mp hab.1)

/-- A client with a structure `s` of scope 1, whose first member is a structure `s`
too, and with structures `x` in scope 1 and in scope 2 inside it. -/
def shadowInfo : DebugInfo where
  vars := [⟨1, some "s", 1, 1, 3⟩, ⟨2, some "x", 1, 1, 4⟩, ⟨3, some "x", 2, 1, 6⟩]
  scopeAncestors := [⟨1, 0⟩, ⟨2, 1⟩]
  members := [⟨7, some "s", 0, 8⟩]
  varLocation varId _ := some (0x1000 * varId, 7)
  arrayInfo _ _ := none
  shown _ target := .ref target
  parsed _ _ := none
  evaluated _ _ _ := .failed

/-- The scopes of a step in scope 1, and then the fields of `s`. -/
def fieldCalls : List VarCall :=
  [⟨[⟨0, 1, 4, 1, 4⟩], 4, .scope 1⟩, ⟨[⟨0, 1, 4, 1, 4⟩], 4, .fields 1⟩]

/-- The variables of a step in scope 2. -/
def shadowCalls : List VarCall := [⟨[⟨0, 2, 9, 1, 8⟩], 9, .scope 2⟩]

/-- The member `s` of reference 1 takes the number of the variable `s` of scope 1,
and both variables `x` shown in scope 2 get the same number. -/
theorem references_shared :
    (∃ a ∈ examine shadowInfo .init fieldCalls, ∃ b ∈ examine shadowInfo .init fieldCalls,
      a.ask.entity = .var 1 ∧ b.ask.entity = .field 1 ⟨7, some "s", 0, 8⟩ ∧ a.id = b.id) ∧
    ∃ a ∈ examine shadowInfo .init shadowCalls, ∃ b ∈ examine shadowInfo .init shadowCalls,
      a.ask.entity = .var 2 ∧ b.ask.entity = .var 3 ∧ a.id = b.id := by
  decide

end FlightRec
