/-
# `FlightRec.Examine.Presentations` — leaves and containers

The IDE shows a variable as a leaf, or as a container that can be opened.  `add_var_entry`
of examine/vars.c makes an entry of a list of it, `get_eval_result` of
examine/expressions/expression.c a result.  Both register a container in `local.ref`, with
its address and its type, and announce its children.

    the entry of a type        (`listed_leaf_iff`, `listed_type`)
    the result of a variable   (`eval_shows`)
    what it has registered     (`answers_unique`)
-/
import FlightRec.Examine.Entries
import FlightRec.Examine.FieldTypes
import FlightRec.Examine.PointerReads

namespace FlightRec.Presentations

open Agreement Chain Entries Expressions Hoare Update

/-! ## What is shown -/

/-- A leaf, with its number if it has one, or a container: what `local.ref` has for it, and
the number of its children. -/
inductive Presentation where
  | leaf (number : Option Int)
  | container (address : NodeValue) (type : Int) (named indexed : Option NodeValue)
  deriving DecidableEq, Repr

/-- The number in a value. -/
def entryNumber : EntryValue → Option Int
  | .number value _ => some value
  | .enumItem _ value => some value
  | _ => none

/-- An entry of the list. -/
def listed (e : VarEntry) : Presentation :=
  match e.reference with
  | none => .leaf (e.values.findSome? entryNumber)
  | some (addr, type, _) =>
      .container (.ofNat 64 addr) type (e.namedVariables.map (.ofNat 64))
        (e.indexedVariables.map (.ofNat 64))

/-- A result, with the numbers that `get_var_ref` gives out for addresses, types and
indirections. -/
def Presentation.Answers (ref : NodeValue → Int → Int → Nat) (r : EvalResult) :
    Presentation → Prop
  | .leaf n =>
      (r.variablesReference = none ∨ r.variablesReference = some 0) ∧ r.result.bind number = n
  | .container address type named indexed =>
      (∃ indirect, r.variablesReference = some (ref address type indirect)) ∧
        r.namedVariables = named ∧ r.indexedVariables = indexed

/-! ## The two requests -/

/-- `IFNULL(p.flags & TKIND_TYPE, t.size)` -/
def underKind (rows : List StoredType) (t : StoredType) : Nat :=
  match typeAt rows t.parent with
  | some p => p.kind
  | none => typeSize t

/-- `type_details` -/
def typeDetails (rows : List StoredType) : Int → Option (NodeValue × Nat)
  | .ofNat o => (typeAt rows o).map fun t => (.ofNat 64 t.dim, underKind rows t)
  | .negSucc o => (basicTypes.find? (·.offset = .negSucc o)).map fun t => (0, t.size)

/-- `get_pointer_size`, when the memory has been read before. -/
def block (c : Contents) (addr : Nat) : Heap.PointerSize :=
  Heap.getPointerSize (some c.mem) (c.heapRow addr) addr c.curStep

def pointerSize (c : Contents) (addr : NodeValue) : PointerSize :=
  match block c addr.toNat with
  | .success size => .size (.ofNat 64 size)
  | .memReleased => .released
  | .memNotfound => .notFound
  | .failure => .failure

/-- The lookups of `evaluate`. -/
def evalEnv (S : Symbols) (rows : List StoredType) (c : Contents) (E : Env)
    (ref : NodeValue → Int → Int → Nat) : Env :=
  { S.env E with
    mem := some c.mem
    curStep := c.curStep
    pointerSize := pointerSize c
    typeDetails := typeDetails rows
    varRef := fun _ addr type indirect => some (ref addr type indirect) }

/-- A `variables` request for the scope shows the variable so. -/
def Lists (S : Symbols) (rows : List StoredType) (members : List (Nat × DieMember)) (c : Contents)
    (frames : List Frame) (scope : Nat) (v : VarRow) (p : Presentation) : Prop :=
  ∃ step addr type e, variablesStep c.curStep frames scope = .ok step ∧
    S.info.varLocation v.id step = some (addr, type) ∧
    Entries.addVarEntry rows members c addr type 0 = some (some e) ∧ listed e = p

/-- An `evaluate` request for the name in the frame shows it so, whatever numbers
references get. -/
def Evaluates (S : Symbols) (T : Tables) (rows : List StoredType) (c : Contents) (E : Env)
    (frames : List Frame) (exprId : Nat) (frameId : Int) (name : String) (p : Presentation) :
    Prop :=
  ∃ scope step ast, evaluateFrame frames (some frameId) = .ok (scope, step) ∧
    ExprParse (S.tables T) scope [lexWord name] ast ∧
    ∀ ref, (∀ addr type indirect, ref addr type indirect ≠ 0) → ∃ r s,
      (getEvalResult (evalEnv S rows c E ref) exprId ast step).run {} = some (some r, s) ∧
        p.Answers ref r

/-! ## Kinds of types -/

/-- Functions and characters are shown at once. -/
def isShown (item : StoredType) : Bool :=
  tkind item = .func || (typeSize item = 1 && (tkind item).isInteger)

/-- `evaluate` takes what has one byte for characters, if its parent type or its own size
looks like a kind of integers. -/
def isText (rows : List StoredType) (t : StoredType) : Bool :=
  typeSize t = 1 && (underKind rows t = 1 || underKind rows t = 2)

/-- A struct or a union. -/
def isCompound (t : StoredType) : Bool := tkind t = .struct || tkind t = .union

/-- The pointer that `evaluate` finds: from a buffer with the bytes of what it points to. -/
def evalTarget (c : Contents) (heap : Nat → UInt8) (addr size : Nat) : NodeValue :=
  .ofNat 64 (load (fun i => (getVarValue c.mem addr size c.curStep).getD i (heap i)) 8)

/-- `variables` shows no number, and has no children. -/
def ListedLeaf (rows : List StoredType) (c : Contents) (addr : Nat) (t : StoredType) : Prop :=
  match tkind t with
  | .pointer =>
      let target := c.loadAt addr (typeSize t) 8
      target = 0 ∨ ∀ size, block c target = .success size →
        ∃ item, typeAt rows t.parent = some item ∧ isShown item ∧ (size = 0 ∨ typeSize item ≠ 0)
  | .array => ∃ item, typeAt rows t.parent = some item ∧ isShown item
  | .struct | .union | .signed | .unsigned | .enum => False
  | _ => True

/-! ## The list -/

section
variable {rows : List StoredType} {members : List (Nat × DieMember)} {c : Contents}
  {t item : StoredType} {addr dim size : Nat} {shown : List EntryValue} {p : Presentation}

theorem isShown_iff : isShown item ↔
    tkind item = .func ∨ (typeSize item = 1 ∧ (tkind item).isInteger) := by
  rw [isShown, Bool.or_eq_true, Bool.and_eq_true, decide_eq_true_eq, decide_eq_true_eq]

theorem isCompound_iff : isCompound t ↔ tkind t = .struct ∨ tkind t = .union := by
  rw [isCompound, Bool.or_eq_true, decide_eq_true_eq, decide_eq_true_eq]

theorem not_compound_of_shown (h : isShown item) : ¬ isCompound item := by
  intro hcompound
  rcases isShown_iff.mp h with hfunc | ⟨_, hinteger⟩ <;>
    rcases isCompound_iff.mp hcompound with hk | hk
  · cases hfunc.symm.trans hk
  · cases hfunc.symm.trans hk
  · rw [hk] at hinteger
    cases hinteger
  · rw [hk] at hinteger
    cases hinteger

theorem listed_items (hshown : shown.findSome? entryNumber = none)
    (hitem : typeAt rows t.parent = some item) :
    (itemsEntry rows c t addr 0 dim size shown).join.map listed =
      if size ≠ 0 ∧ typeSize item = 0 then none
      else if isShown item then some (.leaf none)
      else
        let n := if size ≠ 0 then size / typeSize item else dim
        if n = 1 ∧ isCompound item then some (.container (.ofNat 64 addr) t.parent none none)
        else some (.container (.ofNat 64 addr) t.offset none (some (.ofNat 64 n))) := by
  have hleaf (v : EntryValue) (hv : entryNumber v = none) :
      listed { values := shown ++ [v] } = .leaf none := by
    rw [listed]
    simp only [List.findSome?_append, hshown, List.findSome?_cons, hv, List.findSome?_nil]
    rfl
  unfold itemsEntry
  rw [if_neg (not_not.mpr rfl), hitem]
  dsimp only
  by_cases hzero : size ≠ 0 ∧ typeSize item = 0
  · rw [if_pos hzero, if_pos hzero]
    rfl
  · rw [if_neg hzero, if_neg hzero]
    by_cases hfunc : tkind item = .func
    · rw [if_pos hfunc, if_pos (isShown_iff.mpr (.inl hfunc))]
      exact congrArg some (hleaf _ rfl)
    · rw [if_neg hfunc]
      by_cases hchar : typeSize item = 1 ∧ (tkind item).isInteger
      · rw [if_pos hchar, if_pos (isShown_iff.mpr (.inr hchar))]
        exact congrArg some (hleaf _ rfl)
      · have hplain : ¬ isShown item := fun h => (isShown_iff.mp h).elim hfunc hchar
        rw [if_neg hchar, if_neg hplain]
        generalize (if size ≠ 0 then size / typeSize item else dim) = n
        simp only [isCompound_iff]
        split <;> rfl

theorem listed_items_none (hitem : typeAt rows t.parent = none) :
    (itemsEntry rows c t addr 0 dim size shown).join.map listed = none := by
  unfold itemsEntry
  rw [if_neg (not_not.mpr rfl), hitem]
  rfl

/-- What can be listed: a leaf without a number, or a container, which is one of the type
itself if it announces items. -/
theorem listed_items_cases (hshown : shown.findSome? entryNumber = none) {p : Presentation}
    (h : (itemsEntry rows c t addr 0 dim size shown).join.map listed = some p) :
    p = .leaf none ∨ ∃ a x n, p = .container a x none n ∧ (n ≠ none → x = t.offset) := by
  cases hitem : typeAt rows t.parent with
  | none =>
      rw [listed_items_none hitem] at h
      cases h
  | some item =>
      rw [listed_items hshown hitem] at h
      generalize (if size ≠ 0 then size / typeSize item else dim) = m at h
      dsimp only at h
      split at h
      · cases h
      · split at h
        · cases h
          exact .inl rfl
        · split at h
          · cases h
            exact .inr ⟨_, _, _, rfl, fun hnone => absurd rfl hnone⟩
          · cases h
            exact .inr ⟨_, _, _, rfl, fun _ => rfl⟩

theorem listed_items_type (hshown : shown.findSome? entryNumber = none) {a : NodeValue} {x : Int}
    {n : NodeValue} (h : (itemsEntry rows c t addr 0 dim size shown).join.map listed =
      some (.container a x none (some n))) : x = t.offset := by
  rcases listed_items_cases hshown h with hleaf | ⟨_, _, _, hcontainer, htype⟩
  · cases hleaf
  · cases hcontainer
    exact htype (Option.some_ne_none _)

theorem listed_items_number (hshown : shown.findSome? entryNumber = none) {n : Option Int}
    (h : (itemsEntry rows c t addr 0 dim size shown).join.map listed = some (.leaf n)) :
    n = none := by
  rcases listed_items_cases hshown h with hleaf | ⟨_, _, _, hcontainer, _⟩
  · cases hleaf
    rfl
  · cases hcontainer

theorem listed_items_leaf (hshown : shown.findSome? entryNumber = none) :
    (itemsEntry rows c t addr 0 dim size shown).join.map listed = some (.leaf none) ↔
      ∃ item, typeAt rows t.parent = some item ∧ isShown item ∧
        (size = 0 ∨ typeSize item ≠ 0) := by
  cases hitem : typeAt rows t.parent with
  | none =>
      rw [listed_items_none hitem]
      exact iff_of_false nofun nofun
  | some item =>
      rw [listed_items hshown hitem]
      simp only [Option.some.injEq, exists_eq_left']
      by_cases hzero : size ≠ 0 ∧ typeSize item = 0
      · rw [if_pos hzero]
        refine iff_of_false nofun fun h => ?_
        exact h.2.elim hzero.1 fun hne => hne hzero.2
      · have hsize : size = 0 ∨ typeSize item ≠ 0 := by
          rwa [not_and_or, not_not] at hzero
        rw [if_neg hzero]
        by_cases hitemShown : isShown item
        · rw [if_pos hitemShown]
          exact iff_of_true rfl ⟨hitemShown, hsize⟩
        · rw [if_neg hitemShown]
          generalize (if size ≠ 0 then size / typeSize item else dim) = m
          refine iff_of_false (fun h => ?_) fun h => hitemShown h.1
          split at h <;> cases h

theorem listed_pointer_leaf :
    (pointerEntry rows c t addr 0).join.map listed = some (.leaf none) ↔
      c.loadAt addr (typeSize t) 8 = 0 ∨
        ∀ size, block c (c.loadAt addr (typeSize t) 8) = .success size →
          ∃ item, typeAt rows t.parent = some item ∧ isShown item ∧
            (size = 0 ∨ typeSize item ≠ 0) := by
  unfold pointerEntry
  dsimp only
  generalize c.loadAt addr (typeSize t) 8 = target
  by_cases hnull : target = 0
  · rw [if_pos hnull]
    exact iff_of_true rfl (.inl hnull)
  · rw [if_neg hnull, or_iff_right hnull]
    have hblock : Heap.getPointerSize (some c.mem) (c.heapRow target) target c.curStep =
        block c target := rfl
    rw [hblock]
    cases hsize : block c target with
    | success size =>
        dsimp only
        rw [listed_items_leaf rfl]
        simp only [Heap.PointerSize.success.injEq, forall_eq']
    | memReleased | memNotfound | failure => exact iff_of_true rfl nofun

theorem listed_pointer_type {a : NodeValue} {x : Int} {n : NodeValue}
    (h : (pointerEntry rows c t addr 0).join.map listed =
      some (.container a x none (some n))) : x = t.offset := by
  unfold pointerEntry at h
  dsimp only at h
  split at h
  · cases h
  · split at h
    · cases h
    · cases h
    · cases h
    · exact listed_items_type rfl h

theorem listed_pointer_number {n : Option Int}
    (h : (pointerEntry rows c t addr 0).join.map listed = some (.leaf n)) : n = none := by
  unfold pointerEntry at h
  dsimp only at h
  split at h
  · cases h
    rfl
  · split at h
    · cases h
      rfl
    · cases h
      rfl
    · cases h
      rfl
    · exact listed_items_number rfl h

theorem listed_value (v : EntryValue) : listed { values := [v] } = .leaf (entryNumber v) := by
  rw [listed]
  cases h : entryNumber v with
  | none => rw [List.findSome?_cons_of_isNone (by rw [h]; rfl), List.findSome?_nil]
  | some n => rw [List.findSome?_cons_of_isSome (by rw [h]; rfl), h]

theorem listed_leaf_iff : ((typeEntry rows members c t addr 0).join.map listed =
      some (.leaf none) ∧ ¬ ((tkind t).isInteger ∨ tkind t = .enum)) ↔
    ListedLeaf rows c addr t := by
  rw [typeEntry, if_neg (not_not.mpr rfl), ListedLeaf]
  cases hkind : tkind t with
  | struct | union => exact iff_of_false (by rintro ⟨⟨⟩, _⟩) id
  | signed | unsigned => exact iff_of_false (fun h => h.2 (.inl rfl)) id
  | enum => exact iff_of_false (fun h => h.2 (.inr rfl)) id
  | pointer =>
      dsimp only
      rw [listed_pointer_leaf]
      exact and_iff_left (by rintro (⟨⟨⟩⟩ | ⟨⟨⟩⟩))
  | array =>
      dsimp only
      rw [listed_items_leaf rfl]
      refine (and_iff_left (by rintro (⟨⟨⟩⟩ | ⟨⟨⟩⟩))).trans
        (exists_congr fun item => and_congr_right fun _ => ?_)
      exact and_iff_left (.inl rfl)
  | float =>
      refine iff_of_true ⟨?_, by rintro (⟨⟨⟩⟩ | ⟨⟨⟩⟩)⟩ trivial
      refine congrArg some ((listed_value _).trans (congrArg _ ?_))
      split <;> rfl
  | _ => exact iff_of_true ⟨rfl, by rintro (⟨⟨⟩⟩ | ⟨⟨⟩⟩)⟩ trivial

theorem listed_type {a : NodeValue} {x : Int} {n : NodeValue}
    (h : (typeEntry rows members c t addr 0).join.map listed =
      some (.container a x none (some n))) : x = t.offset := by
  rw [typeEntry, if_neg (not_not.mpr rfl)] at h
  cases hkind : tkind t with
  | pointer =>
      rw [hkind] at h
      exact listed_pointer_type h
  | array =>
      rw [hkind] at h
      exact listed_items_type rfl h
  | _ =>
      rw [hkind] at h
      cases h

end

/-! ## The result of an expression -/

/-- An array, or what a pointer points to. -/
def evalItemsView (rows : List StoredType) (b : StoredType) (addr dim : NodeValue) :
    Presentation :=
  if isText rows b then .leaf none else .container addr b.offset none (some dim)

/-- A variable of this type, with so many indirections. -/
def evalView (rows : List StoredType) (c : Contents) (heap : Nat → UInt8) (addr : Nat)
    (b : StoredType) (indirect : Nat) : Option Presentation :=
  if indirect = 0 then
    match tkind b with
    | .signed | .unsigned =>
        if integerSize (typeSize b) then
          some (.leaf (some (readInteger c.mem (tkind b = .signed) addr (typeSize b) c.curStep)))
        else none
    | .float => if floatSize (typeSize b) then some (.leaf none) else none
    | .struct => some (.container (.ofNat 64 addr) b.offset (some (.ofNat 64 b.dim)) none)
    | _ => some (evalItemsView rows b (.ofNat 64 addr) (.ofNat 64 b.dim))
  else
    let target := evalTarget c heap addr (typeSize b)
    if target = 0 then some (.leaf none)
    else
      match block c target.toNat with
      | .success size =>
          let bytes : NodeValue := .ofNat 64 size
          if bytes = 0 then some (evalItemsView rows b target 1)
          else if typeSize b = 0 then none
          else some (evalItemsView rows b target (bytes / .ofNat 64 (typeSize b)))
      | _ => some (.leaf none)

/-- The run of a request has this to show, or nothing. -/
def Shows (ref : NodeValue → Int → Int → Nat)
    (run : Option (Option EvalResult × Expressions.Status)) : Option Presentation → Prop
  | some p => ∃ r s, run = some (some r, s) ∧ p.Answers ref r
  | none => ∀ r s, run ≠ some (some r, s)

section
variable {S : Symbols} {rows : List StoredType} {c : Contents} {E : Env}
  {ref : NodeValue → Int → Int → Nat} {b : StoredType} {k id varId addr type : Nat}
  {name : String}

theorem evaluateNode_location (env : Env) {a : Attrs} {step : Nat} {target : NodeValue}
    (h : env.varAddress varId step = some target) (flags : Flags) :
    evaluateNode env step (.var a name varId) flags = lvalue env a target step flags := by
  rw [evaluateNode, h]

theorem typeDetails_row (hb : typeAt rows b.offset = some b) :
    typeDetails rows b.offset = some (.ofNat 64 b.dim, underKind rows b) := by
  have hdetails : typeDetails rows (b.offset : Nat) =
      (typeAt rows b.offset).map fun t => (.ofNat 64 t.dim, underKind rows t) := rfl
  rw [hdetails, hb]
  rfl

theorem isText_iff : isText rows b ↔
    typeSize b = 1 ∧ (underKind rows b = 1 ∨ underKind rows b = 2) := by
  rw [isText, Bool.and_eq_true, Bool.or_eq_true, decide_eq_true_eq, decide_eq_true_eq,
    decide_eq_true_eq]

theorem evalItems_shows {addr dim size : NodeValue} {value : Printed} :
    ∃ r, Expressions.evalItems (evalEnv S rows c E ref) id (kept b k) addr dim size
      (underKind rows b) value = some r ∧ (evalItemsView rows b addr dim).Answers ref r := by
  unfold Expressions.evalItems evalItemsView
  by_cases htext : isText rows b
  · have hchar : (kept b k).size = 1 ∧ (underKind rows b = 1 ∨ underKind rows b = 2) :=
      isText_iff.mp htext
    rw [if_pos htext, if_pos hchar]
    exact ⟨_, rfl, .inr rfl, rfl⟩
  · have hchar : ¬ ((kept b k).size = 1 ∧ (underKind rows b = 1 ∨ underKind rows b = 2)) :=
      fun h => htext (isText_iff.mpr h)
    rw [if_neg htext, if_neg hchar]
    exact ⟨_, rfl, ⟨_, rfl⟩, rfl, rfl⟩

theorem varValue_float {env : Env} {a : Attrs} {target : NodeValue} {step : Nat}
    {mem : List MemMsg} (hmem : env.mem = some mem) (hdirect : a.indirect = 0)
    (hkind : a.typeKind = .float) :
    (∃ v s, varValue env a target step {} = some (v, s) ∧ s.error = none) ↔
      floatSize a.size := by
  have hsize : floatSize a.size ↔ a.size = 4 ∨ a.size = 8 ∨ a.size = 16 := by
    rw [floatSize, Bool.or_eq_true, Bool.or_eq_true, decide_eq_true_eq, decide_eq_true_eq,
      decide_eq_true_eq, or_assoc]
  rw [hsize]
  unfold varValue
  rw [hmem]
  dsimp only
  rw [if_neg (not_not.mpr hdirect), hkind]
  dsimp only
  by_cases hfour : a.size = 4
  · rw [if_pos hfour]
    exact iff_of_true ⟨_, _, rfl, rfl⟩ (.inl hfour)
  · rw [if_neg hfour]
    by_cases height : a.size = 8
    · rw [if_pos height]
      exact iff_of_true ⟨_, _, rfl, rfl⟩ (.inr (.inl height))
    · rw [if_neg height]
      by_cases hsixteen : a.size = 16
      · rw [if_pos hsixteen]
        exact iff_of_true ⟨_, _, rfl, rfl⟩ (.inr (.inr hsixteen))
      · rw [if_neg hsixteen]
        refine iff_of_false ?_ fun h => ?_
        · rintro ⟨v, s, hrun, hs⟩
          cases hrun
          cases hs
        · exact h.elim hfour fun h => h.elim height hsixteen

variable (hlocation : S.info.varLocation varId c.curStep = some (addr, type))
include hlocation

theorem varAddress_location : (evalEnv S rows c E ref).varAddress varId c.curStep =
    some (.ofNat 64 addr) := by
  have haddress : (evalEnv S rows c E ref).varAddress varId c.curStep =
      (S.info.varLocation varId c.curStep).map fun l => .ofNat 64 l.1 := rfl
  rw [haddress, hlocation]
  rfl

theorem evaluate_value {a : Attrs} :
    evaluateNode (evalEnv S rows c E ref) c.curStep (.var a name varId) .noFlags =
      varValue (evalEnv S rows c E ref) a (.ofNat 64 addr) c.curStep :=
  evaluateNode_location _ (varAddress_location hlocation) .noFlags

theorem evaluate_address {a : Attrs} :
    evaluateNode (evalEnv S rows c E ref) c.curStep (.var a name varId) .addr {} =
      some (.ofNat 64 addr, {}) :=
  congrFun (evaluateNode_location _ (varAddress_location hlocation) .addr) {}

theorem integer_shows (hinteger : (tkind b).isInteger) :
    Shows ref (getEvalResult (evalEnv S rows c E ref) id (.var (kept b 0) name varId) c.curStep {})
      (if integerSize (typeSize b) then
        some (.leaf (some (readInteger c.mem (tkind b = .signed) addr (typeSize b) c.curStep)))
      else none) := by
  have hnumeric : (AstNode.var (kept b 0) name varId).indirect = 0 ∧
      (AstNode.var (kept b 0) name varId).typeKind.isNumeric :=
    ⟨rfl, isNumeric_of_isInteger hinteger⟩
  have hvalue (n : Int) := @varValue_number (evalEnv S rows c E ref) (kept b 0) addr c.curStep n
    rfl hinteger
  by_cases hsize : integerSize (typeSize b)
  · rw [if_pos hsize]
    obtain ⟨v, s, hv, hs, hn⟩ := (hvalue _).mpr ⟨c.mem, rfl, hsize, rfl⟩
    obtain ⟨printed, hprinted, hnumber⟩ := (number_printBasic hinteger).mpr hn
    refine ⟨_, s, (getEvalResult_basic hnumeric).mpr ⟨v, ?_, hs, rfl⟩, .inl rfl, ?_⟩
    · rw [evaluate_value hlocation]
      exact hv
    · change (printBasic (kept b 0) v).bind number = _
      rw [hprinted]
      exact hnumber
  · rw [if_neg hsize]
    intro r s hrun
    obtain ⟨v, hv, hs, _⟩ := (getEvalResult_basic hnumeric).mp hrun
    rw [evaluate_value hlocation] at hv
    obtain ⟨_, _, hsize', _⟩ := (hvalue _).mp ⟨v, s, hv, hs, rfl⟩
    exact hsize hsize'

theorem float_shows (hfloat : tkind b = .float) :
    Shows ref (getEvalResult (evalEnv S rows c E ref) id (.var (kept b 0) name varId) c.curStep {})
      (if floatSize (typeSize b) then some (.leaf none) else none) := by
  have hkind : (AstNode.var (kept b 0) name varId).typeKind = .float := hfloat
  have hnumeric : (AstNode.var (kept b 0) name varId).indirect = 0 ∧
      (AstNode.var (kept b 0) name varId).typeKind.isNumeric :=
    ⟨rfl, by rw [hkind]; rfl⟩
  have hvalue := @varValue_float (evalEnv S rows c E ref) (kept b 0) (.ofNat 64 addr) c.curStep
    c.mem rfl rfl hkind
  by_cases hsize : floatSize (typeSize b)
  · rw [if_pos hsize]
    obtain ⟨v, s, hv, hs⟩ := hvalue.mpr hsize
    refine ⟨_, s, (getEvalResult_basic hnumeric).mpr ⟨v, ?_, hs, rfl⟩, .inl rfl, ?_⟩
    · rw [evaluate_value hlocation]
      exact hv
    · change (printBasic (kept b 0) v).bind number = none
      have hk : (kept b 0).typeKind = .float := hkind
      rw [printBasic, hk]
      rfl
  · rw [if_neg hsize]
    intro r s hrun
    obtain ⟨v, hv, hs, _⟩ := (getEvalResult_basic hnumeric).mp hrun
    rw [evaluate_value hlocation] at hv
    exact hsize (hvalue.mp ⟨v, s, hv, hs⟩)

end

section
variable {S : Symbols} {rows : List StoredType} {c : Contents} {E : Env}
  {ref : NodeValue → Int → Int → Nat} {b : StoredType} {k id varId addr type : Nat}
  {name : String}

theorem pointer_shows {target : NodeValue} {s : Expressions.Status} :
    Shows ref (evalPointer (evalEnv S rows c E ref) id (kept b k) target (underKind rows b) s)
      (match block c target.toNat with
        | .success size =>
            let bytes : NodeValue := .ofNat 64 size
            if bytes = 0 then some (evalItemsView rows b target 1)
            else if typeSize b = 0 then none
            else some (evalItemsView rows b target (bytes / .ofNat 64 (typeSize b)))
        | _ => some (.leaf none)) := by
  have hsize : (evalEnv S rows c E ref).pointerSize target = pointerSize c target := rfl
  rw [evalPointer, hsize, pointerSize]
  cases block c target.toNat with
  | success size =>
      dsimp only
      by_cases hzero : BitVec.ofNat 64 size = 0
      · rw [if_pos hzero, if_pos hzero]
        obtain ⟨r, hr, hanswers⟩ := @evalItems_shows S rows c E ref b k id target 1
          (.ofNat 64 size) (.pointer _ target "")
        exact ⟨r, s, congrArg (fun r => some (r, s)) hr, hanswers⟩
      · rw [if_neg hzero, if_neg hzero]
        by_cases hempty : typeSize b = 0
        · have hempty' : (kept b k).size = 0 := hempty
          rw [if_pos hempty, if_pos hempty']
          intro r s' hrun
          cases hrun
        · have hempty' : ¬ (kept b k).size = 0 := hempty
          rw [if_neg hempty, if_neg hempty']
          obtain ⟨r, hr, hanswers⟩ := @evalItems_shows S rows c E ref b k id target
            (.ofNat 64 size / .ofNat 64 (typeSize b)) (.ofNat 64 size) (.pointer _ target "")
          exact ⟨r, s, congrArg (fun r => some (r, s)) hr, hanswers⟩
  | memReleased => exact ⟨_, s, rfl, .inr rfl, rfl⟩
  | memNotfound => exact ⟨_, s, rfl, .inr rfl, rfl⟩
  | failure => exact ⟨_, s, rfl, .inl rfl, rfl⟩

theorem details_row (hb : typeAt rows b.offset = some b) (hoffset : b.offset ≠ 0) :
    (if (AstNode.var (kept b k) name varId).typeOffset = 0 then
      some ((evalEnv S rows c E ref).dim, (evalEnv S rows c E ref).underKind)
      else (evalEnv S rows c E ref).typeDetails (AstNode.var (kept b k) name varId).typeOffset) =
        some (.ofNat 64 b.dim, underKind rows b) := by
  have hnonzero : ¬ (AstNode.var (kept b k) name varId).typeOffset = 0 :=
    fun h => hoffset (Int.ofNat.inj h)
  rw [if_neg hnonzero]
  exact typeDetails_row hb

theorem eval_shows_direct (hb : typeAt rows b.offset = some b) (hoffset : b.offset ≠ 0)
    (hlocation : S.info.varLocation varId c.curStep = some (addr, type)) :
    Shows ref (getEvalResult (evalEnv S rows c E ref) id (.var (kept b 0) name varId) c.curStep {})
      (evalView rows c E.heap addr b 0) := by
  have hkind : (AstNode.var (kept b 0) name varId).typeKind = tkind b := rfl
  have hindirect : (AstNode.var (kept b 0) name varId).indirect = 0 := rfl
  have hitems : ¬ (tkind b).isNumeric → tkind b ≠ .struct →
      Shows ref
        (getEvalResult (evalEnv S rows c E ref) id (.var (kept b 0) name varId) c.curStep {})
        (some (evalItemsView rows b (.ofNat 64 addr) (.ofNat 64 b.dim))) := by
    intro hnumeric hstruct
    unfold getEvalResult
    rw [details_row hb hoffset, hindirect, hkind, if_neg fun h => hnumeric h.2]
    dsimp only
    rw [if_neg fun h => hstruct h.2, if_neg (not_not.mpr rfl),
      shown_eq (evaluate_address hlocation) rfl]
    obtain ⟨r, hr, hanswers⟩ := @evalItems_shows S rows c E ref b 0 id (.ofNat 64 addr)
      (.ofNat 64 b.dim) 0 (.typeName ((evalEnv S rows c E ref).typeName b.offset 0))
    exact ⟨r, {}, congrArg (fun r => some (r, ({} : Expressions.Status))) hr, hanswers⟩
  rw [evalView, if_pos rfl]
  cases hk : tkind b with
  | signed | unsigned =>
      have hinteger : (tkind b).isInteger := by
        rw [hk]
        rfl
      have hshows := @integer_shows S rows c E ref b id varId addr type name hlocation hinteger
      rw [hk] at hshows
      exact hshows
  | float => exact float_shows hlocation hk
  | struct =>
      unfold getEvalResult
      rw [details_row hb hoffset, hindirect, hkind, hk, if_neg fun h => by cases h.2]
      dsimp only
      rw [if_pos ⟨rfl, rfl⟩, shown_eq (evaluate_address hlocation) rfl]
      exact ⟨_, {}, rfl, ⟨_, rfl⟩, rfl, rfl⟩
  | _ => exact hitems (by rw [hk]; nofun) (by rw [hk]; nofun)

theorem eval_shows_pointer (hb : typeAt rows b.offset = some b) (hoffset : b.offset ≠ 0)
    (hlocation : S.info.varLocation varId c.curStep = some (addr, type)) (hpointer : k ≠ 0) :
    Shows ref (getEvalResult (evalEnv S rows c E ref) id (.var (kept b k) name varId) c.curStep {})
      (evalView rows c E.heap addr b k) := by
  have hindirect : (kept b k).indirect ≠ 0 := fun h => hpointer (Int.ofNat.inj h)
  have hindirect' : (AstNode.var (kept b k) name varId).indirect ≠ 0 := hindirect
  have htarget : evaluateNode (evalEnv S rows c E ref) c.curStep (.var (kept b k) name varId)
      .noFlags {} = some (evalTarget c E.heap addr (typeSize b), {}) := by
    have haddr : (BitVec.ofNat 64 addr).toNat = addr % addressSpace := BitVec.toNat_ofNat ..
    have hmem : (evalEnv S rows c E ref).mem = some c.mem := rfl
    rw [evaluate_value hlocation, varValue_pointer hindirect hmem, haddr]
    simp only [getVarValue_mod]
    rfl
  rw [evalView, if_neg hpointer]
  dsimp only
  generalize evalTarget c E.heap addr (typeSize b) = target at htarget ⊢
  rw [getEvalResult_pointer hindirect' (details_row hb hoffset) htarget rfl]
  by_cases hnull : target = 0
  · rw [if_pos hnull, if_pos hnull]
    exact ⟨_, {}, rfl, .inl rfl, rfl⟩
  · rw [if_neg hnull, if_neg hnull]
    exact pointer_shows

/-- **The result for a variable.** -/
theorem eval_shows (hb : typeAt rows b.offset = some b) (hoffset : b.offset ≠ 0)
    (hlocation : S.info.varLocation varId c.curStep = some (addr, type)) :
    Shows ref (getEvalResult (evalEnv S rows c E ref) id (.var (kept b k) name varId) c.curStep {})
      (evalView rows c E.heap addr b k) := by
  rcases Nat.eq_zero_or_pos k with rfl | hk
  · exact eval_shows_direct hb hoffset hlocation
  · exact eval_shows_pointer hb hoffset hlocation (Nat.ne_of_gt hk)

end

/-! ## What was shown -/

/-- One way to give out numbers. -/
def numbering (addr : NodeValue) (type _indirect : Int) : Nat :=
  Nat.pair addr.toNat (Equiv.intEquivNat type) + 1

theorem numbering_inj {a a' : NodeValue} {x x' i i' : Int}
    (h : numbering a x i = numbering a' x' i') : a = a' ∧ x = x' := by
  obtain ⟨ha, hx⟩ := Nat.pair_eq_pair.mp (Nat.succ.inj h)
  exact ⟨BitVec.toNat_inj.mp ha, Equiv.intEquivNat.injective hx⟩

theorem answers_unique {r : EvalResult} {p p' : Presentation} (h : p.Answers numbering r)
    (h' : p'.Answers numbering r) : p = p' := by
  have hnot {a : NodeValue} {x i : Int}
      (hleaf : r.variablesReference = none ∨ r.variablesReference = some 0)
      (hcontainer : r.variablesReference = some (numbering a x i)) : False := by
    rcases hleaf with hnone | hzero
    · cases hnone.symm.trans hcontainer
    · cases Option.some.inj (hzero.symm.trans hcontainer)
  cases p with
  | leaf n =>
      cases p' with
      | leaf n' => exact congrArg _ (h.2.symm.trans h'.2)
      | container a x named indexed =>
          obtain ⟨⟨i, hi⟩, _⟩ := h'
          exact (hnot h.1 hi).elim
  | container a x named indexed =>
      obtain ⟨⟨i, hi⟩, hnamed, hindexed⟩ := h
      cases p' with
      | leaf n' => exact (hnot h'.1 hi).elim
      | container a' x' named' indexed' =>
          obtain ⟨⟨i', hi'⟩, hnamed', hindexed'⟩ := h'
          obtain ⟨rfl, rfl⟩ := numbering_inj (Option.some.inj (hi.symm.trans hi'))
          rw [← hnamed, ← hnamed', ← hindexed, ← hindexed']

section
variable {S : Symbols} {T : Tables} {rows : List StoredType} {c : Contents} {E : Env}
  {b : StoredType} {k exprId varId addr type : Nat} {name : String} {p : Presentation}
  {frames : List Frame} {frame : Frame} {frameId : Int}

theorem evaluates_var_iff (hb : typeAt rows b.offset = some b) (hoffset : b.offset ≠ 0)
    (hlocation : S.info.varLocation varId c.curStep = some (addr, type)) :
    (∀ ref, (∀ addr type indirect, ref addr type indirect ≠ 0) → ∃ r s,
      (getEvalResult (evalEnv S rows c E ref) exprId (.var (kept b k) name varId)
        c.curStep).run {} = some (some r, s) ∧ p.Answers ref r) ↔
      evalView rows c E.heap addr b k = some p := by
  have hshows (ref : NodeValue → Int → Int → Nat) :=
    @eval_shows S rows c E ref b k exprId varId addr type name hb hoffset hlocation
  constructor
  · intro h
    obtain ⟨r, s, hrun, hanswers⟩ := h numbering fun _ _ _ => Nat.succ_ne_zero _
    have hnumbered := hshows numbering
    cases hview : evalView rows c E.heap addr b k with
    | none =>
        rw [hview] at hnumbered
        exact (hnumbered r s hrun).elim
    | some p' =>
        rw [hview] at hnumbered
        obtain ⟨r', s', hrun', hanswers'⟩ := hnumbered
        cases hrun.symm.trans hrun'
        exact congrArg some (answers_unique hanswers' hanswers)
  · intro hview ref _
    have hshown := hshows ref
    rw [hview] at hshown
    exact hshown

theorem evaluates_iff (hframe : findFrame frames (toUnsigned (jsonInt64 frameId)) = some frame) :
    Evaluates S T rows c E frames exprId frameId name p ↔
      (lexWord name = .constant .null ∧ p = .leaf (some 0)) ∨
        (lexWord name = .word name ∧ S.getTypeDetails name = none ∧
          ∃ id a, S.getVarDetails name frame.scope = some (id, a) ∧
            ∀ ref, (∀ addr type indirect, ref addr type indirect ≠ 0) → ∃ r s,
              (getEvalResult (evalEnv S rows c E ref) exprId (.var a name id) frame.step).run {} =
                some (some r, s) ∧ p.Answers ref r) := by
  have hfound : evaluateFrame frames (some frameId) = .ok (frame.scope, frame.step) := by
    simp only [evaluateFrame, hframe]
  have hnull (ref : NodeValue → Int → Int → Nat) :
      getEvalResult (evalEnv S rows c E ref) exprId Constant.null.node frame.step {} =
        some (some { result := printBasic Constant.null.node.attrs 0 }, {}) := rfl
  constructor
  · rintro ⟨scope, step, ast, hat, hparse, hall⟩
    cases hfound.symm.trans hat
    rcases exprParse_name.mp hparse with ⟨hname, rfl⟩ | ⟨hword, htype, id, a, hdetails, rfl⟩
    · obtain ⟨r, s, hrun, hanswers⟩ := hall numbering fun _ _ _ => Nat.succ_ne_zero _
      cases (hnull numbering).symm.trans hrun
      have hzero : (Presentation.leaf (some 0)).Answers numbering
          { result := printBasic Constant.null.node.attrs 0 } := ⟨.inl rfl, rfl⟩
      exact .inl ⟨hname, answers_unique hanswers hzero⟩
    · exact .inr ⟨hword, htype, id, a, hdetails, hall⟩
  · rintro (⟨hname, rfl⟩ | ⟨hword, htype, id, a, hdetails, hall⟩)
    · refine ⟨_, _, _, hfound, exprParse_name.mpr (.inl ⟨hname, rfl⟩), fun ref _ => ?_⟩
      exact ⟨_, _, hnull ref, .inl rfl, rfl⟩
    · exact ⟨_, _, _, hfound, exprParse_name.mpr (.inr ⟨hword, htype, id, a, hdetails, rfl⟩), hall⟩

end

end FlightRec.Presentations
