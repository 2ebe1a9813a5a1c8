/-
# `FlightRec.Examine.ZeroSizes` — elements without a size

How many elements a pointer has is how often their size fits into the block of the heap that
it points to.  The size comes from the table of types, and for a type that is only declared,
for a function or an array without elements it is 0.  Of the places that divide, none asks for
that first; a client that keeps a pointer to an opaque struct ends the debugger as soon as the
pointer is shown.

Only the difference of two pointers is safe, since the evaluator never comes to divide it.

    the entry of a variable     (`addVarEntry_none`)
    the items of a reference    (`addVarItems_none`)
    the result of an expression (`getEvalResult_pointer_none`)
    a subscript                 (`item_none`)
-/
import FlightRec.Examine.Entries
import FlightRec.Examine.Paging
import FlightRec.Expressions.Traps

namespace FlightRec.ZeroSizes

open Entries Expressions

/-! ## Entries of variables -/

/-- What the elements of a pointer are. -/
def element (rows : List StoredType) (t : StoredType) (indirect : Nat) : Option StoredType :=
  if indirect ≠ 0 then some t else typeAt rows t.parent

/-- A pointer is stored at the address, it points to a live block that is not empty, and its
elements have no size. -/
def SizelessPointer (rows : List StoredType) (c : Contents) (t : StoredType)
    (addr indirect : Nat) : Prop :=
  let target := c.loadAt addr (typeSize t) 8
  target ≠ 0 ∧ ∃ size item,
    Heap.getPointerSize (some c.mem) (c.heapRow target) target c.curStep = .success size ∧
      size ≠ 0 ∧ element rows t indirect = some item ∧ typeSize item = 0

section
variable {rows : List StoredType} {members : List (Nat × DieMember)} {c : Contents}
  {t : StoredType} {addr type indirect dim pointerSize : Nat} {shown : List EntryValue}

theorem itemsEntry_none : itemsEntry rows c t addr indirect dim pointerSize shown = none ↔
    pointerSize ≠ 0 ∧ ∃ item, element rows t indirect = some item ∧ typeSize item = 0 := by
  have hsome (e : Option VarEntry) : some e ≠ none := Option.some_ne_none e
  unfold itemsEntry element
  cases (if indirect ≠ 0 then some t else typeAt rows t.parent) with
  | none => exact iff_of_false (hsome _) (by simp)
  | some item =>
      dsimp only
      split
      next hzero => exact iff_of_true rfl ⟨hzero.1, item, rfl, hzero.2⟩
      next hsize =>
        refine iff_of_false ?_ ?_
        · have hite {p : Prop} [Decidable p] {e e' : Option (Option VarEntry)} (he : e ≠ none)
              (he' : e' ≠ none) : (if p then e else e') ≠ none := by
            split
            · exact he
            · exact he'
          exact hite (hsome _) (hite (hsome _) (hite (hsome _) (hsome _)))
        · rintro ⟨hpointer, item', heq, hzero⟩
          cases heq
          exact hsize ⟨hpointer, hzero⟩

theorem pointerEntry_none :
    pointerEntry rows c t addr indirect = none ↔ SizelessPointer rows c t addr indirect := by
  unfold pointerEntry SizelessPointer
  dsimp only
  split
  next hnull => exact iff_of_false (Option.some_ne_none _) fun h => h.1 hnull
  next htarget =>
    rw [and_iff_right htarget]
    cases Heap.getPointerSize (some c.mem) (c.heapRow (c.loadAt addr (typeSize t) 8))
        (c.loadAt addr (typeSize t) 8) c.curStep with
    | success size =>
        dsimp only
        rw [itemsEntry_none]
        simp
    | memReleased => exact iff_of_false (Option.some_ne_none _) (by simp)
    | memNotfound => exact iff_of_false (Option.some_ne_none _) (by simp)
    | failure => exact iff_of_false (Option.some_ne_none _) (by simp)

theorem typeEntry_none : typeEntry rows members c t addr indirect = none ↔
    (indirect ≠ 0 ∨ tkind t = .pointer) ∧ SizelessPointer rows c t addr indirect := by
  unfold typeEntry
  split
  next hindirect => rw [and_iff_right (.inl hindirect), pointerEntry_none]
  next hdirect =>
    rw [or_iff_right hdirect]
    cases hkind : tkind t with
    | pointer => rw [and_iff_right rfl, pointerEntry_none]
    | array =>
        refine iff_of_false ?_ fun h => (by cases h.1)
        rw [itemsEntry_none]
        exact fun h => h.1 rfl
    | _ => exact iff_of_false (Option.some_ne_none _) fun h => (by cases h.1)

theorem addVarEntry_none : Entries.addVarEntry rows members c addr type indirect = none ↔
    ∃ t, (typeAt rows type).bind (drillDown rows (rows.length + 1)) = some t ∧
      (indirect ≠ 0 ∨ tkind t = .pointer) ∧ SizelessPointer rows c t addr indirect := by
  unfold Entries.addVarEntry
  cases (typeAt rows type).bind (drillDown rows (rows.length + 1)) with
  | none => exact iff_of_false (Option.some_ne_none _) (by simp)
  | some t =>
      dsimp only
      rw [typeEntry_none]
      simp

end

/-! ## Items of a reference -/

theorem addVarItems_none {ε : Type*} {addVarEntry : Paging.Item → Option ε}
    {types : List StoredType} {pointerSize : Nat → Heap.PointerSize}
    {refs : Nat → Option RefTarget} {refId : Nat} {start count : UInt32} :
    Paging.addVarItems addVarEntry types pointerSize refs refId start count = none ↔
      ∃ row size, (refs refId).bind (Paging.itemsRow types) = some row ∧
        (row.dim = 0 ∨ row.indirect ≠ 0) ∧ pointerSize row.address = .success size ∧ size ≠ 0 ∧
          row.itemSize = 0 := by
  unfold Paging.addVarItems
  cases (refs refId).bind (Paging.itemsRow types) with
  | none => exact iff_of_false (Option.some_ne_none _) (by simp)
  | some row =>
      have hdivides : row.dimension pointerSize = .trap ↔ (row.dim = 0 ∨ row.indirect ≠ 0) ∧
          ∃ size, pointerSize row.address = .success size ∧ size ≠ 0 ∧ row.itemSize = 0 := by
        unfold Paging.ItemsRow.dimension
        split
        next hpointer =>
          rw [and_iff_right hpointer]
          cases hsize : pointerSize row.address with
          | success size =>
              cases size with
              | zero => simp
              | succ n =>
                  change (if row.itemSize = 0 then Paging.Dimension.trap
                    else .items ((n + 1) / row.itemSize)) = .trap ↔ _
                  by_cases hzero : row.itemSize = 0
                  · simp [hzero]
                  · simp [hzero]
          | _ => simp
        next harray => exact iff_of_false nofun fun h => harray h.1
      dsimp only
      cases hdim : row.dimension pointerSize with
      | trap => exact iff_of_true rfl (by simpa using hdivides.mp hdim)
      | _ =>
          refine iff_of_false (Option.some_ne_none _) ?_
          rintro ⟨row', size, heq, hpointer, hlive⟩
          cases heq
          cases hdim.symm.trans (hdivides.mpr ⟨hpointer, size, hlive⟩)

/-! ## Expressions -/

section
variable {T : Tables} {scope : Nat} {env : Env} {id step : Nat} {a : Attrs}
  {n object member left right : AstNode} {flags : Flags} {addr index : NodeValue}
  {s s₁ s₂ : Status} {underKind : Nat}

theorem evalPointer_none : evalPointer env id a addr underKind s = none ↔
    ∃ bytes, env.pointerSize addr = .size bytes ∧ bytes ≠ 0 ∧ a.size = 0 := by
  unfold evalPointer
  cases hsize : env.pointerSize addr with
  | size bytes =>
      dsimp only
      split
      next hzero => exact iff_of_false (Option.some_ne_none _) (by simp [hzero])
      next hbytes =>
        split
        next hsize => exact iff_of_true rfl ⟨bytes, rfl, hbytes, hsize⟩
        next hsize => exact iff_of_false (Option.some_ne_none _) (by simp [hsize])
  | _ => exact iff_of_false (Option.some_ne_none _) (by simp)

theorem getEvalResult_pointer_none (hpointer : n.indirect ≠ 0)
    (hrun : evaluateNode env step n .noFlags s = some (addr, s₁)) (hs₁ : s₁.error = none) :
    getEvalResult env id n step s = none ↔
      (n.typeOffset = 0 ∨ (env.typeDetails n.typeOffset).isSome) ∧ addr ≠ 0 ∧
        ∃ bytes, env.pointerSize addr = .size bytes ∧ bytes ≠ 0 ∧ n.size = 0 := by
  have hdetails : (if n.typeOffset = 0 then some (env.dim, env.underKind)
      else env.typeDetails n.typeOffset).isSome ↔
      (n.typeOffset = 0 ∨ (env.typeDetails n.typeOffset).isSome) := by
    split
    next h => exact iff_of_true rfl (.inl h)
    next h => exact (or_iff_right h).symm
  rw [← hdetails]
  cases htype : (if n.typeOffset = 0 then some (env.dim, env.underKind)
    else env.typeDetails n.typeOffset) with
  | none =>
      rw [getEvalResult, if_neg fun h => hpointer h.1, htype]
      exact iff_of_false (Option.some_ne_none _) (by simp)
  | some details =>
      rw [getEvalResult_pointer hpointer htype hrun hs₁, and_iff_right Option.isSome_some]
      split
      next hnull => exact iff_of_false (Option.some_ne_none _) fun h => h.1 hnull
      next htarget => rw [and_iff_right htarget, evalPointer_none]; rfl

theorem item_none
    (hobject : evaluateNode env step object (objectFlags object) s = some (addr, s₁))
    (hs₁ : s₁.error = none)
    (hmember : evaluateNode env step member .noFlags s₁ = some (index, s₂)) :
    evaluateNode env step (.item a object member) flags s = none ↔
      Sizeless env object.attrs addr := by
  have hflags : (if object.indirect ≠ 0 then Flags.noFlags else .addr) = objectFlags object := rfl
  rw [evaluateNode, hflags, bind_eq hobject, check_eq hs₁, bind_eq hmember, ← itemBounds_none]
  cases hrun : itemBounds env object.attrs addr index s₂ with
  | none =>
      refine iff_of_true ?_ rfl
      change (itemBounds env object.attrs addr index s₂).bind _ = none
      rw [hrun]
      rfl
  | some r =>
      rw [bind_eq hrun]
      exact iff_of_false (harmless_lvalue.ne_none r.2) (Option.some_ne_none r)

theorem difference_some (hleft : left.indirect ≠ 0) (h : subtractionAction left right = .ok n) :
    evaluateNode env step n flags s ≠ none := by
  have hrejected : Rejected env step n := subtraction_rejected hleft h
  rw [hrejected]
  exact Option.some_ne_none _

end

/-! ## All places that divide -/

/-- The variable is a pointer, behind its typedefs, and its elements have no size. -/
def SizelessVariable (rows : List StoredType) (c : Contents) (addr type indirect : Nat) : Prop :=
  ∃ t, (typeAt rows type).bind (drillDown rows (rows.length + 1)) = some t ∧
    (indirect ≠ 0 ∨ tkind t = .pointer) ∧ SizelessPointer rows c t addr indirect

/-- The reference is to a pointer, and its elements have no size. -/
def SizelessReference (types : List StoredType) (pointerSize : Nat → Heap.PointerSize)
    (refs : Nat → Option RefTarget) (refId : Nat) : Prop :=
  ∃ row size, (refs refId).bind (Paging.itemsRow types) = some row ∧
    (row.dim = 0 ∨ row.indirect ≠ 0) ∧ pointerSize row.address = .success size ∧ size ≠ 0 ∧
      row.itemSize = 0

/-- The expression comes to a pointer into the heap, and what that points to has no size. -/
def SizelessResult (env : Env) (n : AstNode) (addr : NodeValue) : Prop :=
  (n.typeOffset = 0 ∨ (env.typeDetails n.typeOffset).isSome) ∧ addr ≠ 0 ∧
    ∃ bytes, env.pointerSize addr = .size bytes ∧ bytes ≠ 0 ∧ n.size = 0

/-- **Elements without a size.**  An entry, the items of a reference, the result of a pointer
expression and a subscript divide by 0 exactly if there is a block that is not empty behind
the pointer and its elements have no size.  The difference of pointers never does. -/
theorem division_by_size_iff (env : Env) (step : Nat) (s : Status) :
    (∀ rows members c addr type indirect,
      Entries.addVarEntry rows members c addr type indirect ≠ none ↔
        ¬ SizelessVariable rows c addr type indirect) ∧
    (∀ (ε : Type) (addVarEntry : Paging.Item → Option ε) types pointerSize refs refId start count,
      Paging.addVarItems addVarEntry types pointerSize refs refId start count ≠ none ↔
        ¬ SizelessReference types pointerSize refs refId) ∧
    (∀ n addr s₁, n.indirect ≠ 0 →
      evaluateNode env step n .noFlags s = some (addr, s₁) → s₁.error = none →
      ∀ id, getEvalResult env id n step s ≠ none ↔ ¬ SizelessResult env n addr) ∧
    (∀ object member addr s₁ index s₂,
      evaluateNode env step object (objectFlags object) s = some (addr, s₁) → s₁.error = none →
      evaluateNode env step member .noFlags s₁ = some (index, s₂) →
      ∀ a flags, evaluateNode env step (.item a object member) flags s ≠ none ↔
        ¬ Sizeless env object.attrs addr) ∧
    ∀ left right n, left.indirect ≠ 0 → subtractionAction left right = .ok n →
      ∀ flags, evaluateNode env step n flags s ≠ none := by
  refine ⟨?_, ?_, ?_, ?_, ?_⟩
  · intro rows members c addr type indirect
    exact not_congr addVarEntry_none
  · intro ε addVarEntry types pointerSize refs refId start count
    exact not_congr addVarItems_none
  · intro n addr s₁ hpointer hrun hs₁ id
    exact not_congr (getEvalResult_pointer_none hpointer hrun hs₁)
  · intro object member addr s₁ index s₂ hobject hs₁ hmember a flags
    exact not_congr (item_none hobject hs₁ hmember)
  · intro left right n hleft h flags
    exact difference_some hleft h

/-! ### Examples -/

/-- `struct opaque *`, where the struct is declared and not defined. -/
def opaqueTypes : List StoredType :=
  [⟨1, "", some 8, 0, 2, tkindPointer, 1⟩, ⟨2, "opaque", none, 0, 0, tkindStruct, 0⟩]

/-- At address 0 there is a pointer to address 1, where a block of one byte is. -/
def blockContents : Contents := storing (fun i => if i = 0 then 1 else 0) [⟨1, 1, 0, 0⟩]

/-- The `int *p` of `lvalueTables`, `p[1]` and `p - p`. -/
theorem division_by_size_iff_int :
    (∃ n, (Expr.identifier "p").ast lvalueTables 0 = .ok n ∧
      evaluateNode lvalueRecording 1 n .noFlags {} = some (88, {}) ∧
      getEvalResult lvalueRecording 1 n 1 {} ≠ none) ∧
    (∃ n, (Expr.item (.identifier "p") (.constant (.integer 1))).ast lvalueTables 0 = .ok n ∧
      evaluateNode lvalueRecording 1 n .noFlags {} ≠ none) ∧
    ∃ n, (Expr.binaryOp .sub (.identifier "p") (.identifier "p")).ast lvalueTables 0 = .ok n ∧
      evaluateNode lvalueRecording 1 n .noFlags {} ≠ none := by
  obtain ⟨_, _, hresult, hitem, hdifference⟩ := division_by_size_iff lvalueRecording 1 {}
  refine ⟨⟨_, rfl, by rfl, ?_⟩, ⟨_, rfl, ?_⟩, ⟨_, rfl, ?_⟩⟩
  · refine (hresult _ 88 {} (by decide) (by rfl) rfl 1).mpr ?_
    rintro ⟨_, _, bytes, hsize, _⟩
    cases hsize
  · refine (hitem _ _ 88 {} 1 {} (by rfl) rfl (by rfl) _ _).mpr ?_
    rintro ⟨dim, bytes, _, _, hsize, _⟩
    cases hsize
  · have hpointer : (AstNode.var ⟨5, .signed, 4, 1⟩ "p" 1).indirect ≠ 0 := by decide
    have hsub : subtractionAction (.var ⟨5, .signed, 4, 1⟩ "p" 1) (.var ⟨5, .signed, 4, 1⟩ "p" 1) =
        .ok (.binaryOp { typeKind := .signed, size := 8 } .sub (.var ⟨5, .signed, 4, 1⟩ "p" 1)
          (.var ⟨5, .signed, 4, 1⟩ "p" 1)) := rfl
    exact hdifference _ _ _ hpointer hsub .noFlags

/-- A pointer to an opaque struct, which points to a live block, ends the debugger. -/
theorem opaque_pointer_traps :
    Entries.addVarEntry opaqueTypes [] blockContents 0 1 0 = none ∧
      ¬ ∀ rows members c addr type indirect,
        Entries.addVarEntry rows members c addr type indirect ≠ none := by
  have htrap : Entries.addVarEntry opaqueTypes [] blockContents 0 1 0 = none := by
    have hpointer : Entries.addVarEntry opaqueTypes [] blockContents 0 1 0 =
        pointerEntry opaqueTypes blockContents ⟨1, "", some 8, 0, 2, tkindPointer, 1⟩ 0 0 := rfl
    have hload : load (fun i => if i = 0 then (1 : UInt8) else 0) 8 = 1 := by decide
    rw [hpointer, blockContents, pointerEntry_storing hload rfl]
    rfl
  exact ⟨htrap, fun h => h _ _ _ _ _ _ htrap⟩

end FlightRec.ZeroSizes
