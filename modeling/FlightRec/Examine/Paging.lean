/-
# `FlightRec.Examine.Paging` — items of an array, by pages

A client asks for the items of an array or a pointer in pages, each with a start and a count.
`add_var_items` finds out the number of items, from the type or, for a pointer, from the heap
block, and adds an entry for each item from the start on; but it goes on as long as the index
is below the count, not below the start plus the count.

So a page is right if it is the first; a later one is too short, unless it has nothing to show
or its count reaches the number of items (`indexedVariables_right_iff`).  The references that
`Examine.Refs` gives out are for the items of the same loop (`refs_addVarItems`).
-/
import FlightRec.Examine.Refs
import FlightRec.Lib.Chunks
import FlightRec.Lib.UpToFailure
import FlightRec.Record.Heap
import FlightRec.Record.Types

namespace FlightRec.Paging

open Chunks Heap UpToFailure

/-! ## `add_var_items` -/

/-- What the query for a reference gives. -/
structure ItemsRow where
  address : Nat
  baseType : Nat
  itemSize : Nat
  dim : Nat
  indirect : Nat
  deriving DecidableEq, Repr

/-- The query: the type of the reference, with the type behind it if there is one. -/
def itemsRow (types : List StoredType) (target : RefTarget) : Option ItemsRow :=
  (typeAt types target.type).map fun type =>
    let base := typeAt types type.parent
    { address := target.address
      baseType := (base.map StoredType.offset).getD type.offset
      itemSize := ((base.bind StoredType.size).or type.size).getD 0
      dim := type.dim
      indirect := target.indirect }

/-- The number of items; with items of size 0 the division ends the debugger. -/
inductive Dimension where
  | failure
  | trap
  | items (dim : Nat)
  deriving DecidableEq, Repr

/-- The dimension of the type, or for a pointer what fits in what it points to. -/
def ItemsRow.dimension (pointerSize : Nat → PointerSize) (row : ItemsRow) : Dimension :=
  if row.dim = 0 ∨ row.indirect ≠ 0 then
    match pointerSize row.address with
    | .success 0 => .items 1
    | .success size => if row.itemSize = 0 then .trap else .items (size / row.itemSize)
    | _ => .failure
  else .items row.dim

/-- What `add_var_entry` is called with for an item. -/
structure Item where
  name : String
  address : Nat
  type : Nat
  indirect : Nat
  deriving DecidableEq, Repr

/-- The item with an index, at its place behind the address. -/
def ItemsRow.item (row : ItemsRow) (i : Nat) : Item where
  name := itemName i
  address := (row.address + i * row.itemSize) % 2 ^ 64
  type := row.baseType
  indirect := row.indirect - 1

section
variable {ε : Type*} (addVarEntry : Item → Option ε)

/-- The loop; `i` and `count` are of type `unsigned int`. -/
def itemLoop (row : ItemsRow) (count : UInt32) (dim : Nat) (i : UInt32) : List ε :=
  if i < count ∧ i.toNat < dim then
    match addVarEntry (row.item i.toNat) with
    | none => []
    | some entry => entry :: itemLoop row count dim (i + 1)
  else []
termination_by count.toNat - i.toNat
decreasing_by
  have hlt : i.toNat < count.toNat := UInt32.lt_iff_toNat_lt.mp ‹i < count ∧ _›.1
  have hcount := count.toNat_lt
  rw [UInt32.toNat_add, UInt32.toNat_one, Nat.mod_eq_of_lt (by omega)]
  omega

/-- `add_var_items`, by the entries that it adds: `process_variables` does not look at the
result.  `none` is for the end of the debugger. -/
def addVarItems (types : List StoredType) (pointerSize : Nat → PointerSize)
    (refs : Nat → Option RefTarget) (refId : Nat) (start count : UInt32) : Option (List ε) :=
  match (refs refId).bind (itemsRow types) with
  | none => some []
  | some row =>
      match row.dimension pointerSize with
      | .failure => some []
      | .trap => none
      | .items dim => some (itemLoop addVarEntry row count dim start)

end

/-! ## What the loop adds -/

section
variable {ε : Type*} {addVarEntry : Item → Option ε} {row : ItemsRow} {count : UInt32} {dim : Nat}

theorem itemLoop_eq (start : UInt32) : itemLoop addVarEntry row count dim start =
    upToFailure (addVarEntry <| row.item ·)
      (List.range' start.toNat (min count.toNat dim - start.toNat)) := by
  fun_induction itemLoop addVarEntry row count dim start with
  | case1 i hlt hfails =>
      have hcount := UInt32.lt_iff_toNat_lt.mp hlt.1
      obtain ⟨n, hn⟩ : ∃ n, min count.toNat dim - i.toNat = n + 1 :=
        Nat.exists_eq_add_one.mpr (by omega)
      rw [hn, List.range'_succ, upToFailure_cons_none (f := (addVarEntry <| row.item ·)) hfails]
  | case2 i hlt entry hentry ih =>
      have hcount := UInt32.lt_iff_toNat_lt.mp hlt.1
      have hnext : (i + 1).toNat = i.toNat + 1 := by
        have hbound := count.toNat_lt
        rw [UInt32.toNat_add, UInt32.toNat_one, Nat.mod_eq_of_lt (by omega)]
      have hn : min count.toNat dim - i.toNat = min count.toNat dim - (i + 1).toNat + 1 := by
        omega
      rw [ih, hn, List.range'_succ,
        upToFailure_cons_some (f := (addVarEntry <| row.item ·)) hentry, hnext]
  | case3 i hend =>
      have hempty : min count.toNat dim - i.toNat = 0 := by
        rw [UInt32.lt_iff_toNat_lt] at hend
        omega
      rw [hempty]
      rfl

end

/-- What is known of the items of a reference. -/
def arrayInfo (types : List StoredType) (pointerSize : Nat → PointerSize) (target : RefTarget) :
    Option (Nat × Nat × Nat) :=
  (itemsRow types target).bind fun row =>
    match row.dimension pointerSize with
    | .items dim => some (row.baseType, row.itemSize, dim)
    | _ => none

theorem itemsRow_target {types : List StoredType} {target : RefTarget} {row : ItemsRow}
    (h : itemsRow types target = some row) :
    target.address = row.address ∧ target.indirect = row.indirect := by
  obtain ⟨type, _, heq⟩ := Option.map_eq_some_iff.mp h
  subst heq
  exact ⟨rfl, rfl⟩

theorem refs_addVarItems {types : List StoredType} {pointerSize : Nat → PointerSize}
    {info : DebugInfo} {curStep refId dim : Nat} {refs : RefTable} {row : ItemsRow}
    (hinfo : info.arrayInfo curStep = arrayInfo types pointerSize)
    (hfound : (refs.get refId).bind (itemsRow types) = some row)
    (hitems : row.dimension pointerSize = .items dim) (start count : UInt32) :
    FlightRec.addVarItems info curStep refId start count refs =
      addEntries (slice (fun i =>
        FlightRec.addVarEntry info curStep
          { entity := .item refId i, parentType := 1, parent := refId, child := (row.item i).name }
          ⟨(row.item i).address, (row.item i).type, (row.item i).indirect⟩)
        start.toNat (min count.toNat dim)) refs := by
  obtain ⟨target, htarget, hrow⟩ := Option.bind_eq_some_iff.mp hfound
  obtain ⟨haddress, hindirect⟩ := itemsRow_target hrow
  have harray : info.arrayInfo curStep target = some (row.baseType, row.itemSize, dim) := by
    rw [hinfo, arrayInfo, hrow, Option.bind_some, hitems]
  rw [FlightRec.addVarItems, htarget]
  dsimp only
  rw [harray]
  simp only [haddress, hindirect, slice, ItemsRow.item]

/-! ## Pages -/

/-- Specification: a page has an entry for each item from the start on, as many as the count
says, or as there are. -/
def PageRight {ε : Type*} (addVarEntry : Item → Option ε) (row : ItemsRow) (dim start count : Nat)
    (page : Option (List ε)) : Prop :=
  ∃ entries, page = some entries ∧
    entries.map some = slice (addVarEntry <| row.item ·) start (min (start + count) dim)

/-- Pages of a size, one behind the other. -/
def pages {ε : Type*} (page : UInt32 → UInt32 → Option (List ε)) (size : UInt32) :
    Nat → Option (List ε)
  | 0 => some []
  | n + 1 => do return (← pages page size n) ++ (← page (.ofNat (n * size.toNat)) size)

/-- A reference with a number of items. -/
structure HasItems (types : List StoredType) (pointerSize : Nat → PointerSize)
    (refs : Nat → Option RefTarget) (refId : Nat) (row : ItemsRow) (dim : Nat) : Prop where
  found : (refs refId).bind (itemsRow types) = some row
  items : row.dimension pointerSize = .items dim

section
variable {ε : Type*} {addVarEntry : Item → Option ε} {types : List StoredType}
  {pointerSize : Nat → PointerSize} {refs : Nat → Option RefTarget} {refId : Nat}
  {row : ItemsRow} {dim : Nat} (h : HasItems types pointerSize refs refId row dim)
include h

theorem addVarItems_eq (start count : UInt32) :
    addVarItems addVarEntry types pointerSize refs refId start count =
      some (upToFailure (addVarEntry <| row.item ·)
        (List.range' start.toNat (min count.toNat dim - start.toNat))) := by
  rw [addVarItems, h.found]
  dsimp only
  rw [h.items]
  dsimp only
  rw [itemLoop_eq]

theorem page_right_iff (start count : UInt32) :
    PageRight addVarEntry row dim start.toNat count.toNat
        (addVarItems addVarEntry types pointerSize refs refId start count) ↔
      (start.toNat = 0 ∨ count.toNat = 0 ∨ dim ≤ start.toNat ∨ dim ≤ count.toNat) ∧
        ∀ i, start.toNat ≤ i → i < min (start.toNat + count.toNat) dim →
          (addVarEntry (row.item i)).isSome := by
  have hprefix : List.range' start.toNat (min count.toNat dim - start.toNat) <+:
      List.range' start.toNat (min (start.toNat + count.toNat) dim - start.toNat) := by
    rw [← List.take_range'_of_length_ge (Nat.sub_le_sub_right
      (min_le_min_right dim (Nat.le_add_left _ _)) _)]
    exact List.take_prefix _ _
  have hindices : List.range' start.toNat (min count.toNat dim - start.toNat) =
      List.range' start.toNat (min (start.toNat + count.toNat) dim - start.toNat) ↔
      start.toNat = 0 ∨ count.toNat = 0 ∨ dim ≤ start.toNat ∨ dim ≤ count.toNat := by
    constructor
    · intro heq
      have hlength := congrArg List.length heq
      rw [List.length_range', List.length_range'] at hlength
      omega
    · intro hcount
      congr 1
      omega
  rw [addVarItems_eq h, PageRight]
  simp only [Option.some.injEq, exists_eq_left']
  rw [slice, map_some_upToFailure_eq_iff hprefix, hindices]
  refine and_congr_right fun _ => forall_congr' fun i => ?_
  rw [List.mem_range'_1, and_imp]
  exact imp_congr_right fun hstart => imp_congr_left (by omega)

/-- Of the pages of a size only the first has items. -/
theorem pages_eq (size : UInt32) : ∀ n, (∀ j < n + 1, j * size.toNat < 2 ^ 32) →
    pages (addVarItems addVarEntry types pointerSize refs refId) size (n + 1) =
      addVarItems addVarEntry types pointerSize refs refId 0 size
  | 0, _ => by
      rw [pages, pages, addVarItems_eq h, addVarItems_eq h]
      simp
  | n + 1, hbound => by
      have hstart := hbound (n + 1) (Nat.lt_succ_self _)
      have hempty : addVarItems addVarEntry types pointerSize refs refId
          (.ofNat ((n + 1) * size.toNat)) size = some [] := by
        have hbeyond : min size.toNat dim - (n + 1) * size.toNat = 0 := by
          rw [Nat.succ_mul]
          omega
        rw [addVarItems_eq h, UInt32.toNat_ofNat_of_lt' hstart, hbeyond]
        rfl
      rw [pages, pages_eq size n fun j hj => hbound j (Nat.lt_succ_of_lt hj), hempty,
        addVarItems_eq h]
      simp

theorem pages_whole_iff {size count : UInt32} {n : Nat} (hbound : ∀ j < n, j * size.toNat < 2 ^ 32)
    (hpages : dim ≤ n * size.toNat) (hcount : dim ≤ count.toNat) :
    pages (addVarItems addVarEntry types pointerSize refs refId) size n =
        addVarItems addVarEntry types pointerSize refs refId 0 count ↔
      dim ≤ size.toNat ∨ ∃ i ≤ size.toNat, addVarEntry (row.item i) = none := by
  cases n with
  | zero =>
      have hdim : dim = 0 := by omega
      subst hdim
      rw [addVarItems_eq h]
      exact iff_of_true (by simp [pages, upToFailure_nil]) (.inl (Nat.zero_le _))
  | succ n =>
      rw [pages_eq h size n hbound, addVarItems_eq h, addVarItems_eq h, Option.some_inj,
        min_eq_right hcount]
      by_cases hfirst : dim ≤ size.toNat
      · rw [min_eq_right hfirst]
        exact iff_of_true rfl (.inl hfirst)
      · have hsplit : List.range' 0 dim = List.range' 0 size.toNat ++
            size.toNat :: List.range' (size.toNat + 1) (dim - (size.toNat + 1)) := by
          obtain ⟨rest, hrest⟩ := Nat.exists_eq_add_of_lt (not_le.mp hfirst)
          have hdim : dim - (size.toNat + 1) = rest := by omega
          rw [hdim, ← List.range'_succ]
          have happend := List.range'_append_1 (s := 0) (m := size.toNat) (n := rest + 1)
          rw [Nat.zero_add] at happend
          rw [happend, hrest, Nat.add_assoc]
        rw [min_eq_left (not_le.mp hfirst).le, UInt32.toNat_zero, Nat.sub_zero, Nat.sub_zero,
          hsplit, eq_comm, upToFailure_append_cons_iff, or_iff_right hfirst]
        constructor
        · rintro (⟨i, hi, hfails⟩ | hfails)
          · exact ⟨i, by have := (List.mem_range'_1.mp hi).2; omega, hfails⟩
          · exact ⟨_, le_rfl, hfails⟩
        · rintro ⟨i, hi, hfails⟩
          rcases Nat.lt_or_eq_of_le hi with hlt | rfl
          · exact .inl ⟨i, List.mem_range'_1.mpr (by omega), hfails⟩
          · exact .inr hfails

end

/-- `int[4]` -/
def intArray : List StoredType :=
  [⟨1, "int[4]", some 16, 4, 2, 7, 0⟩, ⟨2, "int", some 4, 0, 0, 1, 0⟩]

theorem intArray_hasItems (pointerSize : Nat → PointerSize) :
    HasItems intArray pointerSize (fun _ => some ⟨4096, 1, 0⟩) 1 ⟨4096, 2, 4, 4, 0⟩ 4 where
  found := rfl
  items := rfl

end FlightRec.Paging
