/-
# `FlightRec.Record.Types` — the table of types

`proc_symbols` (record/dbginfo.c) inserts a row of `type` for each DIE of a type, in the
order in which the compiler has written them: a type may come before or after the one
it refers to.  When all units are read, `alter_db` (record/db.c) computes what the rows
have from other rows, with one `UPDATE` for each column.

    a DIE and its row                  (`TypeDie.row`)
    pointers and what is behind them   (`setPointers`, `setDerived`)
    kinds                              (`propagateFlags`)
    sizes                              (`propagateSizes`, `arraySizes`)
    members                            (`countMembers`)

Each statement is described by what a row becomes from its parent's row
(`propagateSizes_row` and the like).
-/
import Mathlib.Algebra.Group.Nat.Defs
import FlightRec.Lib.Chain
import FlightRec.Lib.Update

namespace FlightRec

open Chain Update

/-! ## DIEs -/

/-- `DW_AT_encoding` of a base type. -/
inductive Encoding where
  | signed
  | signedChar
  | unsigned
  | unsignedChar
  | float
  | other (code : Nat)
  deriving DecidableEq, Repr

/-- The tags of `proc_custom_type`. -/
inductive CustomTag where
  | typedef
  | pointer
  | subroutine
  | const
  | restrict
  | volatile
  deriving DecidableEq, Repr

/-- The tags of `proc_aggr_type`. -/
inductive AggrTag where
  | structureType
  | unionType
  | enumerationType
  deriving DecidableEq, Repr

/-- A member or an enumerator, with `DW_AT_const_value`. -/
structure DieMember where
  name : Option String
  value : Int
  deriving DecidableEq, Repr

/-- What a DIE of a type has, by its kind.  An attribute of `custom` that is not there is
a size of 0 and no type; `bounds` are the upper bounds of the subranges of an array. -/
inductive DieBody where
  | base (size : Nat) (encoding : Encoding)
  | custom (tag : CustomTag) (size : Nat) (type : Option Nat)
  | array (type : Nat) (bounds : List (Option Nat))
  | aggr (tag : AggrTag) (size : Nat) (members : List DieMember)
  deriving DecidableEq, Repr

/-- A DIE of a type. -/
structure TypeDie where
  offset : Nat
  name : Option String
  body : DieBody
  deriving DecidableEq, Repr

/-! ## Rows -/

/-- A row of table `type`; `size` is `NULL` where a subquery has found nothing. -/
structure StoredType where
  offset : Nat
  name : Option String
  size : Option Nat
  dim : Nat
  parent : Nat
  flags : Nat
  indirect : Nat
  deriving DecidableEq, Repr

/-- `TKIND_POINTER` -/
def tkindPointer : Nat := 4

/-- `TKIND_STRUCT` -/
def tkindStruct : Nat := 5

/-- `TKIND_UNION` -/
def tkindUnion : Nat := 6

/-- `TKIND_ARRAY` -/
def tkindArray : Nat := 7

/-- `TKIND_FUNC` -/
def tkindFunc : Nat := 8

/-- `TKIND_ENUM` -/
def tkindEnum : Nat := 10

/-- `TKIND_ALIAS` -/
def tkindAlias : Nat := 11

/-- `flags & TKIND_TYPE` -/
def StoredType.kind (r : StoredType) : Nat := r.flags % 0x10000

def Encoding.flags : Encoding → Nat
  | .signed | .signedChar => 1
  | .unsigned | .unsignedChar => 2
  | .float => 3
  | .other _ => 0

/-- `TKIND_CONST`, `TKIND_VOLATILE` and `TKIND_RESTRICT` are no kinds of their own. -/
def CustomTag.flags : CustomTag → Nat
  | .typedef => tkindAlias
  | .pointer => tkindPointer
  | .subroutine => tkindFunc
  | .const => 0x10000
  | .volatile => 0x20000
  | .restrict => 0x40000

def AggrTag.flags : AggrTag → Nat
  | .structureType => tkindStruct
  | .unionType => tkindUnion
  | .enumerationType => tkindEnum

/-- `proc_base_type` -/
def procBaseType (offset : Nat) (name : Option String) (size : Nat) (encoding : Encoding) :
    StoredType :=
  { offset, name, size := some size, dim := 0, parent := 0, flags := encoding.flags, indirect := 0 }

/-- `proc_custom_type`: of types without a type only `void *` and functions are kept. -/
def procCustomType (offset : Nat) (name : Option String) (tag : CustomTag) (size : Nat)
    (type : Option Nat) : Option StoredType :=
  let row (name : String) : StoredType :=
    { offset, name := some name, size := some size, dim := 0, parent := type.getD 0,
      flags := tag.flags, indirect := 0 }
  match type, tag with
  | some _, _ => some (row (name.getD ""))
  | none, .pointer => some (row "void")
  | none, .subroutine => some (row "")
  | none, _ => none

/-- The number of items that an upper bound stands for. -/
def itemCount : Option Nat → Nat
  | some bound => (bound + 1) % 2 ^ 64
  | none => 0

/-- `proc_array_type`: the loop ends at the first subrange. -/
def procArrayType (offset type : Nat) (bounds : List (Option Nat)) : StoredType :=
  { offset, name := none, size := some 0, dim := itemCount bounds.head?.join, parent := type,
    flags := tkindArray, indirect := 0 }

/-- `proc_aggr_type` -/
def procAggrType (offset : Nat) (name : Option String) (tag : AggrTag) (size : Nat) : StoredType :=
  { offset, name := some (name.getD ""), size := some size, dim := 0, parent := 0,
    flags := tag.flags, indirect := 0 }

/-- The row of a DIE, if it gets one. -/
def TypeDie.row (d : TypeDie) : Option StoredType :=
  match d.body with
  | .base size encoding => some (procBaseType d.offset d.name size encoding)
  | .custom tag size type => procCustomType d.offset d.name tag size type
  | .array type bounds => some (procArrayType d.offset type bounds)
  | .aggr tag size _ => some (procAggrType d.offset d.name tag size)

/-- What the row of a DIE is. -/
inductive RowOf (d : TypeDie) : StoredType → Prop
  | base {size : Nat} {encoding : Encoding} : d.body = .base size encoding →
      RowOf d (procBaseType d.offset d.name size encoding)
  | custom {tag : CustomTag} {size : Nat} {type : Option Nat} {r : StoredType} :
      d.body = .custom tag size type → procCustomType d.offset d.name tag size type = some r →
      RowOf d r
  | array {type : Nat} {bounds : List (Option Nat)} : d.body = .array type bounds →
      RowOf d (procArrayType d.offset type bounds)
  | aggr {tag : AggrTag} {size : Nat} {members : List DieMember} :
      d.body = .aggr tag size members → RowOf d (procAggrType d.offset d.name tag size)

/-- The members that are inserted for a DIE, with its offset. -/
def TypeDie.members (d : TypeDie) : List (Nat × DieMember) :=
  match d.body with
  | .aggr _ _ members => members.map fun m => (d.offset, m)
  | _ => []

/-! ## `alter_db` -/

/-- The row with an offset. -/
abbrev typeAt : List StoredType → Nat → Option StoredType := lookup StoredType.offset

/-- Column `parent` of the row with an offset. -/
def parentAt (rows : List StoredType) (offset : Nat) : Option Nat :=
  (typeAt rows offset).map (·.parent)

/-- `type_relation`, for one descendant: the types behind a type, and itself. -/
def typeAncestors (rows : List StoredType) (offset : Nat) : List Nat :=
  chain (parentAt rows) (rows.length + 1) offset

/-- A pointer is behind the type. -/
def behindPointer (rows : List StoredType) (r : StoredType) : Bool :=
  rows.any fun a => a.kind = tkindPointer && a.offset ≠ r.offset &&
    (typeAncestors rows r.offset).contains a.offset

/-- `UPDATE type SET indirect = 1` for pointers. -/
def setPointers (rows : List StoredType) : List StoredType :=
  rows.map fun r => if r.kind = tkindPointer then { r with indirect := 1 } else r

/-- `UPDATE type SET indirect = indirect+1` for what is derived from pointers. -/
def setDerived (rows : List StoredType) : List StoredType :=
  rows.map fun r =>
    if behindPointer rows r ∧ r.flags ≠ tkindAlias then { r with indirect := r.indirect + 1 } else r

/-- What has no kind gets the flags of its parent; the column cannot be `NULL`. -/
def inheritFlags (table : List StoredType) (r : StoredType) : Option StoredType :=
  if r.kind = 0 then (typeAt table r.parent).map fun p => { r with flags := r.flags ||| p.flags }
  else some r

/-- `UPDATE type SET flags` -/
def propagateFlags : List StoredType → Option (List StoredType) := update inheritFlags

/-- What has no size gets that of its parent. -/
def inheritSize (table : List StoredType) (r : StoredType) : StoredType :=
  if r.size = some 0 then { r with size := (typeAt table r.parent).bind (·.size) } else r

/-- `UPDATE type SET size` for what has no size. -/
def propagateSizes : List StoredType → Option (List StoredType) :=
  update fun table r => some (inheritSize table r)

/-- A size that is greater than 0. -/
def positive (size : Option Nat) : Option Nat := size.filter (0 < ·)

/-- An array that has no size gets that of its items. -/
def itemsSize (table : List StoredType) (r : StoredType) : StoredType :=
  if r.size = some 0 ∧ r.kind = tkindArray then
    { r with size := (positive ((typeAt table r.parent).bind (·.size))).map (r.dim * ·) }
  else r

/-- `UPDATE type SET size` for arrays. -/
def arraySizes : List StoredType → Option (List StoredType) :=
  update fun table r => some (itemsSize table r)

/-- `UPDATE type SET dim` for structs and unions. -/
def countMembers (members : List (Nat × DieMember)) (rows : List StoredType) : List StoredType :=
  rows.map fun r =>
    if r.kind = tkindStruct ∨ r.kind = tkindUnion then
      { r with dim := (members.filter (·.1 = r.offset)).length }
    else r

/-- What `alter_db` does to the table of types. -/
def alterTypes (members : List (Nat × DieMember)) (rows : List StoredType) :
    Option (List StoredType) := do
  let rows ← propagateFlags (setDerived (setPointers rows))
  let rows ← propagateSizes rows
  let rows ← arraySizes rows
  return countMembers members rows

/-! ## What becomes of a row -/

/-- Column `size` of the row with an offset. -/
def sizeAt (rows : List StoredType) (offset : Nat) : Option Nat :=
  (typeAt rows offset).bind (·.size)

/-- The row as it is in `rows`, if it comes after the one that reads it, and else as it
is in `rows'`. -/
def parentRow (rows rows' : List StoredType) (r : StoredType) : Option StoredType :=
  if Before (rows.map (·.offset)) r.parent r.offset then typeAt rows' r.parent
  else typeAt rows r.parent

section
variable {members : List (Nat × DieMember)} {rows rows' : List StoredType} {r : StoredType}
  {o : Nat}

theorem update_typeAt {f : List StoredType → StoredType → Option StoredType}
    (hkey : ∀ table r r', f table r = some r' → r'.offset = r.offset)
    (hnodup : (rows.map (·.offset)).Nodup) (h : update f rows = some rows')
    (hr : typeAt rows o = some r) :
    ∃ table r', f table r = some r' ∧ typeAt rows' o = some r' ∧
      typeAt table r.parent = parentRow rows rows' r := by
  obtain ⟨hmem, rfl⟩ := mem_of_lookup hr
  obtain ⟨table, r', hf, hr', htable⟩ := update_row hkey hnodup h hmem
  exact ⟨table, r', hf, hr', htable r.parent⟩

theorem map_typeAt {f : StoredType → StoredType} (hkey : ∀ r, (f r).offset = r.offset) :
    typeAt (rows.map f) o = (typeAt rows o).map f := by
  unfold typeAt lookup
  rw [List.find?_map]
  congr 2
  funext r
  exact congrArg (fun k => decide (k = o)) (hkey r)

theorem map_offsets {f : StoredType → StoredType} (hkey : ∀ r, (f r).offset = r.offset) :
    (rows.map f).map (·.offset) = rows.map (·.offset) := by
  rw [List.map_map]
  exact List.map_congr_left fun r _ => hkey r

theorem inheritFlags_offset {table : List StoredType} {r' : StoredType}
    (h : inheritFlags table r = some r') : r'.offset = r.offset := by
  unfold inheritFlags at h
  split at h
  · obtain ⟨p, _, rfl⟩ := Option.map_eq_some_iff.mp h
    rfl
  · cases h
    rfl

theorem inheritSize_offset (table : List StoredType) (r : StoredType) :
    (inheritSize table r).offset = r.offset := by
  unfold inheritSize
  split <;> rfl

theorem itemsSize_offset (table : List StoredType) (r : StoredType) :
    (itemsSize table r).offset = r.offset := by
  unfold itemsSize
  split <;> rfl

/-- **Kinds**: a row without a kind gets the flags of its parent as they are then. -/
theorem propagateFlags_row (hnodup : (rows.map (·.offset)).Nodup)
    (h : propagateFlags rows = some rows') (hr : typeAt rows o = some r) :
    ∃ flags, typeAt rows' o = some { r with flags } ∧
      if r.kind = 0 then ∃ p, parentRow rows rows' r = some p ∧ flags = r.flags ||| p.flags
      else flags = r.flags := by
  obtain ⟨table, r', hf, hr', htable⟩ :=
    update_typeAt (fun _ _ _ => inheritFlags_offset) hnodup h hr
  unfold inheritFlags at hf
  split at hf
  case isTrue hkind =>
    obtain ⟨p, hp, rfl⟩ := Option.map_eq_some_iff.mp hf
    refine ⟨_, hr', ?_⟩
    rw [if_pos hkind]
    exact ⟨p, htable.symm.trans hp, rfl⟩
  case isFalse hkind =>
    cases hf
    refine ⟨r.flags, hr', ?_⟩
    rw [if_neg hkind]

/-- **Sizes**: a row without a size gets that of its parent as it is then. -/
theorem propagateSizes_row (hnodup : (rows.map (·.offset)).Nodup)
    (h : propagateSizes rows = some rows') (hr : typeAt rows o = some r) :
    typeAt rows' o = some { r with
      size := if r.size = some 0 then (parentRow rows rows' r).bind (·.size) else r.size } := by
  have hkey (table : List StoredType) (r r' : StoredType)
      (h : some (inheritSize table r) = some r') : r'.offset = r.offset := by
    cases h
    exact inheritSize_offset table r
  obtain ⟨table, r', hf, hr', htable⟩ := update_typeAt hkey hnodup h hr
  rw [hr', ← hf, inheritSize, htable]
  split <;> rfl

/-- **Sizes of arrays**: an array without a size gets the size of its items, if they have
one then, times its dimension. -/
theorem arraySizes_row (hnodup : (rows.map (·.offset)).Nodup)
    (h : arraySizes rows = some rows') (hr : typeAt rows o = some r) :
    typeAt rows' o = some { r with
      size := if r.size = some 0 ∧ r.kind = tkindArray then
        (positive ((parentRow rows rows' r).bind (·.size))).map (r.dim * ·) else r.size } := by
  have hkey (table : List StoredType) (r r' : StoredType)
      (h : some (itemsSize table r) = some r') : r'.offset = r.offset := by
    cases h
    exact itemsSize_offset table r
  obtain ⟨table, r', hf, hr', htable⟩ := update_typeAt hkey hnodup h hr
  rw [hr', ← hf, itemsSize, htable]
  split <;> rfl

theorem propagateFlags_offsets (h : propagateFlags rows = some rows') :
    rows'.map (·.offset) = rows.map (·.offset) :=
  update_keys (fun _ _ _ => inheritFlags_offset) h

theorem propagateSizes_offsets (h : propagateSizes rows = some rows') :
    rows'.map (·.offset) = rows.map (·.offset) := by
  refine update_keys ?_ h
  intro table r r' h
  cases h
  exact inheritSize_offset table r

theorem arraySizes_offsets (h : arraySizes rows = some rows') :
    rows'.map (·.offset) = rows.map (·.offset) := by
  refine update_keys ?_ h
  intro table r r' h
  cases h
  exact itemsSize_offset table r

theorem countMembers_offsets :
    (countMembers members rows).map (·.offset) = rows.map (·.offset) := by
  refine map_offsets fun r => ?_
  split <;> rfl

theorem derived_offsets : (setDerived (setPointers rows)).map (·.offset) = rows.map (·.offset) := by
  have hpointers : (setPointers rows).map (·.offset) = rows.map (·.offset) := by
    refine map_offsets fun r => ?_
    split <;> rfl
  rw [← hpointers]
  refine map_offsets fun r => ?_
  split <;> rfl

theorem typeAt_none (h : rows'.map (·.offset) = rows.map (·.offset))
    (hnone : typeAt rows o = none) : typeAt rows' o = none := by
  rw [typeAt, lookup_eq_none] at hnone ⊢
  rwa [h]

theorem parentRow_size : (parentRow rows rows' r).bind (·.size) =
    if Before (rows.map (·.offset)) r.parent r.offset then sizeAt rows' r.parent
    else sizeAt rows r.parent := by
  unfold parentRow
  split <;> rfl

theorem setPointers_typeAt : typeAt (setPointers rows) o =
    (typeAt rows o).map fun r =>
      { r with indirect := if r.kind = tkindPointer then 1 else r.indirect } := by
  rw [setPointers, map_typeAt fun r => by split <;> rfl]
  congr 1
  funext r
  split <;> rfl

theorem setDerived_typeAt : typeAt (setDerived rows) o =
    (typeAt rows o).map fun r => { r with
      indirect := r.indirect + if behindPointer rows r ∧ r.flags ≠ tkindAlias then 1 else 0 } := by
  rw [setDerived, map_typeAt fun r => by split <;> rfl]
  congr 1
  funext r
  split <;> rfl

theorem derived_row (hr : typeAt rows o = some r) :
    ∃ indirect, typeAt (setDerived (setPointers rows)) o = some { r with indirect } := by
  rw [setDerived_typeAt, setPointers_typeAt, hr]
  exact ⟨_, rfl⟩

theorem countMembers_typeAt : typeAt (countMembers members rows) o =
    (typeAt rows o).map fun r => { r with
      dim := if r.kind = tkindStruct ∨ r.kind = tkindUnion then
        (members.filter (·.1 = r.offset)).length else r.dim } := by
  rw [countMembers, map_typeAt fun r => by split <;> rfl]
  congr 1
  funext r
  split <;> rfl

theorem countMembers_size : sizeAt (countMembers members rows) o = sizeAt rows o := by
  rw [sizeAt, sizeAt, countMembers_typeAt]
  cases typeAt rows o <;> rfl

theorem alterTypes_stages (h : alterTypes members rows = some rows') :
    ∃ kinds sizes arrays, propagateFlags (setDerived (setPointers rows)) = some kinds ∧
      propagateSizes kinds = some sizes ∧ arraySizes sizes = some arrays ∧
      rows' = countMembers members arrays := by
  obtain ⟨kinds, hkinds, h⟩ := Option.bind_eq_some_iff.mp h
  obtain ⟨sizes, hsizes, h⟩ := Option.bind_eq_some_iff.mp h
  obtain ⟨arrays, harrays, h⟩ := Option.bind_eq_some_iff.mp h
  exact ⟨kinds, sizes, arrays, hkinds, hsizes, harrays, (Option.some.inj h).symm⟩

theorem forall_derived {holds : Nat → Nat → Prop} :
    (∀ r ∈ setDerived (setPointers rows), holds r.kind r.parent) ↔
      ∀ r ∈ rows, holds r.kind r.parent := by
  have hpointers (r : StoredType) :
      holds (if r.kind = tkindPointer then { r with indirect := 1 } else r).kind
        (if r.kind = tkindPointer then { r with indirect := 1 } else r).parent ↔
      holds r.kind r.parent := by
    split <;> rfl
  have hderived (r : StoredType) : holds (if behindPointer (setPointers rows) r ∧
        r.flags ≠ tkindAlias then { r with indirect := r.indirect + 1 } else r).kind
      (if behindPointer (setPointers rows) r ∧
        r.flags ≠ tkindAlias then { r with indirect := r.indirect + 1 } else r).parent ↔
      holds r.kind r.parent := by
    split <;> rfl
  rw [setDerived, List.forall_mem_map]
  refine (forall₂_congr fun r _ => hderived r).trans ?_
  rw [setPointers, List.forall_mem_map]
  exact forall₂_congr fun r _ => hpointers r

/-- **`alter_db` goes through** exactly if every row without a kind has a parent with a row
in the table: column `flags` cannot be `NULL`, and the other columns can. -/
theorem alterTypes_isSome : (alterTypes members rows).isSome ↔
    ∀ r ∈ rows, r.kind = 0 → r.parent ∈ rows.map (·.offset) := by
  have hflags {table : List StoredType} : (propagateFlags table).isSome ↔
      ∀ r ∈ table, r.kind = 0 → r.parent ∈ table.map (·.offset) := by
    refine @update_isSome _ _ StoredType.offset _ _ (fun _ _ _ => inheritFlags_offset)
      (fun keys r => r.kind = 0 → r.parent ∈ keys) fun table r => ?_
    unfold inheritFlags
    split
    next hkind =>
      rw [Option.isSome_map, lookup_isSome]
      exact ⟨fun h _ => h, fun h => h hkind⟩
    next hkind => exact ⟨fun _ h => absurd h hkind, fun _ => rfl⟩
  have hsizes (table : List StoredType) : (propagateSizes table).isSome :=
    (@update_isSome _ _ StoredType.offset _ _ (fun table r r' h => by
        cases h
        exact inheritSize_offset table r)
      (fun _ _ => True) fun _ _ => iff_of_true rfl trivial).mpr fun _ _ => trivial
  have harrays (table : List StoredType) : (arraySizes table).isSome :=
    (@update_isSome _ _ StoredType.offset _ _ (fun table r r' h => by
        cases h
        exact itemsSize_offset table r)
      (fun _ _ => True) fun _ _ => iff_of_true rfl trivial).mpr fun _ _ => trivial
  have hderived : (propagateFlags (setDerived (setPointers rows))).isSome ↔
      ∀ r ∈ rows, r.kind = 0 → r.parent ∈ rows.map (·.offset) := by
    rw [hflags, derived_offsets]
    exact @forall_derived _ fun kind parent => kind = 0 → parent ∈ rows.map (·.offset)
  rw [← hderived]
  unfold alterTypes
  cases propagateFlags (setDerived (setPointers rows)) with
  | none => exact ⟨fun h => h, fun h => h⟩
  | some kinds =>
      obtain ⟨sizes, hs⟩ := Option.isSome_iff_exists.mp (hsizes kinds)
      obtain ⟨arrays, ha⟩ := Option.isSome_iff_exists.mp (harrays sizes)
      rw [Option.bind_eq_bind, Option.bind_some, hs]
      dsimp only [bind, Option.bind]
      rw [ha]
      exact iff_of_true rfl rfl

theorem alterTypes_offsets (h : alterTypes members rows = some rows') :
    rows'.map (·.offset) = rows.map (·.offset) := by
  obtain ⟨kinds, sizes, arrays, hkinds, hsizes, harrays, rfl⟩ := alterTypes_stages h
  calc (countMembers members arrays).map (·.offset)
      = arrays.map (·.offset) := countMembers_offsets
    _ = sizes.map (·.offset) := arraySizes_offsets harrays
    _ = kinds.map (·.offset) := propagateSizes_offsets hsizes
    _ = (setDerived (setPointers rows)).map (·.offset) := propagateFlags_offsets hkinds
    _ = rows.map (·.offset) := derived_offsets

theorem later_row {kinds sizes arrays : List StoredType} (hnodup : (kinds.map (·.offset)).Nodup)
    (hsizes : propagateSizes kinds = some sizes) (harrays : arraySizes sizes = some arrays)
    (hr : typeAt kinds o = some r) :
    ∃ size dim, typeAt (countMembers members arrays) o = some { r with size, dim } := by
  have hsize := propagateSizes_row hnodup hsizes hr
  have hkeys := propagateSizes_offsets hsizes
  have harray := arraySizes_row (hkeys.symm ▸ hnodup) harrays hsize
  rw [countMembers_typeAt, harray]
  exact ⟨_, _, rfl⟩

theorem alterTypes_row (hnodup : (rows.map (·.offset)).Nodup)
    (h : alterTypes members rows = some rows')
    (hr : typeAt (setDerived (setPointers rows)) o = some r) :
    ∃ r', typeAt rows' o = some r' ∧ r'.offset = r.offset ∧ r'.name = r.name ∧
      r'.parent = r.parent ∧ r'.indirect = r.indirect := by
  obtain ⟨kinds, sizes, arrays, hkinds, hsizes, harrays, rfl⟩ := alterTypes_stages h
  have hderived : ((setDerived (setPointers rows)).map (·.offset)).Nodup :=
    derived_offsets.symm ▸ hnodup
  obtain ⟨flags, hflags, _⟩ := propagateFlags_row hderived hkinds hr
  have hkeys := propagateFlags_offsets hkinds
  obtain ⟨size, dim, hrow⟩ := later_row (hkeys.symm ▸ hderived) hsizes harrays hflags
  exact ⟨_, hrow, rfl, rfl, rfl, rfl⟩

end

/-! ## The types of a program -/

/-- A typedef or a qualified type. -/
def CustomTag.names : CustomTag → Bool
  | .typedef | .const | .restrict | .volatile => true
  | .pointer | .subroutine => false

/-- The DIEs of types in the order in which they are read.  No type is at the beginning
of the section, and pointers alone have a size with their reference. -/
structure TypeGraph where
  dies : List TypeDie
  offsets : (dies.map (·.offset)).Nodup
  nonzero : ∀ d ∈ dies, d.offset ≠ 0
  sizes : ∀ d ∈ dies, ∀ tag size type, d.body = .custom tag size type →
    (size ≠ 0 ↔ tag = .pointer)

namespace TypeGraph

variable (g : TypeGraph)

/-- The table as it is when all DIEs have been read. -/
def rows : List StoredType := g.dies.filterMap TypeDie.row

/-- The table of members. -/
def members : List (Nat × DieMember) := g.dies.flatMap TypeDie.members

/-- The offsets in the order of the rows. -/
def order : List Nat := g.rows.map (·.offset)

variable {g}

theorem custom_columns {offset size : Nat} {name : Option String} {tag : CustomTag}
    {type : Option Nat} {r : StoredType} (h : procCustomType offset name tag size type = some r) :
    r.offset = offset ∧ r.size = some size ∧ r.dim = 0 ∧ r.parent = type.getD 0 ∧
      r.flags = tag.flags ∧ r.indirect = 0 := by
  unfold procCustomType at h
  split at h <;> cases h <;> exact ⟨rfl, rfl, rfl, rfl, rfl, rfl⟩

theorem row_cases {d : TypeDie} {r : StoredType} (h : d.row = some r) : RowOf d r := by
  unfold TypeDie.row at h
  split at h
  case h_1 hbody =>
    cases h
    exact .base hbody
  case h_2 hbody => exact .custom hbody h
  case h_3 hbody =>
    cases h
    exact .array hbody
  case h_4 hbody =>
    cases h
    exact .aggr hbody

theorem row_offset {d : TypeDie} {r : StoredType} (h : d.row = some r) : r.offset = d.offset := by
  cases row_cases h with
  | custom _ hcustom => exact (custom_columns hcustom).1
  | base | array | aggr => rfl

theorem mem_rows {r : StoredType} : r ∈ g.rows ↔ ∃ d ∈ g.dies, d.row = some r :=
  List.mem_filterMap

theorem rows_nodup : (g.rows.map (·.offset)).Nodup := by
  have hsub : List.Sublist (g.rows.map (·.offset)) (g.dies.map (·.offset)) := by
    unfold rows
    induction g.dies with
    | nil => exact List.Sublist.slnil
    | cons d dies ih =>
        cases hrow : d.row with
        | none =>
            rw [List.filterMap_cons_none hrow, List.map_cons]
            exact ih.cons _
        | some r =>
            rw [List.filterMap_cons_some hrow, List.map_cons, List.map_cons, row_offset hrow]
            exact ih.cons_cons _
  exact g.offsets.sublist hsub

theorem typeAt_die {d : TypeDie} (hd : d ∈ g.dies) : typeAt g.rows d.offset = d.row := by
  cases hrow : d.row with
  | some r =>
      rw [← row_offset hrow]
      exact lookup_of_mem rows_nodup (mem_rows.mpr ⟨d, hd, hrow⟩)
  | none =>
      refine lookup_eq_none.mpr fun hmem => ?_
      obtain ⟨r, hr, hoffset⟩ := List.mem_map.mp hmem
      obtain ⟨d', hd', hrow'⟩ := mem_rows.mp hr
      rw [row_offset hrow'] at hoffset
      rw [List.inj_on_of_nodup_map g.offsets hd' hd hoffset, hrow] at hrow'
      cases hrow'

theorem typeAt_zero : typeAt g.rows 0 = none := by
  refine lookup_eq_none.mpr fun hmem => ?_
  obtain ⟨r, hr, hoffset⟩ := List.mem_map.mp hmem
  obtain ⟨d, hd, hrow⟩ := mem_rows.mp hr
  exact g.nonzero d hd ((row_offset hrow).symm.trans hoffset)

theorem row_size {d : TypeDie} {r : StoredType} (h : d.row = some r) : ∃ n, r.size = some n := by
  cases row_cases h with
  | custom _ hcustom => exact ⟨_, (custom_columns hcustom).2.1⟩
  | base | array | aggr => exact ⟨_, rfl⟩

end TypeGraph

end FlightRec
