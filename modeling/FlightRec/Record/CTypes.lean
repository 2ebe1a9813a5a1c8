/-
# `FlightRec.Record.CTypes` — what the rows of the table mean

The C type that a DIE describes, and `sizeof` of it.  Typedefs and qualified types are
the type they name; an array has one DIE for all its dimensions, and its items are arrays
themselves if there is more than one.
-/
import FlightRec.Record.TypeSizes

namespace FlightRec

/-! ## Types -/

/-- Types of C.  A struct, a union or an enum is known by its offset; `number` is the type of
what an operator computes, whatever its size. -/
inductive CType where
  | arithmetic (size : Nat)
  | aggregate (offset size : Nat)
  | number
  | incomplete
  | pointer (target : CType)
  | array (count : Nat) (item : CType)
  deriving DecidableEq, Repr

/-- `sizeof`, for types that have a size. -/
def CType.size : CType → Option Nat
  | .arithmetic size => some size
  | .aggregate _ size => some size
  | .number => none
  | .incomplete => none
  | .pointer _ => some 8
  | .array count item => item.size.map (count * ·)

/-- What a subscript of the type is: a dereference in C. -/
def CType.element : CType → Option CType
  | .pointer target => some target
  | .array _ item => some item
  | _ => none

def CType.isArray : CType → Bool
  | .array .. => true
  | _ => false

/-- So many pointers to a type. -/
def CType.pointers (target : CType) : Nat → CType
  | 0 => target
  | k + 1 => .pointer (target.pointers k)

/-- An array of so many dimensions. -/
def CType.dimensions (item : CType) (bounds : List (Option Nat)) : CType :=
  bounds.foldr (fun bound t => .array (itemCount bound) t) item

/-- The type that the DIE at an offset is about. -/
inductive HasCType (g : TypeGraph) : Nat → CType → Prop
  | base {d : TypeDie} {size : Nat} {encoding : Encoding} : d ∈ g.dies →
      d.body = .base size encoding → HasCType g d.offset (.arithmetic size)
  | aggr {d : TypeDie} {tag : AggrTag} {size : Nat} {members : List DieMember} : d ∈ g.dies →
      d.body = .aggr tag size members → HasCType g d.offset (.aggregate d.offset size)
  | void {d : TypeDie} {size : Nat} : d ∈ g.dies → d.body = .custom .pointer size none →
      HasCType g d.offset (.pointer .incomplete)
  | pointer {d : TypeDie} {size p : Nat} {t : CType} : d ∈ g.dies →
      d.body = .custom .pointer size (some p) → HasCType g p t → HasCType g d.offset (.pointer t)
  | function {d : TypeDie} {size : Nat} {type : Option Nat} : d ∈ g.dies →
      d.body = .custom .subroutine size type → HasCType g d.offset .incomplete
  | qualifiedVoid {d : TypeDie} {tag : CustomTag} {size : Nat} : d ∈ g.dies → tag.names →
      d.body = .custom tag size none → HasCType g d.offset .incomplete
  | named {d : TypeDie} {p : Nat} {t : CType} : d ∈ g.dies → d.body.named = some p →
      HasCType g p t → HasCType g d.offset t
  | array {d : TypeDie} {elem : Nat} {bounds : List (Option Nat)} {t : CType} : d ∈ g.dies →
      d.body = .array elem bounds → HasCType g elem t → HasCType g d.offset (t.dimensions bounds)

/-! ## Sizes -/

/-- Pointers have eight bytes. -/
def WidePointers (g : TypeGraph) : Prop :=
  ∀ d ∈ g.dies, ∀ size type, d.body = .custom .pointer size type → size = 8

section
variable {g : TypeGraph} {t : CType} {o n : Nat} {bounds : List (Option Nat)}

theorem size_dimensions :
    (t.dimensions bounds).size = t.size.map ((bounds.map itemCount).prod * ·) := by
  unfold CType.dimensions
  induction bounds with
  | nil =>
      simp only [List.foldr_nil, List.map_nil, List.prod_nil, Nat.one_mul]
      exact Option.map_id'.symm
  | cons bound bounds ih =>
      rw [List.foldr_cons, CType.size, ih, Option.map_map, List.map_cons, List.prod_cons]
      congr 1
      funext size
      exact (Nat.mul_assoc _ _ _).symm

theorem hasSize_of_cType (hpointers : WidePointers g) (h : HasCType g o t) :
    ∀ {n : Nat}, t.size = some n → HasSize g o n := by
  induction h with
  | base hd hbody =>
      rintro _ ⟨⟩
      exact .own hd (by rw [hbody]; rfl)
  | aggr hd hbody =>
      rintro _ ⟨⟩
      exact .own hd (by rw [hbody]; rfl)
  | void hd hbody =>
      rintro _ ⟨⟩
      cases hpointers _ hd _ _ hbody
      exact .own hd (by rw [hbody]; rfl)
  | pointer hd hbody _ _ =>
      rintro _ ⟨⟩
      cases hpointers _ hd _ _ hbody
      exact .own hd (by rw [hbody]; rfl)
  | function => rintro _ ⟨⟩
  | qualifiedVoid => rintro _ ⟨⟩
  | named hd hnamed _ ih =>
      intro n hsize
      exact .named hd hnamed (ih hsize)
  | array hd hbody _ ih =>
      intro n hsize
      rw [size_dimensions] at hsize
      obtain ⟨m, hm, rfl⟩ := Option.map_eq_some_iff.mp hsize
      exact .array hd hbody (ih hm)

/-- Every type has its size in the table. -/
def AllSized (g : TypeGraph) (rows : List StoredType) : Prop :=
  ∀ o n, HasSize g o n → (sizeAt rows o).getD 0 = n

/-- **Sizes**: where those of typedefs, qualified types and arrays are right, all are. -/
theorem SizesRight.allSized {rows : List StoredType}
    (haltered : alterTypes g.members g.rows = some rows) (hsizes : SizesRight g rows) :
    AllSized g rows := by
  intro o n hsize
  obtain ⟨s, columns⟩ := sizeColumns haltered
  exact hsizes.final columns hsize

theorem sizeAt_cType {rows : List StoredType} (hpointers : WidePointers g)
    (hsizes : AllSized g rows) (h : HasCType g o t) (hn : t.size = some n) :
    (sizeAt rows o).getD 0 = n :=
  hsizes o n (hasSize_of_cType hpointers h hn)

end

end FlightRec
