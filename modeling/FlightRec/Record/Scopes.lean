/-
# `FlightRec.Record.Scopes` — the scopes around a scope

`proc_symbols` (record/dbginfo.c) inserts a row of `scope` for every function and block,
with the scope it is in, and after that its variables and the blocks in it.  So the
scopes are a tree under the global scope 0, which has no row.  From the rows `alter_db`
(record/db.c) makes the table `scope_ancestor` (`mem_scopeAncestors_iff`).
-/
import Mathlib.Data.List.ProdSigma
import FlightRec.Lib.Recursive
import FlightRec.Schema

namespace FlightRec

open Recursive

/-- The table `scope`: a scope is inserted before those in it. -/
structure ScopeTree where
  scopes : List ScopeRow
  ids : (scopes.map (·.id)).Nodup
  parents : ∀ s ∈ scopes, s.parent < s.id ∧ (s.parent = 0 ∨ ∃ p ∈ scopes, p.id = s.parent)

namespace ScopeTree

variable (t : ScopeTree)

/-- The step of the query: from a pair of an ancestor and a scope to the next. -/
def nextAncestor (r : Nat × Nat) : List (Nat × Nat) :=
  (t.scopes.filter fun s => s.id = r.1).map fun s => (s.parent, r.2)

/-- `CREATE TABLE scope_ancestor`; there are no more rows than pairs of scopes. -/
def scopeAncestors : List ScopeAncestorRow :=
  (union t.nextAncestor (t.scopes.length * t.scopes.length)
    (t.scopes.map fun s => (s.parent, s.id))).map fun r => { id := r.2, ancestor := r.1 }

/-- The scope that a scope is in. -/
def Parent (s p : Nat) : Prop := ∃ row ∈ t.scopes, row.id = s ∧ row.parent = p

/-- A scope around another. -/
def Ancestor : Nat → Nat → Prop := Relation.TransGen t.Parent

/-- A scope, or one around it. -/
def Visible : Nat → Nat → Prop := Relation.ReflTransGen t.Parent

/-- The innermost scope that something is true of, seen from a scope. -/
structure Innermost (P : Nat → Prop) (scope r : Nat) : Prop where
  visible : t.Visible scope r
  holds : P r
  innermost : ∀ r', t.Visible scope r' → P r' → t.Visible r r'

variable {t}

/-! ## The table -/

/-- The pairs of an ancestor and a scope. -/
def pairs (t : ScopeTree) : List (Nat × Nat) :=
  t.scopes.map (·.parent) ×ˢ t.scopes.map (·.id)

theorem nextAncestor_pairs : ∀ r ∈ t.pairs, t.nextAncestor r ⊆ t.pairs := by
  intro r hr x hx
  obtain ⟨s, hs, rfl⟩ := List.mem_map.mp hx
  obtain ⟨hs, _⟩ := List.mem_filter.mp hs
  exact List.pair_mem_product.mpr
    ⟨List.mem_map.mpr ⟨s, hs, rfl⟩, (List.pair_mem_product.mp hr).2⟩

theorem start_pairs : (t.scopes.map fun s => (s.parent, s.id)) ⊆ t.pairs := by
  intro x hx
  obtain ⟨s, hs, rfl⟩ := List.mem_map.mp hx
  exact List.pair_mem_product.mpr
    ⟨List.mem_map.mpr ⟨s, hs, rfl⟩, List.mem_map.mpr ⟨s, hs, rfl⟩⟩

theorem pairs_length : t.pairs.length ≤ t.scopes.length * t.scopes.length := by
  refine Nat.le_of_eq ?_
  rw [pairs, List.length_product, List.length_map, List.length_map]

theorem reaches_iff {a s : Nat} {x : Nat × Nat} :
    Reaches t.nextAncestor (a, s) x ↔ t.Visible a x.1 ∧ x.2 = s := by
  constructor
  · intro h
    induction h with
    | refl => exact ⟨.refl, rfl⟩
    | tail _ hstep ih =>
        obtain ⟨row, hrow, rfl⟩ := List.mem_map.mp hstep
        obtain ⟨hrow, hid⟩ := List.mem_filter.mp hrow
        exact ⟨ih.1.tail ⟨row, hrow, of_decide_eq_true hid, rfl⟩, ih.2⟩
  · obtain ⟨b, s'⟩ := x
    rintro ⟨h, rfl⟩
    dsimp only at h ⊢
    induction h with
    | refl => exact .refl
    | tail _ hstep ih =>
        obtain ⟨row, hrow, rfl, rfl⟩ := hstep
        refine ih.tail (List.mem_map.mpr ⟨row, List.mem_filter.mpr ⟨hrow, ?_⟩, rfl⟩)
        exact decide_eq_true rfl

theorem mem_scopeAncestors_iff {s a : Nat} :
    { id := s, ancestor := a } ∈ t.scopeAncestors ↔ t.Ancestor s a := by
  have hmem : { id := s, ancestor := a } ∈ t.scopeAncestors ↔
      (a, s) ∈ union t.nextAncestor (t.scopes.length * t.scopes.length)
        (t.scopes.map fun s => (s.parent, s.id)) := by
    unfold scopeAncestors
    rw [List.mem_map]
    constructor
    · rintro ⟨⟨a', s'⟩, hr, heq⟩
      cases heq
      exact hr
    · exact fun h => ⟨(a, s), h, rfl⟩
  rw [hmem, mem_union_iff nextAncestor_pairs start_pairs pairs_length]
  constructor
  · rintro ⟨r, hr, hreach⟩
    obtain ⟨row, hrow, rfl⟩ := List.mem_map.mp hr
    obtain ⟨hvisible, heq⟩ := reaches_iff.mp hreach
    exact Relation.TransGen.head' ⟨row, hrow, heq.symm, rfl⟩ hvisible
  · intro h
    obtain ⟨p, ⟨row, hrow, hid, hparent⟩, hvisible⟩ := Relation.TransGen.head'_iff.mp h
    refine ⟨(row.parent, row.id), List.mem_map.mpr ⟨row, hrow, rfl⟩, reaches_iff.mpr ⟨?_, hid.symm⟩⟩
    exact hparent ▸ hvisible

theorem scopeAncestors_nodup : t.scopeAncestors.Nodup := by
  refine (union_nodup nextAncestor_pairs start_pairs pairs_length).map ?_
  intro r r' heq
  obtain ⟨hid, hancestor⟩ := ScopeAncestorRow.mk.inj heq
  exact Prod.ext hancestor hid

/-! ## The tree -/

theorem Parent.lt {s p : Nat} (h : t.Parent s p) : p < s := by
  obtain ⟨row, hrow, rfl, rfl⟩ := h
  exact (t.parents row hrow).1

theorem Parent.unique {s p p' : Nat} (h : t.Parent s p) (h' : t.Parent s p') : p = p' := by
  obtain ⟨row, hrow, hid, rfl⟩ := h
  obtain ⟨row', hrow', hid', rfl⟩ := h'
  rw [List.inj_on_of_nodup_map t.ids hrow hrow' (hid.trans hid'.symm)]

theorem Parent.next {s p : Nat} (h : t.Parent s p) (hp : p ≠ 0) : ∃ q, t.Parent p q := by
  obtain ⟨row, hrow, _, rfl⟩ := h
  obtain ⟨row', hrow', hid⟩ := (t.parents row hrow).2.resolve_left hp
  exact ⟨_, row', hrow', hid, rfl⟩

theorem Ancestor.lt {s a : Nat} (h : t.Ancestor s a) : a < s := by
  induction h with
  | single hparent => exact hparent.lt
  | tail _ hparent ih => exact Nat.lt_trans hparent.lt ih

theorem visible_iff {s a : Nat} : t.Visible s a ↔ a = s ∨ t.Ancestor s a := by
  unfold Visible Ancestor
  rw [Relation.reflTransGen_iff_eq_or_transGen]

theorem Visible.le {s a : Nat} (h : t.Visible s a) : a ≤ s := by
  rcases visible_iff.mp h with rfl | h
  · exact Nat.le_refl _
  · exact Nat.le_of_lt h.lt

theorem ancestor_of_root {s a : Nat} (h : t.Parent s 0) (ha : t.Ancestor s a) : a = 0 := by
  obtain ⟨p, hp, hvisible⟩ := Relation.TransGen.head'_iff.mp ha
  rw [hp.unique h] at hvisible
  exact Nat.le_zero.mp (Visible.le hvisible)

theorem Innermost.unique {P : Nat → Prop} {scope r r' : Nat} (h : t.Innermost P scope r)
    (h' : t.Innermost P scope r') : r = r' :=
  Nat.le_antisymm (h'.innermost r h.visible h.holds).le (h.innermost r' h'.visible h'.holds).le

end ScopeTree

end FlightRec
