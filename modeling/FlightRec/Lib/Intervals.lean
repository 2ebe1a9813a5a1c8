/-
# `FlightRec.Lib.Intervals` — sorted arrays of disjoint half-open ranges

Elements are of any type with a lower and an upper bound, `[lo r, hi r)`.
`Separated` is the order an interval search needs: no range is empty and each
ends before the next begins.  It is the same as being sorted by `lo` with
non-empty, pairwise disjoint ranges (`separated_iff`).

`insert` puts a range behind the ranges that start no later, and keeps the order
exactly if the new range is not empty and meets none of the others
(`separated_insert_iff`).  `search` is the binary search; on a separated array it
finds the range of a point whenever there is one (`search_eq_some_iff`).
-/
import Mathlib.Data.List.Basic
import Mathlib.Data.List.Pairwise
import Mathlib.Data.List.TakeWhile

namespace FlightRec.Intervals

variable {α : Type*} (lo hi : α → Nat)

/-- Two ranges have no point in common. -/
def Disjoint (a b : α) : Prop := hi a ≤ lo b ∨ hi b ≤ lo a

/-- No range is empty, and each ends before the next begins. -/
structure Separated (l : List α) : Prop where
  nonempty : ∀ r ∈ l, lo r < hi r
  ordered : l.Pairwise fun a b => hi a ≤ lo b

/-- The list with a range added behind those that start no later. -/
def insert (r : α) (l : List α) : List α :=
  l.takeWhile (fun a => lo a ≤ lo r) ++ r :: l.dropWhile (fun a => lo a ≤ lo r)

variable {lo hi}

/-! ## Order -/

theorem Disjoint.symm {a b : α} (h : Disjoint lo hi a b) : Disjoint lo hi b a := Or.symm h

theorem Separated.cons {a : α} {l : List α} (h : Separated lo hi (a :: l)) : Separated lo hi l :=
  ⟨fun r hr => h.nonempty r (by simp [hr]), (List.pairwise_cons.mp h.ordered).2⟩

theorem separated_iff {l : List α} :
    Separated lo hi l ↔ (∀ r ∈ l, lo r < hi r) ∧ l.Pairwise (fun a b => lo a ≤ lo b) ∧
      l.Pairwise (Disjoint lo hi) := by
  constructor
  · intro h
    refine ⟨h.nonempty, h.ordered.imp_of_mem fun {a b} ha _ hab => ?_,
      h.ordered.imp fun hab => Or.inl hab⟩
    have := h.nonempty a ha
    omega
  · rintro ⟨nonempty, sorted, disjoint⟩
    refine ⟨nonempty, (sorted.and disjoint).imp_of_mem fun {a b} ha hb hab => ?_⟩
    have hna := nonempty a ha
    have hnb := nonempty b hb
    rcases hab.2 with h | h
    · exact h
    · have := hab.1
      omega

theorem mem_insert {r x : α} {l : List α} : x ∈ insert lo r l ↔ x = r ∨ x ∈ l := by
  simp only [insert, List.mem_append, List.mem_cons]
  constructor
  · rintro (h | rfl | h)
    · exact Or.inr ((List.takeWhile_sublist _).mem h)
    · exact Or.inl rfl
    · exact Or.inr ((List.dropWhile_sublist _).mem h)
  · rintro (rfl | h)
    · exact Or.inr (Or.inl rfl)
    · rw [← List.takeWhile_append_dropWhile (p := fun a => decide (lo a ≤ lo r)) (l := l)] at h
      rcases List.mem_append.mp h with h | h
      · exact Or.inl h
      · exact Or.inr (Or.inr h)

theorem insert_perm (r : α) (l : List α) : (insert lo r l).Perm (r :: l) := by
  have h : (insert lo r l).Perm (r :: (l.takeWhile (fun a => lo a ≤ lo r) ++
      l.dropWhile (fun a => lo a ≤ lo r))) := List.perm_middle
  rwa [List.takeWhile_append_dropWhile] at h

theorem lo_of_mem_dropWhile {r : α} : ∀ {l : List α}, Separated lo hi l →
    ∀ x ∈ l.dropWhile (fun a => lo a ≤ lo r), lo r < lo x
  | [], _, x, hx => by cases hx
  | a :: l, h, x, hx => by
      rw [List.dropWhile_cons] at hx
      split at hx
      · exact lo_of_mem_dropWhile h.cons x hx
      · rename_i hlt
        have hlt : lo r < lo a := by simpa using hlt
        rcases List.mem_cons.mp hx with rfl | hx
        · exact hlt
        · have := (List.pairwise_cons.mp h.ordered).1 x hx
          have := h.nonempty a (by simp)
          omega

/-- **Insertion.**  A separated list stays separated exactly if the new range is
not empty and disjoint from every other. -/
theorem separated_insert_iff {r : α} {l : List α} (h : Separated lo hi l) :
    Separated lo hi (insert lo r l) ↔ lo r < hi r ∧ ∀ a ∈ l, Disjoint lo hi a r := by
  constructor
  · intro hins
    refine ⟨hins.nonempty r (mem_insert.mpr (Or.inl rfl)), fun a ha => ?_⟩
    rw [← List.takeWhile_append_dropWhile (p := fun a => decide (lo a ≤ lo r)) (l := l)] at ha
    obtain ⟨_, htail, hcross⟩ := List.pairwise_append.mp hins.ordered
    rcases List.mem_append.mp ha with ha | ha
    · exact Or.inl (hcross a ha r (by simp))
    · exact Or.inr ((List.pairwise_cons.mp htail).1 a ha)
  · rintro ⟨hr, hdisj⟩
    refine ⟨fun x hx => ?_, ?_⟩
    · rcases mem_insert.mp hx with rfl | hx
      · exact hr
      · exact h.nonempty x hx
    · have htake : ∀ a ∈ l.takeWhile (fun a => lo a ≤ lo r), hi a ≤ lo r := by
        intro a ha
        have hle : lo a ≤ lo r := by simpa using List.mem_takeWhile_imp ha
        have hmem := (List.takeWhile_sublist _).mem ha
        have := h.nonempty a hmem
        rcases hdisj a hmem with hd | hd <;> omega
      have hdrop : ∀ a ∈ l.dropWhile (fun a => lo a ≤ lo r), hi r ≤ lo a := by
        intro a ha
        have hlt := lo_of_mem_dropWhile h a ha
        have hmem := (List.dropWhile_sublist _).mem ha
        have := h.nonempty a hmem
        rcases hdisj a hmem with hd | hd <;> omega
      have hcross : ∀ a ∈ l.takeWhile (fun a => lo a ≤ lo r),
          ∀ b ∈ l.dropWhile (fun a => lo a ≤ lo r), hi a ≤ lo b := by
        intro a ha b hb
        have := htake a ha
        have := hdrop b hb
        omega
      refine List.pairwise_append.mpr ⟨h.ordered.sublist (List.takeWhile_sublist _),
        List.pairwise_cons.mpr ⟨hdrop, h.ordered.sublist (List.dropWhile_sublist _)⟩, ?_⟩
      intro a ha b hb
      rcases List.mem_cons.mp hb with rfl | hb
      · exact htake a ha
      · exact hcross a ha b hb

theorem Separated.unique {l : List α} (h : Separated lo hi l) {a b : α} (ha : a ∈ l) (hb : b ∈ l)
    {x : Nat} (hax : lo a ≤ x ∧ x < hi a) (hbx : lo b ≤ x ∧ x < hi b) : a = b := by
  by_contra hne
  have : Std.Symm (Disjoint lo hi) := ⟨fun _ _ h => h.symm⟩
  have disjoint : l.Pairwise (Disjoint lo hi) := h.ordered.imp fun hab => Or.inl hab
  rcases disjoint.forall ha hb hne with hd | hd <;> omega

theorem Separated.le_of_lt {l : List α} (h : Separated lo hi l) {i j : Nat} (hij : i < j)
    (hi' : i < l.length) (hj : j < l.length) : hi l[i] ≤ lo l[j] :=
  List.pairwise_iff_getElem.mp h.ordered i j hi' hj hij

/-! ## Binary search -/

variable (lo hi) in
/-- Binary search for the range of `x` among the indices from `left` to `right`, exclusive. -/
def search (l : List α) (x : Nat) (left right : Nat) : Option Nat :=
  if _h : left < right then
    match l[(left + right) / 2]? with
    | none => none
    | some r =>
        if x < lo r then search l x left ((left + right) / 2)
        else if hi r ≤ x then search l x ((left + right) / 2 + 1) right
        else some ((left + right) / 2)
  else none
termination_by right - left

theorem search_sound {l : List α} {x i : Nat} (left right : Nat)
    (h : search lo hi l x left right = some i) :
    ∃ hi' : i < l.length, lo l[i] ≤ x ∧ x < hi l[i] := by
  fun_induction search lo hi l x left right with
  | case1 left right hlt hnone => cases h
  | case2 left right hlt r hr hx ih => exact ih h
  | case3 left right hlt r hr hx hxr ih => exact ih h
  | case4 left right hlt r hr hx hxr =>
      obtain ⟨hlen, rfl⟩ := List.getElem?_eq_some_iff.mp hr
      cases h
      exact ⟨hlen, by omega, by omega⟩
  | case5 left right hge => cases h

/-- The search finds the range of a point if its index is still in the interval. -/
theorem search_complete {l : List α} (sep : Separated lo hi l) {x i : Nat} (hlen : i < l.length)
    (hx : lo l[i] ≤ x ∧ x < hi l[i]) (left right : Nat) (hl : left ≤ i) (hr : i < right)
    (hright : right ≤ l.length) : search lo hi l x left right = some i := by
  fun_induction search lo hi l x left right with
  | case1 left right hlt hnone =>
      have := List.getElem?_eq_none_iff.mp hnone
      omega
  | case2 left right hlt r hmid hxr ih =>
      obtain ⟨hmlen, rfl⟩ := List.getElem?_eq_some_iff.mp hmid
      refine ih hl ?_ (by omega)
      by_contra hge
      rcases Nat.lt_or_eq_of_le (Nat.le_of_not_lt hge) with hlt' | heq
      · have := sep.le_of_lt hlt' hmlen hlen
        have := sep.nonempty _ (List.getElem_mem hmlen)
        omega
      · subst heq
        omega
  | case3 left right hlt r hmid hxr hrx ih =>
      obtain ⟨hmlen, rfl⟩ := List.getElem?_eq_some_iff.mp hmid
      refine ih ?_ hr hright
      by_contra hlt'
      rcases Nat.lt_or_eq_of_le (by omega : i ≤ (left + right) / 2) with hlt' | heq
      · have := sep.le_of_lt hlt' hlen hmlen
        omega
      · subst heq
        omega
  | case4 left right hlt r hmid hxr hrx =>
      obtain ⟨hmlen, rfl⟩ := List.getElem?_eq_some_iff.mp hmid
      rcases Nat.lt_trichotomy i ((left + right) / 2) with hlt' | heq | hgt
      · have := sep.le_of_lt hlt' hlen hmlen
        omega
      · rw [heq]
      · have := sep.le_of_lt hgt hmlen hlen
        omega
  | case5 left right hge => omega

/-- **Binary search** on a separated list finds the range of a point. -/
theorem search_eq_some_iff {l : List α} (sep : Separated lo hi l) {x i : Nat} :
    search lo hi l x 0 l.length = some i ↔ ∃ hi' : i < l.length, lo l[i] ≤ x ∧ x < hi l[i] :=
  ⟨search_sound 0 l.length, fun ⟨hlen, hx⟩ =>
    search_complete sep hlen hx 0 l.length (Nat.zero_le i) hlen (Nat.le_refl _)⟩

end FlightRec.Intervals
