/-
# `FlightRec.Lib.UpToFailure` — a loop that ends at its first failure

A loop that calls something fallible for each element, keeps what it gets and ends at the
first failure.  What is kept is a prefix; it is all if nothing fails.
-/
import Mathlib.Data.List.Basic

namespace UpToFailure

variable {α β : Type*} (f : α → Option β)

/-- The results for the elements of a list, up to the first failure. -/
def upToFailure : List α → List β
  | [] => []
  | a :: rest =>
      match f a with
      | none => []
      | some b => b :: upToFailure rest

variable {f}

theorem upToFailure_nil : upToFailure f [] = [] := rfl

theorem upToFailure_cons_none {a : α} {rest : List α} (h : f a = none) :
    upToFailure f (a :: rest) = [] := by
  rw [upToFailure, h]

theorem upToFailure_cons_some {a : α} {b : β} {rest : List α} (h : f a = some b) :
    upToFailure f (a :: rest) = b :: upToFailure f rest := by
  rw [upToFailure, h]

theorem map_some_upToFailure_initial : ∀ l : List α,
    (upToFailure f l).map some <+: l.map f
  | [] => List.prefix_rfl
  | a :: rest => by
      cases h : f a with
      | none =>
          rw [upToFailure_cons_none h]
          exact List.nil_prefix
      | some b =>
          rw [upToFailure_cons_some h, List.map_cons, List.map_cons, h]
          exact List.cons_prefix_cons.mpr ⟨rfl, map_some_upToFailure_initial rest⟩

theorem map_some_upToFailure_iff : ∀ l : List α,
    (upToFailure f l).map some = l.map f ↔ ∀ a ∈ l, (f a).isSome
  | [] => by simp [upToFailure_nil]
  | a :: rest => by
      rw [List.forall_mem_cons]
      cases h : f a with
      | none =>
          rw [upToFailure_cons_none h]
          simp
      | some b =>
          rw [upToFailure_cons_some h, List.map_cons, List.map_cons, h,
            List.cons.injEq, map_some_upToFailure_iff rest]
          simp

theorem upToFailure_append {l l' : List α} (h : ∀ a ∈ l, (f a).isSome) :
    upToFailure f (l ++ l') = upToFailure f l ++ upToFailure f l' := by
  induction l with
  | nil => rfl
  | cons a rest ih =>
      obtain ⟨ha, hrest⟩ := List.forall_mem_cons.mp h
      obtain ⟨b, hb⟩ := Option.isSome_iff_exists.mp ha
      rw [List.cons_append, upToFailure_cons_some hb, upToFailure_cons_some hb, ih hrest,
        List.cons_append]

theorem upToFailure_append_of_fails {l l' : List α} (h : ∃ a ∈ l, f a = none) :
    upToFailure f (l ++ l') = upToFailure f l := by
  induction l with
  | nil =>
      obtain ⟨_, hmem, _⟩ := h
      cases hmem
  | cons a rest ih =>
      rw [List.cons_append]
      cases ha : f a with
      | none => rw [upToFailure_cons_none ha, upToFailure_cons_none ha]
      | some b =>
          have hrest : ∃ a ∈ rest, f a = none := by
            obtain ⟨a', hmem, hfails⟩ := h
            rcases List.mem_cons.mp hmem with rfl | hmem
            · rw [ha] at hfails
              cases hfails
            · exact ⟨a', hmem, hfails⟩
          rw [upToFailure_cons_some ha, upToFailure_cons_some ha, ih hrest]

/-- Nothing more is kept of a longer list exactly if something fails before, or at once. -/
theorem upToFailure_append_cons_iff {a : α} {l l' : List α} :
    upToFailure f (l ++ a :: l') = upToFailure f l ↔ (∃ a' ∈ l, f a' = none) ∨ f a = none := by
  by_cases h : ∃ a' ∈ l, f a' = none
  · exact iff_of_true (upToFailure_append_of_fails h) (.inl h)
  · have hl : ∀ a' ∈ l, (f a').isSome := fun a' hmem =>
      Option.isSome_iff_ne_none.mpr fun hnone => h ⟨a', hmem, hnone⟩
    rw [upToFailure_append hl, List.append_right_eq_self, or_iff_right h]
    cases ha : f a with
    | none => simp only [upToFailure_cons_none ha]
    | some b => simp [upToFailure_cons_some ha]

theorem map_some_upToFailure_eq_iff {l l' : List α} (h : l <+: l') :
    (upToFailure f l).map some = l'.map f ↔ l = l' ∧ ∀ a ∈ l', (f a).isSome := by
  constructor
  · intro heq
    have hlength := (map_some_upToFailure_initial (f := f) l).length_le
    rw [heq, List.length_map, List.length_map] at hlength
    have hl := h.eq_of_length_le hlength
    subst hl
    exact ⟨rfl, (map_some_upToFailure_iff l).mp heq⟩
  · rintro ⟨rfl, hall⟩
    exact (map_some_upToFailure_iff l).mpr hall

end UpToFailure
