/-
# `FlightRec.Lib.Overwrite` — a list that is written over from its beginning

Entries are put into the cells that are there, and new cells are made only behind the
last one; no cell is ever removed.  So the list is as long as the longest that was
written, and a cell holds what the last write that came so far put into it
(`getElem?_overwriteAll`).
-/
import Mathlib.Data.List.Basic

namespace FlightRec.Overwrite

variable {α : Type*}

/-- `old` with `new` written over it. -/
def overwrite (new old : List α) : List α := new ++ old.drop new.length

/-- One write after the other. -/
def overwriteAll (writes : List (List α)) (old : List α) : List α :=
  writes.foldl (fun l new => overwrite new l) old

/-- What the last write that has an entry `j` put there. -/
def lastWrite (writes : List (List α)) (j : Nat) : Option α :=
  writes.foldl (fun x new => (new[j]?).or x) none

@[simp] theorem overwrite_nil (old : List α) : overwrite [] old = old := rfl

theorem overwrite_cons (x : α) (new old : List α) :
    overwrite (x :: new) old = x :: overwrite new old.tail := by
  unfold overwrite
  rw [List.length_cons, List.cons_append, List.drop_tail]

theorem getElem?_overwrite (new : List α) : ∀ (old : List α) (j : Nat),
    (overwrite new old)[j]? = (new[j]?).or old[j]? := by
  induction new with
  | nil =>
      intro old j
      rw [overwrite_nil, List.getElem?_nil, Option.none_or]
  | cons x new ih =>
      intro old j
      rw [overwrite_cons]
      cases j with
      | zero => rfl
      | succ j => rw [List.getElem?_cons_succ, List.getElem?_cons_succ, ih, List.getElem?_tail]

/-- **A cell holds the last write to it.** -/
theorem getElem?_overwriteAll (writes : List (List α)) (old : List α) (j : Nat) :
    (overwriteAll writes old)[j]? = (lastWrite writes j).or old[j]? := by
  have hall : ∀ (l : List α) (x : Option α), l[j]? = x.or old[j]? →
      (writes.foldl (fun l new => overwrite new l) l)[j]? =
        (writes.foldl (fun x new => (new[j]?).or x) x).or old[j]? := by
    induction writes with
    | nil =>
        intro l x h
        exact h
    | cons new writes ih =>
        intro l x h
        refine ih _ _ ?_
        rw [getElem?_overwrite, h, Option.or_assoc]
  exact hall old none rfl

/-! ## Search from the beginning -/

variable {l : List α} {p : α → Bool} {x : α}

theorem find?_eq_some_iff_first : l.find? p = some x ↔
    ∃ j : Nat, l[j]? = some x ∧ p x = true ∧ ∀ k < j, ∀ y, l[k]? = some y → p y = false := by
  induction l with
  | nil =>
      constructor
      · intro h
        cases h
      · rintro ⟨j, h, _⟩
        cases h
  | cons z l ih =>
      rw [List.find?_cons]
      cases hz : p z with
      | true =>
          constructor
          · intro h
            cases h
            exact ⟨0, rfl, hz, fun k hk => absurd hk (Nat.not_lt_zero k)⟩
          · rintro ⟨j, hj, _, hfirst⟩
            cases j with
            | zero => exact hj
            | succ j =>
                have hno := hfirst 0 (Nat.succ_pos j) z rfl
                rw [hz] at hno
                cases hno
      | false =>
          refine ih.trans ⟨?_, ?_⟩
          · rintro ⟨j, hj, hx, hfirst⟩
            refine ⟨j + 1, hj, hx, fun k hk y hy => ?_⟩
            cases k with
            | zero =>
                cases hy
                exact hz
            | succ k => exact hfirst k (Nat.lt_of_succ_lt_succ hk) y hy
          · rintro ⟨j, hj, hx, hfirst⟩
            cases j with
            | zero =>
                cases hj
                rw [hz] at hx
                cases hx
            | succ j =>
                exact ⟨j, hj, hx, fun k hk => hfirst (k + 1) (Nat.succ_lt_succ hk)⟩

theorem find?_numbered (number : α → Nat) (h : ∀ j x, l[j]? = some x → number x = j) (i : Nat) :
    (l.find? fun x => number x == i) = l[i]? := by
  cases hi : l[i]? with
  | some x =>
      refine find?_eq_some_iff_first.mpr ⟨i, hi, by rw [h i x hi, beq_self_eq_true], ?_⟩
      intro k hk y hy
      rw [h k y hy]
      exact beq_false_of_ne (Nat.ne_of_lt hk)
  | none =>
      rw [List.find?_eq_none]
      intro x hx heq
      obtain ⟨k, hk⟩ := List.getElem?_of_mem hx
      rw [h k x hk, beq_iff_eq] at heq
      rw [heq, hi] at hk
      cases hk

end FlightRec.Overwrite
