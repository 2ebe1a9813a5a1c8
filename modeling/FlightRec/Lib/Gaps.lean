/-
# `FlightRec.Lib.Gaps` — values that are written without their gaps

A list of options says which places have a value.  Who copies the values one behind the
other (`reduceOption`) into a buffer of a default moves each of them to the front by the
gaps before it.  Every place reads as it should, its value or else the default, exactly if
nothing but the default stands behind a gap (`closed_iff`).
-/
import Mathlib.Data.List.ReduceOption

namespace FlightRec.Gaps

variable {β : Type*} {z : β} {l : List (Option β)}

theorem getD_reduceOption {i : Nat} {x : β} (h : l[i]? = some (some x)) :
    l.reduceOption.getD (l.take i).reduceOption.length z = x := by
  obtain ⟨hi, hx⟩ := List.getElem?_eq_some_iff.mp h
  have hsplit : l.take i ++ some x :: l.drop (i + 1) = l := by
    rw [← hx, List.getElem_cons_drop, List.take_append_drop]
  conv_lhs => rw [← hsplit]
  rw [List.reduceOption_append, List.reduceOption_cons_of_some, hsplit]
  simp

theorem getD_of_front {i : Nat} {x : β} (hx : l[i]? = some (some x))
    (hfront : ∀ a ∈ l.take i, a.isSome) : l.reduceOption.getD i z = x := by
  have hi : i < l.length := (List.getElem?_eq_some_iff.mp hx).1
  have hcount : (l.take i).reduceOption.length = i := by
    rw [List.reduceOption_length_eq_iff.mpr hfront, List.length_take_of_le (Nat.le_of_lt hi)]
  have hwritten := getD_reduceOption (z := z) hx
  rwa [hcount] at hwritten

theorem getD_of_forall (h : ∀ a ∈ l, Option.getD a z = z) (i : Nat) :
    l.reduceOption.getD i z = z := by
  rw [List.getD_eq_getElem?_getD]
  cases hget : l.reduceOption[i]? with
  | none => rfl
  | some x =>
      have hmem := List.reduceOption_mem_iff.mp (List.mem_of_getElem? hget)
      exact h (some x) hmem

/-- Values that are moved to the front by at least one place, and read as they should, are
all the default: each stands where an earlier one should. -/
theorem default_of_shifted (first : l.reduceOption.getD 0 z = z)
    (rest : ∀ (i : Nat) (a : Option β), l[i]? = some a →
      l.reduceOption.getD (i + 1) z = a.getD z) :
    ∀ (i : Nat) (a : Option β), l[i]? = some a → a.getD z = z := by
  intro i
  induction i using Nat.strongRecOn with
  | ind i ih =>
      rintro (_ | x) hget
      · rfl
      · have hwritten := getD_reduceOption (z := z) hget
        have hi := (List.getElem?_eq_some_iff.mp hget).1
        have hcount := (l.take i).reduceOption_length_le
        rw [List.length_take] at hcount
        cases hk : (l.take i).reduceOption.length with
        | zero =>
            rw [hk, first] at hwritten
            exact hwritten.symm
        | succ k =>
            have hlt : k < i := by omega
            obtain ⟨a, ha⟩ : ∃ a, l[k]? = some a := ⟨_, List.getElem?_eq_getElem (by omega)⟩
            rw [hk, rest k a ha, ih k hlt a ha] at hwritten
            exact hwritten.symm

/-- **Closed gaps** are not noticed exactly if nothing but the default stands behind one. -/
theorem closed_iff :
    (∀ (i : Nat) (a : Option β), l[i]? = some a → l.reduceOption.getD i z = a.getD z) ↔
      l.Pairwise fun a b => a = none → b.getD z = z := by
  induction l with
  | nil => simp
  | cons a l ih =>
      rw [List.pairwise_cons]
      cases a with
      | some x =>
          rw [List.reduceOption_cons_of_some, ← ih]
          constructor
          · intro h
            refine ⟨fun b _ hnone => ?_, fun i a hget => h (i + 1) a hget⟩
            cases hnone
          · rintro ⟨-, h⟩ (_ | i) a hget
            · cases hget
              rfl
            · exact h i a hget
      | none =>
          rw [List.reduceOption_cons_of_none]
          constructor
          · intro h
            have hall := default_of_shifted (h 0 none rfl) fun i a hget => h (i + 1) a hget
            have hmem : ∀ b ∈ l, b.getD z = z := by
              intro b hb
              obtain ⟨i, hi, rfl⟩ := List.getElem_of_mem hb
              exact hall i _ (List.getElem?_eq_getElem hi)
            exact ⟨fun b hb _ => hmem b hb, List.pairwise_of_forall_mem_list
              fun a _ b hb _ => hmem b hb⟩
          · rintro ⟨hdefault, -⟩ i a hget
            have hmem : ∀ b ∈ l, b.getD z = z := fun b hb => hdefault b hb rfl
            rw [getD_of_forall hmem]
            rcases List.mem_cons.mp (List.mem_of_getElem? hget) with rfl | ha
            · rfl
            · exact (hmem a ha).symm

end FlightRec.Gaps
