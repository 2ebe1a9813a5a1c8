/-
# `FlightRec.Lib.Reader` — reading a stream in pieces

A read of a stream may deliver less than was asked for: it ends at a cut, wherever
the cuts are.  Every way to split a stream into pieces is given by its cuts
(`read_piece`), and a loop that asks for what is missing gets the same as one read
of an uncut stream (`fill_append`).
-/
import Mathlib.Data.List.Basic

namespace FlightRec.Reader

variable {α : Type*}

/-- What is left of a stream, from the given offset on. -/
structure Source (α : Type*) where
  data : List α
  offset : Nat
  cuts : Nat → Bool

/-- A stream that was not read yet. -/
def Source.start (data : List α) (cuts : Nat → Bool) : Source α := { data, offset := 0, cuts }

/-- The source behind `n` elements. -/
def Source.skip (s : Source α) (n : Nat) : Source α :=
  { s with data := s.data.drop n, offset := s.offset + n }

/-- How much of `count` elements lies before the next cut. -/
def upTo (cuts : Nat → Bool) : Nat → Nat → Nat
  | _, 0 => 0
  | offset, count + 1 => if cuts (offset + 1) then 1 else upTo cuts (offset + 1) count + 1

/-- Delivers `count` elements, or those before the next cut or the end. -/
def Source.read (s : Source α) (count : Nat) : List α × Source α :=
  let chunk := s.data.take (upTo s.cuts s.offset count)
  (chunk, s.skip chunk.length)

/-- Reads until there are `count` elements; the first argument bounds the number of reads. -/
def Source.fill : Nat → Nat → Source α → Option (List α × Source α)
  | _, 0, s => some ([], s)
  | 0, _ + 1, _ => none
  | fuel + 1, count + 1, s =>
      let (chunk, s') := s.read (count + 1)
      if chunk.isEmpty then none
      else (s'.fill fuel (count + 1 - chunk.length)).map fun (rest, s'') => (chunk ++ rest, s'')

/-! ## One read -/

@[simp] theorem skip_zero (s : Source α) : s.skip 0 = s := rfl

@[simp] theorem skip_append (xs rest : List α) (offset : Nat) (cuts : Nat → Bool) :
    Source.skip ⟨xs ++ rest, offset, cuts⟩ xs.length = ⟨rest, offset + xs.length, cuts⟩ := by
  unfold Source.skip
  rw [List.drop_left]

theorem upTo_le (cuts : Nat → Bool) (count : Nat) : ∀ offset, upTo cuts offset count ≤ count := by
  induction count with
  | zero =>
      intro offset
      exact Nat.le_refl 0
  | succ count ih =>
      intro offset
      rw [upTo]
      split
      · omega
      · exact Nat.succ_le_succ (ih (offset + 1))

theorem upTo_pos (cuts : Nat → Bool) (offset count : Nat) : 0 < upTo cuts offset (count + 1) := by
  rw [upTo]
  split <;> omega

theorem upTo_eq {cuts : Nat → Bool} {n : Nat} : ∀ {offset count : Nat}, 0 < n → n ≤ count →
    (∀ k, 0 < k → k < n → cuts (offset + k) = false) → (cuts (offset + n) = true ∨ n = count) →
      upTo cuts offset count = n := by
  induction n with
  | zero =>
      intro offset count hpos
      cases hpos
  | succ n ih =>
      rintro offset (_ | count) _ hle hnone hend
      · cases hle
      rw [upTo]
      rcases Nat.eq_zero_or_pos n with rfl | hn
      · rcases hend with hcut | hcount
        · rw [if_pos hcut]
        · cases hcount
          split <;> rfl
      · have hno : cuts (offset + 1) = false := hnone 1 (by omega) (by omega)
        rw [if_neg (by simp [hno])]
        have hrest : upTo cuts (offset + 1) count = n := by
          refine ih hn (by omega) (fun k hk hkn => ?_) ?_
          · have := hnone (k + 1) (by omega) (by omega)
            rwa [show offset + (k + 1) = offset + 1 + k by omega] at this
          · rw [show offset + 1 + n = offset + (n + 1) by omega]
            exact hend.imp_right (by omega)
        rw [hrest]

theorem read_eq (s : Source α) (count : Nat) :
    ∃ n ≤ count, s.read count = (s.data.take n, s.skip n) ∧ n ≤ s.data.length ∧
      (0 < count → s.data ≠ [] → 0 < n) := by
  refine ⟨min (upTo s.cuts s.offset count) s.data.length, ?_, ?_, Nat.min_le_right _ _, ?_⟩
  · exact Nat.le_trans (Nat.min_le_left _ _) (upTo_le ..)
  · rw [Source.read, List.length_take, ← List.take_eq_take_min]
  · intro hpos hne
    obtain ⟨m, rfl⟩ := Nat.exists_eq_add_one.mpr hpos
    have := upTo_pos s.cuts s.offset m
    have := List.length_pos_iff.mpr hne
    omega

/-- A read that is cut behind `xs`, or asks for no more, delivers `xs`. -/
theorem read_piece {xs rest : List α} {offset count : Nat} {cuts : Nat → Bool} (hne : xs ≠ [])
    (hle : xs.length ≤ count) (hnone : ∀ k, 0 < k → k < xs.length → cuts (offset + k) = false)
    (hend : cuts (offset + xs.length) = true ∨ xs.length = count) :
    Source.read ⟨xs ++ rest, offset, cuts⟩ count = (xs, ⟨rest, offset + xs.length, cuts⟩) := by
  have hn := upTo_eq (List.length_pos_iff.mpr hne) hle hnone hend
  rw [Source.read]
  simp only [hn, List.take_left, skip_append]

/-! ## Reading in a loop -/

theorem fill_append (fuel : Nat) : ∀ {xs rest : List α} {offset : Nat} {cuts : Nat → Bool},
    xs.length ≤ fuel → Source.fill fuel xs.length ⟨xs ++ rest, offset, cuts⟩ =
      some (xs, ⟨rest, offset + xs.length, cuts⟩) := by
  induction fuel with
  | zero =>
      intro xs rest offset cuts hle
      have hnil : xs = [] := List.length_eq_zero_iff.mp (by omega)
      rw [hnil]
      rfl
  | succ fuel ih =>
      rintro (_ | ⟨x, xs⟩) rest offset cuts hle
      · rfl
      obtain ⟨n, hn, hread, -, hpos⟩ :=
        read_eq (⟨x :: xs ++ rest, offset, cuts⟩ : Source α) (xs.length + 1)
      have hpos : 0 < n := hpos (by omega) (by simp)
      -- the chunk is the beginning of `x :: xs`, and the loop goes on with the rest of it
      obtain ⟨chunk, more, hsplit, hchunk⟩ : ∃ chunk more, x :: xs = chunk ++ more ∧
          chunk.length = n :=
        ⟨(x :: xs).take n, (x :: xs).drop n, (List.take_append_drop ..).symm, by
          rw [List.length_take, List.length_cons]
          omega⟩
      have hlen : xs.length + 1 = n + more.length := by
        rw [← List.length_cons, hsplit, List.length_append, hchunk]
      rw [List.length_cons, Source.fill, hread, hsplit, List.append_assoc, ← hchunk]
      simp only [List.take_left, skip_append]
      rw [if_neg (by rw [List.isEmpty_iff, ← List.length_eq_zero_iff]; omega)]
      rw [show xs.length + 1 - chunk.length = more.length by omega,
        ih (by rw [List.length_cons] at hle; omega)]
      rw [Option.map_some, hlen, hchunk, Nat.add_assoc]

theorem fill_eq_none (fuel : Nat) : ∀ {s : Source α} {count : Nat}, s.data.length < count →
    s.fill fuel count = none := by
  induction fuel with
  | zero =>
      rintro s (_ | count) h
      · cases h
      · rfl
  | succ fuel ih =>
      rintro s (_ | count) h
      · cases h
      obtain ⟨n, hn, hread, hle, -⟩ := read_eq s (count + 1)
      have hrest : (s.skip n).data.length < count + 1 - n := by
        rw [Source.skip, List.length_drop]
        omega
      rw [Source.fill, hread]
      simp only [List.length_take, Nat.min_eq_left hle]
      split
      · rfl
      · rw [ih hrest]
        rfl

end FlightRec.Reader
