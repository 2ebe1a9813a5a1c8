/-
# `FlightRec.Lib.Writer` — writing to a stream in pieces

A write to a stream may take less than it is given, but something if there is anything.
A caller that goes on with its next piece has written all of the pieces, one behind
another, exactly if each write took all it was given (`writes_sent_iff`).
-/
import Mathlib.Data.List.Basic

namespace FlightRec

/-- How many elements a write takes, by its number and by how many it is given. -/
structure Writer where
  takes : Nat → Nat → Nat
  pos : ∀ i n, 0 < n → 0 < takes i n
  le : ∀ i n, takes i n ≤ n

/-- A stream that is written to: the number of writes, and what they took. -/
structure Sink (α : Type*) where
  calls : Nat
  sent : List α

namespace Writer

variable {α : Type*} (w : Writer)

/-- One write. -/
def write (s : Sink α) (data : List α) : Sink α where
  calls := s.calls + 1
  sent := s.sent ++ data.take (w.takes s.calls data.length)

/-- A write of each piece. -/
def writes (s : Sink α) (pieces : List (List α)) : Sink α := pieces.foldl w.write s

/-- The writes from number `i` on take the pieces as they are. -/
def Whole : Nat → List (List α) → Prop
  | _, [] => True
  | i, data :: pieces => w.takes i data.length = data.length ∧ Whole (i + 1) pieces

variable {w}

@[simp] theorem writes_cons (s : Sink α) (data : List α) (pieces : List (List α)) :
    w.writes s (data :: pieces) = w.writes (w.write s data) pieces := rfl

theorem length_write (s : Sink α) (data : List α) :
    (w.write s data).sent.length = s.sent.length + w.takes s.calls data.length := by
  rw [write, List.length_append, List.length_take, Nat.min_eq_left (w.le _ _)]

theorem length_writes_le (s : Sink α) (pieces : List (List α)) :
    (w.writes s pieces).sent.length ≤ s.sent.length + pieces.flatten.length := by
  induction pieces generalizing s with
  | nil => exact Nat.le_refl _
  | cons data pieces ih =>
      have hrest := ih (w.write s data)
      have hle := w.le s.calls data.length
      rw [length_write] at hrest
      rw [writes_cons, List.flatten_cons, List.length_append]
      omega

/-- **Pieces** are written as they are exactly if each write takes its piece. -/
theorem writes_sent_iff (s : Sink α) (pieces : List (List α)) :
    (w.writes s pieces).sent = s.sent ++ pieces.flatten ↔ w.Whole s.calls pieces := by
  induction pieces generalizing s with
  | nil => exact iff_of_true (List.append_nil _).symm trivial
  | cons data pieces ih =>
      have hle := w.le s.calls data.length
      rw [writes_cons, List.flatten_cons, ← List.append_assoc]
      constructor
      · intro h
        -- what was not taken would be missing from the length
        have hlength := congrArg List.length h
        have hrest := length_writes_le (w := w) (w.write s data) pieces
        rw [hlength, length_write, List.length_append, List.length_append] at hrest
        have htakes : w.takes s.calls data.length = data.length := by omega
        have hwrite : (w.write s data).sent = s.sent ++ data := by
          rw [write, htakes, List.take_length]
        rw [← hwrite] at h
        exact ⟨htakes, (ih (w.write s data)).mp h⟩
      · rintro ⟨htakes, hwhole⟩
        have hwrite : (w.write s data).sent = s.sent ++ data := by
          rw [write, htakes, List.take_length]
        rw [← hwrite]
        exact (ih (w.write s data)).mpr hwhole

end Writer

end FlightRec
