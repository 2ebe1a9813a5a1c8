/-
# `FlightRec.Lib.Toggle` — a switch that every marked element flips

A stream is read by a party that keeps one bit: a marked element switches the bit
on or off, and what is done on switching on is done for every second mark.
`final` is the bit after the stream, `rises` how often it was switched on.  Both
are read from the front (`final_cons`, `rises_cons`) and written at the back
(`final_concat`, `rises_concat`).
-/
import Mathlib.Data.List.Basic

namespace FlightRec.Toggle

variable {α : Type*} (p : α → Bool)

/-- The bit after one element. -/
def flip (c : Bool) (a : α) : Bool := if p a then !c else c

/-- The bit after a stream. -/
def final (c : Bool) (l : List α) : Bool := l.foldl (flip p) c

/-- How often a stream switches the bit on. -/
def rises : Bool → List α → Nat
  | _, [] => 0
  | c, a :: l => (if p a && !c then 1 else 0) + rises (flip p c a) l

variable {p}

@[simp] theorem flip_marked {c : Bool} {a : α} (h : p a = true) : flip p c a = !c := if_pos h

@[simp] theorem flip_plain {c : Bool} {a : α} (h : p a = false) : flip p c a = c :=
  if_neg (by simp [h])

@[simp] theorem final_nil (c : Bool) : final p c [] = c := rfl

@[simp] theorem rises_nil (c : Bool) : rises p c [] = 0 := rfl

theorem final_cons (c : Bool) (a : α) (l : List α) :
    final p c (a :: l) = final p (flip p c a) l := rfl

theorem rises_cons (c : Bool) (a : α) (l : List α) :
    rises p c (a :: l) = (if p a && !c then 1 else 0) + rises p (flip p c a) l := rfl

theorem final_concat (c : Bool) (l : List α) (a : α) :
    final p c (l ++ [a]) = flip p (final p c l) a := by
  simp [final]

theorem rises_concat (a : α) : ∀ (c : Bool) (l : List α),
    rises p c (l ++ [a]) = rises p c l + if p a && !final p c l then 1 else 0
  | c, [] => by simp [rises]
  | c, x :: l => by
      rw [List.cons_append, rises_cons, rises_concat a _ l, rises_cons, final_cons, Nat.add_assoc]

theorem final_cons_plain {c : Bool} {a : α} (h : p a = false) (l : List α) :
    final p c (a :: l) = final p c l := by
  rw [final_cons, flip_plain h]

theorem rises_cons_plain {c : Bool} {a : α} (h : p a = false) (l : List α) :
    rises p c (a :: l) = rises p c l := by
  rw [rises_cons, flip_plain h, h]
  simp

end FlightRec.Toggle
