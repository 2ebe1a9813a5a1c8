/-
# `FlightRec.Lib.OutStream` — a fully buffered stream

What is written to the stream stays in its buffer until it is flushed; then all of it is
handed over in one piece.  `late` is a stream that is always flushed before it is written
to: what it has handed over is one piece behind (`late_received`).
-/
import Mathlib.Data.List.Basic

namespace FlightRec

/-- The buffer, and the pieces that were handed over. -/
structure OutStream (α : Type*) where
  buffer : List α
  received : List (List α)
  deriving DecidableEq, Repr

namespace OutStream

variable {α : Type*}

/-- Nothing was written yet. -/
def empty : OutStream α := { buffer := [], received := [] }

/-- The data are added to the buffer. -/
def write (data : List α) (s : OutStream α) : OutStream α :=
  { s with buffer := s.buffer ++ data }

/-- An empty buffer is not handed over. -/
def flush (s : OutStream α) : OutStream α :=
  match s.buffer with
  | [] => s
  | _ :: _ => { buffer := [], received := s.received ++ [s.buffer] }

/-- The stream after `n` times flushing and then writing. -/
def late (data : List α) : Nat → OutStream α
  | 0 => empty
  | n + 1 => (late data n).flush.write data

@[simp] theorem write_received (data : List α) (s : OutStream α) :
    (s.write data).received = s.received := rfl

theorem flush_nil {s : OutStream α} (h : s.buffer = []) : s.flush = s := by
  unfold flush
  rw [h]

theorem flush_of_ne {s : OutStream α} (h : s.buffer ≠ []) :
    s.flush = { buffer := [], received := s.received ++ [s.buffer] } := by
  unfold flush
  split
  · exact absurd ‹_› h
  · rfl

theorem flush_buffer (s : OutStream α) : s.flush.buffer = [] := by
  by_cases h : s.buffer = []
  · rw [flush_nil h, h]
  · rw [flush_of_ne h]

theorem late_buffer (data : List α) (n : Nat) : (late data (n + 1)).buffer = data := by
  show (late data n).flush.buffer ++ data = data
  rw [flush_buffer, List.nil_append]

/-- **One piece behind**: the last piece is still in the buffer. -/
theorem late_received {data : List α} (hdata : data ≠ []) (n : Nat) :
    (late data (n + 1)).received = List.replicate n data := by
  induction n with
  | zero => rfl
  | succ n ih =>
      have hbuffer : (late data (n + 1)).buffer ≠ [] := by
        rw [late_buffer]
        exact hdata
      calc (late data (n + 1 + 1)).received
          = (late data (n + 1)).flush.received := rfl
        _ = (late data (n + 1)).received ++ [(late data (n + 1)).buffer] := by
            rw [flush_of_ne hbuffer]
        _ = List.replicate (n + 1) data := by
            rw [ih, late_buffer, List.replicate_succ']

end OutStream

end FlightRec
