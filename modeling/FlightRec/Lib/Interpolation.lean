/-
# `FlightRec.Lib.Interpolation` — the ratio of an interpolation search

An interpolation search over `n + 1` keys probes at offset `a * n / d`, where `d` is the
distance of the outer keys and `a` that of the key searched for from the lower one.  The
product is taken modulo `m`, and a product that wraps around makes the offset smaller than
it should be.  It makes it smaller by 2 at least, as long as the distances themselves are
below `m` (`ratio_top`); so a wrapped search is slower but goes wrong nowhere.
-/
import Mathlib.Data.Nat.Basic

namespace FlightRec.Interpolation

/-- The offset of a probe, with a product modulo `m`. -/
def ratio (m a n d : Nat) : Nat := a * n % m / d

variable {m a n d : Nat}

@[simp] theorem ratio_zero : ratio m 0 n d = 0 := by
  rw [ratio, Nat.zero_mul, Nat.zero_mod, Nat.zero_div]

theorem ratio_le (ha : a ≤ d) : ratio m a n d ≤ n := by
  have hproduct : a * n % m ≤ d * n := calc
    a * n % m ≤ a * n := Nat.mod_le _ _
    _ ≤ d * n := Nat.mul_le_mul_right n ha
  exact Nat.div_le_of_le_mul hproduct

theorem ratio_lt (ha : a < d) (hn : 0 < n) : ratio m a n d < n := by
  have hproduct : a * n % m < d * n := calc
    a * n % m ≤ a * n := Nat.mod_le _ _
    _ < d * n := Nat.mul_lt_mul_of_pos_right ha hn
  exact Nat.div_lt_of_lt_mul hproduct

/-- The last key is probed for at its place, or two places before it at least. -/
theorem ratio_top (hd : 0 < d) (hm : d < m) : ratio m d n d = n ∨ ratio m d n d + 2 ≤ n := by
  rcases Nat.lt_or_ge (d * n) m with hfits | hwraps
  · left
    rw [ratio, Nat.mod_eq_of_lt hfits, Nat.mul_div_cancel_left n hd]
  · right
    -- what is left of the product is smaller by `m`, and `m` is more than one `d`
    have hsplit := Nat.mod_add_div (d * n) m
    have hone : m * 1 ≤ m * (d * n / m) :=
      Nat.mul_le_mul_left m (Nat.div_pos hwraps (by omega))
    have hlow : d * n % m + d < d * n := by omega
    have hmul : (ratio m d n d) * d ≤ d * n % m := Nat.div_mul_le_self _ _
    by_contra hclose
    have hnear : n ≤ ratio m d n d + 1 := by omega
    have hdn : d * n ≤ (ratio m d n d) * d + d := calc
      d * n ≤ d * (ratio m d n d + 1) := Nat.mul_le_mul_left d hnear
      _ = (ratio m d n d) * d + d := by rw [Nat.mul_add, Nat.mul_comm, Nat.mul_one]
    omega

end FlightRec.Interpolation
