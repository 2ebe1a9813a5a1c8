/-
# `FlightRec.Lib.Integers` — words as integers

A word of `w` bits stands for an unsigned or a signed integer (`Sign.value`), and an
integer leaves a word, the one it is equal to modulo `2 ^ w`.  Reading and leaving are
inverse on what the word can hold (`value_ofInt`), so the arithmetic of words is that of
the integers, as long as the results fit (`wrap_of_fits`).
-/
import Mathlib.Data.BitVec
import Mathlib.Algebra.Order.Ring.Int

namespace FlightRec.Integers

inductive Sign where
  | signed
  | unsigned
  deriving DecidableEq, Repr

namespace Sign

variable {w : Nat}

/-- The integer that a word stands for. -/
def value (s : Sign) (v : BitVec w) : Int :=
  match s with
  | .signed => v.toInt
  | .unsigned => v.toNat

/-- The integers that a word of `w` bits can stand for. -/
def Fits (s : Sign) (w : Nat) (x : Int) : Prop :=
  match s with
  | .signed => -2 ^ (w - 1) ≤ x ∧ x < 2 ^ (w - 1)
  | .unsigned => 0 ≤ x ∧ x < 2 ^ w

instance (s : Sign) (w : Nat) (x : Int) : Decidable (s.Fits w x) := by
  cases s <;> exact inferInstanceAs (Decidable (_ ∧ _))

/-- What is left of an integer in a word. -/
def wrap (s : Sign) (w : Nat) (x : Int) : Int := s.value (BitVec.ofInt w x)

@[simp]
theorem ofInt_value (s : Sign) (v : BitVec w) : BitVec.ofInt w (s.value v) = v := by
  cases s with
  | signed => exact BitVec.ofInt_toInt
  | unsigned =>
      show BitVec.ofInt w (v.toNat : Int) = v
      rw [BitVec.ofInt_natCast, BitVec.ofNat_toNat, BitVec.setWidth_eq]

theorem value_injective (s : Sign) {v v' : BitVec w} (h : s.value v = s.value v') : v = v' := by
  rw [← s.ofInt_value v, h, s.ofInt_value]

theorem fits_value (s : Sign) (v : BitVec w) : s.Fits w (s.value v) := by
  cases s with
  | signed => exact ⟨v.le_toInt, BitVec.toInt_lt⟩
  | unsigned =>
      have hlt : (v.toNat : Int) < (2 ^ w : Nat) := Int.ofNat_lt.mpr v.isLt
      exact ⟨Int.natCast_nonneg _, by rwa [Int.natCast_pow] at hlt⟩

theorem value_ofInt (s : Sign) (hw : 0 < w) {x : Int} (h : s.Fits w x) :
    s.value (BitVec.ofInt w x) = x := by
  cases s with
  | signed => exact BitVec.toInt_ofInt_eq_self hw h.1 h.2
  | unsigned =>
      obtain ⟨hlo, hhi⟩ := h
      show ((BitVec.ofInt w x).toNat : Int) = x
      rw [BitVec.toNat_ofInt, Int.emod_eq_of_lt hlo (by rwa [Int.natCast_pow]),
        Int.toNat_of_nonneg hlo]

theorem fits_of_le (s : Sign) {w' : Nat} (hw : w ≤ w') {x : Int} (h : s.Fits w x) :
    s.Fits w' x := by
  have hpow {m n : Nat} (h : m ≤ n) : (2 ^ m : Int) ≤ 2 ^ n := by
    have hle : ((2 ^ m : Nat) : Int) ≤ (2 ^ n : Nat) :=
      Int.ofNat_le.mpr (Nat.pow_le_pow_right (by decide) h)
    rwa [Int.natCast_pow, Int.natCast_pow] at hle
  cases s with
  | signed =>
      have hle := hpow (Nat.sub_le_sub_right hw 1)
      exact ⟨by have := h.1; omega, Int.lt_of_lt_of_le h.2 hle⟩
  | unsigned => exact ⟨h.1, Int.lt_of_lt_of_le h.2 (hpow hw)⟩

theorem fits_wrap (s : Sign) (x : Int) : s.Fits w (s.wrap w x) := s.fits_value _

theorem wrap_of_fits (s : Sign) (hw : 0 < w) {x : Int} (h : s.Fits w x) : s.wrap w x = x :=
  s.value_ofInt hw h

@[simp]
theorem ofInt_wrap (s : Sign) (x : Int) : BitVec.ofInt w (s.wrap w x) = BitVec.ofInt w x :=
  s.ofInt_value _

@[simp]
theorem value_eq_zero {s : Sign} {v : BitVec w} : s.value v = 0 ↔ v = 0 := by
  constructor
  · intro h
    rw [← s.ofInt_value v, h]
    rfl
  · rintro rfl
    cases s with
    | signed => exact BitVec.toInt_zero
    | unsigned => exact congrArg Int.ofNat BitVec.toNat_zero

end Sign

/-! ## The operations of words -/

section
variable {w : Nat} (v v' : BitVec w)

theorem ofInt_sub (x y : Int) : BitVec.ofInt w (x - y) = BitVec.ofInt w x - BitVec.ofInt w y := by
  rw [Int.sub_eq_add_neg, BitVec.ofInt_add, BitVec.ofInt_neg, BitVec.sub_eq_add_neg]

theorem ofInt_not (x : Int) : BitVec.ofInt w (-x - 1) = ~~~BitVec.ofInt w x := by
  rw [ofInt_sub, BitVec.ofInt_neg, BitVec.not_eq_neg_add]
  rfl

theorem sdiv_eq_ofInt : v.sdiv v' = BitVec.ofInt w (v.toInt.tdiv v'.toInt) := by
  apply BitVec.eq_of_toInt_eq
  rw [BitVec.toInt_sdiv, BitVec.toInt_ofInt]

theorem srem_eq_ofInt : v.srem v' = BitVec.ofInt w (v.toInt.tmod v'.toInt) := by
  rw [← BitVec.toInt_srem, BitVec.ofInt_toInt]

theorem udiv_eq_ofInt :
    BitVec.udiv v v' = BitVec.ofInt w ((v.toNat : Int).tdiv (v'.toNat : Int)) := by
  rw [← Int.ofNat_tdiv, BitVec.ofInt_natCast, BitVec.udiv_eq, ← BitVec.toNat_udiv,
    BitVec.ofNat_toNat, BitVec.setWidth_eq]

theorem shiftLeft_eq_ofInt (n : Nat) :
    v.shiftLeft n = BitVec.ofInt w ((v.toNat : Int) * (2 ^ n : Nat)) := by
  rw [← Int.natCast_mul, BitVec.ofInt_natCast, BitVec.shiftLeft_eq]
  apply BitVec.eq_of_toNat_eq
  rw [BitVec.toNat_shiftLeft, BitVec.toNat_ofNat, Nat.shiftLeft_eq]

theorem ushiftRight_eq_ofInt (n : Nat) :
    v.ushiftRight n = BitVec.ofInt w (v.toNat / 2 ^ n : Nat) := by
  rw [← Nat.shiftRight_eq_div_pow, ← BitVec.toNat_ushiftRight, BitVec.ofInt_natCast,
    BitVec.ofNat_toNat, BitVec.setWidth_eq]
  rfl

theorem and_eq_ofInt : v &&& v' = BitVec.ofInt w (v.toNat &&& v'.toNat : Nat) := by
  rw [← BitVec.toNat_and, BitVec.ofInt_natCast, BitVec.ofNat_toNat, BitVec.setWidth_eq]

theorem or_eq_ofInt : v ||| v' = BitVec.ofInt w (v.toNat ||| v'.toNat : Nat) := by
  rw [← BitVec.toNat_or, BitVec.ofInt_natCast, BitVec.ofNat_toNat, BitVec.setWidth_eq]

theorem xor_eq_ofInt : v ^^^ v' = BitVec.ofInt w (v.toNat ^^^ v'.toNat : Nat) := by
  rw [← BitVec.toNat_xor, BitVec.ofInt_natCast, BitVec.ofNat_toNat, BitVec.setWidth_eq]

end

end FlightRec.Integers
