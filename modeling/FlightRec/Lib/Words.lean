/-
# `FlightRec.Lib.Words` — integers of C in machine words

A conversion to an unsigned type takes the value modulo the size of the type; one from an
unsigned 64-bit type to a signed one keeps the low bits.  Values that fit are not changed.

A word that holds a value of a narrower integer type has the value's bits and above them its
sign, or zeros.  `narrow` makes such a word of any word, as a conversion to the type does; it
leaves those that are in the range of the type (`narrow_eq_self_iff`).

A word in memory is eight bytes, the lowest one first.  `ofBytes` puts bytes together,
`byte` takes one out, and `setLow` replaces the lowest byte with a mask, leaving the
others (`byte_setLow`).
-/
import Mathlib.Algebra.Order.Ring.Int
import Mathlib.Data.BitVec

namespace FlightRec

/-! ## Conversions -/

/-- The conversion to `uint64_t`. -/
def toUInt64 (i : Int) : Nat := (i % (2 ^ 64 : Nat)).toNat

/-- The conversion of a `uint64_t` to `int`. -/
def toInt (n : Nat) : Int := (n : Int).bmod (2 ^ 32)

/-- The conversion of a `uint64_t` to `int64_t`. -/
def toInt64 (n : Nat) : Int := (n : Int).bmod (2 ^ 64)

theorem toUInt64_of_lt {i : Int} (h0 : 0 ≤ i) (h : i < 2 ^ 64) : toUInt64 i = i.toNat := by
  unfold toUInt64
  rw [Int.emod_eq_of_lt h0 (by omega)]

theorem toInt_of_lt {n : Nat} (h : n < 2 ^ 31) : toInt n = n := by
  unfold toInt
  rw [Int.bmod_eq_of_le] <;> omega

theorem toInt64_of_lt {n : Nat} (h : n < 2 ^ 63) : toInt64 n = n := by
  unfold toInt64
  rw [Int.bmod_eq_of_le] <;> omega

theorem toInt_lt (n : Nat) : toInt n < 2 ^ 31 := by
  have := Int.bmod_lt (x := (n : Int)) (m := 2 ^ 32) (by decide)
  unfold toInt
  omega

/-! ## Narrower types -/

namespace Narrow

variable {m : Nat}

/-- The conversion to a type of `w` bits. -/
def narrow (signed : Bool) (w : Nat) (v : BitVec m) : BitVec m :=
  if signed then (v.setWidth w).signExtend m else (v.setWidth w).setWidth m

/-- The range of a type of `w` bits. -/
def InRange (signed : Bool) (w : Nat) (v : BitVec m) : Prop :=
  if signed then -2 ^ (w - 1) ≤ v.toInt ∧ v.toInt < 2 ^ (w - 1) else v.toNat < 2 ^ w

instance (signed : Bool) (w : Nat) (v : BitVec m) : Decidable (InRange signed w v) := by
  unfold InRange
  infer_instance

theorem toInt_setWidth_eq {w : Nat} (hw : w ≤ m) (v : BitVec m) :
    (v.setWidth w).toInt = v.toInt.bmod (2 ^ w) := by
  rw [BitVec.toInt_setWidth, BitVec.toInt_eq_toNat_bmod v,
    Int.bmod_bmod_of_dvd (Nat.pow_dvd_pow 2 hw)]

theorem narrow_unsigned_iff {w : Nat} (hw : w ≤ m) {v : BitVec m} :
    (v.setWidth w).setWidth m = v ↔ v.toNat < 2 ^ w := by
  have hv := v.isLt
  have hle : 2 ^ w ≤ 2 ^ m := Nat.pow_le_pow_right Nat.two_pos hw
  rw [← BitVec.toNat_inj, BitVec.toNat_setWidth, BitVec.toNat_setWidth]
  constructor
  · intro h
    rw [← h]
    exact (Nat.mod_le _ _).trans_lt (Nat.mod_lt _ (Nat.two_pow_pos w))
  · intro h
    rw [Nat.mod_eq_of_lt h, Nat.mod_eq_of_lt hv]

theorem narrow_signed_iff {w : Nat} (hpos : 0 < w) (hw : w ≤ m) {v : BitVec m} :
    (v.setWidth w).signExtend m = v ↔ -2 ^ (w - 1) ≤ v.toInt ∧ v.toInt < 2 ^ (w - 1) := by
  rw [← BitVec.toInt_inj, BitVec.toInt_signExtend_of_le hw]
  constructor
  · intro h
    rw [← h]
    exact ⟨BitVec.le_toInt _, BitVec.toInt_lt⟩
  · rintro ⟨hlow, hhigh⟩
    have hdouble : (2 : Int) ^ w = 2 * 2 ^ (w - 1) := by
      rw [← pow_succ', Nat.sub_add_cancel hpos]
    rw [toInt_setWidth_eq hw]
    refine Int.bmod_eq_of_le ?_ ?_
    · push_cast
      omega
    · push_cast
      omega

/-- A conversion changes nothing exactly where the value is in the range of the type. -/
theorem narrow_eq_self_iff {signed : Bool} {w : Nat} (hpos : 0 < w) (hw : w ≤ m) {v : BitVec m} :
    narrow signed w v = v ↔ InRange signed w v := by
  cases signed with
  | false => exact narrow_unsigned_iff hw
  | true => exact narrow_signed_iff hpos hw

end Narrow

/-! ## Bytes -/

namespace Word

/-- The word of the first `n` bytes. -/
def ofBytes (b : Nat → BitVec 8) : Nat → BitVec 64
  | 0 => 0
  | n + 1 => ofBytes b n ||| (b n).setWidth 64 <<< (8 * n)

/-- Byte `i` of a word. -/
def byte (w : BitVec 64) (i : Nat) : BitVec 8 := w.extractLsb' (8 * i) 8

/-- `(w & ~0xFF) | c` -/
def setLow (w : BitVec 64) (c : BitVec 8) : BitVec 64 := (w &&& ~~~0xFF#64) ||| c.setWidth 64

theorem getLsbD_ofBytes (b : Nat → BitVec 8) (n : Nat) {k : Nat} (hk : k < 64) :
    (ofBytes b n).getLsbD k = if k / 8 < n then (b (k / 8)).getLsbD (k % 8) else false := by
  induction n with
  | zero => simp [ofBytes]
  | succ n ih =>
      rw [ofBytes, BitVec.getLsbD_or, ih, BitVec.getLsbD_shiftLeft, BitVec.getLsbD_setWidth]
      rcases Nat.lt_trichotomy (k / 8) n with hlt | heq | hgt
      · have hlow : k < 8 * n := by omega
        simp [hlt, hlow, Nat.lt_succ_of_lt hlt]
      · subst heq
        have hlow : ¬ k < 8 * (k / 8) := by omega
        have hmod : k - 8 * (k / 8) = k % 8 := by omega
        have hwidth : k % 8 < 64 := by omega
        simp [hlow, hk, hmod, hwidth]
      · have hno : ¬ k / 8 < n := by omega
        have hno' : ¬ k / 8 < n + 1 := by omega
        rw [BitVec.getLsbD_of_ge (b n) (k - 8 * n) (by omega)]
        simp [hno, hno']

theorem byte_ofBytes (b : Nat → BitVec 8) {i : Nat} (h : i < 8) : byte (ofBytes b 8) i = b i := by
  apply BitVec.eq_of_getLsbD_eq
  intro j hj
  rw [byte, BitVec.getLsbD_extractLsb', getLsbD_ofBytes b 8 (by omega),
    show (8 * i + j) / 8 = i by omega, show (8 * i + j) % 8 = j by omega]
  simp [hj, h]

theorem byte_setLow (w : BitVec 64) (c : BitVec 8) {i : Nat} (h : i < 8) :
    byte (setLow w c) i = if i = 0 then c else byte w i := by
  apply BitVec.eq_of_getLsbD_eq
  intro j hj
  have hwidth : 8 * i + j < 64 := by omega
  have hmask : (0xFF#64).getLsbD (8 * i + j) = decide (i = 0) := by
    rw [BitVec.getLsbD_ofNat, show (255 : Nat) = 2 ^ 8 - 1 from rfl, Nat.testBit_two_pow_sub_one,
      decide_eq_true hwidth, Bool.true_and]
    exact decide_eq_decide.mpr (by omega)
  rw [byte, setLow, BitVec.getLsbD_extractLsb', BitVec.getLsbD_or, BitVec.getLsbD_and,
    BitVec.getLsbD_not, hmask, BitVec.getLsbD_setWidth]
  rcases Nat.eq_zero_or_pos i with rfl | hi
  · have hj' : j < 64 := by omega
    simp [hj, hj']
  · have hne : i ≠ 0 := by omega
    rw [if_neg hne, byte, BitVec.getLsbD_extractLsb', BitVec.getLsbD_of_ge c _ (by omega)]
    simp [hne, hwidth]

end Word

end FlightRec
