/-
# `FlightRec.Lib.Leb128` — numbers in groups of seven bits

An unsigned number as bytes with seven of its bits each, the lowest first; the high bit
of a byte says that another one follows (`Encodes`).  Groups of zeros may follow the
highest, so a number has an encoding of any length that has room for it
(`encodes_padded`).

    all groups of an encoding    are the number              (`Encodes.value_eq`)
    the first k groups           are its remainder by 128^k  (`value_take`)
-/
import Mathlib.Data.BitVec

namespace FlightRec.Leb128

/-- The bytes are an encoding of the number. -/
inductive Encodes : List (BitVec 8) → Nat → Prop
  | last {b : BitVec 8} : b.toNat < 128 → Encodes [b] b.toNat
  | more {b : BitVec 8} {bytes : List (BitVec 8)} {n : Nat} : 128 ≤ b.toNat →
      Encodes bytes n → Encodes (b :: bytes) (b.toNat - 128 + 128 * n)

/-- The number in the groups, whatever the high bits. -/
def value (bytes : List (BitVec 8)) : Nat := bytes.foldr (fun b v => b.toNat % 128 + 128 * v) 0

/-- The encoding with `k` bytes before the last. -/
def padded : Nat → Nat → List (BitVec 8)
  | 0, n => [BitVec.ofNat 8 n]
  | k + 1, n => BitVec.ofNat 8 (128 + n % 128) :: padded k (n / 128)

section
variable {b : BitVec 8} {bytes : List (BitVec 8)} {n k : Nat}

@[simp] theorem value_nil : value [] = 0 := rfl

@[simp] theorem value_cons : value (b :: bytes) = b.toNat % 128 + 128 * value bytes := rfl

theorem value_lt (bytes : List (BitVec 8)) : value bytes < 128 ^ bytes.length := by
  induction bytes with
  | nil => exact Nat.one_pos
  | cons b bytes ih =>
      have hb : b.toNat % 128 < 128 := Nat.mod_lt _ (by decide)
      rw [value_cons, List.length_cons, Nat.pow_succ]
      omega

theorem value_take (k : Nat) : value (bytes.take k) = value bytes % 128 ^ k := by
  induction bytes generalizing k with
  | nil => rw [List.take_nil, value_nil, Nat.zero_mod]
  | cons b bytes ih =>
      cases k with
      | zero => rw [List.take_zero, value_nil, Nat.pow_zero, Nat.mod_one]
      | succ k =>
          have hlow : (b.toNat % 128 + 128 * value bytes) % 128 = b.toNat % 128 := by omega
          have hhigh : (b.toNat % 128 + 128 * value bytes) / 128 = value bytes := by omega
          rw [List.take_succ_cons, value_cons, value_cons, ih, Nat.pow_succ', Nat.mod_mul, hlow,
            hhigh]

/-! ## Encodings -/

theorem Encodes.ne_nil (h : Encodes bytes n) : bytes ≠ [] := by
  cases h with
  | last _ => exact List.cons_ne_nil _ _
  | more _ _ => exact List.cons_ne_nil _ _

theorem Encodes.value_eq (h : Encodes bytes n) : value bytes = n := by
  induction h with
  | last hb => rw [value_cons, value_nil, Nat.mod_eq_of_lt hb]; rfl
  | @more b bytes n hb _ ih =>
      have hlt := b.isLt
      rw [value_cons, ih]
      omega

@[simp] theorem length_padded : (padded k n).length = k + 1 := by
  induction k generalizing n with
  | zero => rfl
  | succ k ih => rw [padded, List.length_cons, ih]

theorem encodes_padded (h : n < 128 ^ (k + 1)) : Encodes (padded k n) n := by
  induction k generalizing n with
  | zero =>
      have hn : (BitVec.ofNat 8 n).toNat = n := by
        rw [BitVec.toNat_ofNat, Nat.mod_eq_of_lt (by omega)]
      have hlast := Encodes.last (b := BitVec.ofNat 8 n) (by omega)
      rwa [hn] at hlast
  | succ k ih =>
      have hb : (BitVec.ofNat 8 (128 + n % 128)).toNat = 128 + n % 128 := by
        rw [BitVec.toNat_ofNat, Nat.mod_eq_of_lt (by omega)]
      have hrest : Encodes (padded k (n / 128)) (n / 128) :=
        ih (Nat.div_lt_of_lt_mul (by rwa [← Nat.pow_succ']))
      have hmore := Encodes.more (b := BitVec.ofNat 8 (128 + n % 128)) (by omega) hrest
      have hsum : 128 + n % 128 - 128 + 128 * (n / 128) = n := by omega
      rwa [hb, hsum] at hmore

end

end FlightRec.Leb128
