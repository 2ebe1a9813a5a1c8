/-
# `FlightRec.Lib.Lanes` — comparing vectors of bytes

A vector is a function from its byte numbers.  The instructions that compare two vectors
give a mask: a byte of ones for each equal byte (`cmpeqEpi8`) of which the highest bits are
then gathered (`movemaskEpi8`), or a bit for each equal lane of 64 bits (`cmpeqEpi64Mask`)
which is then tested (`kortestz`).

The gathered mask has all its bits iff the vectors are equal (`movemask_cmpeq_iff`); the
test of the lanes is cleared iff some lane is equal (`kortestz_cmpeq_iff`), so it does not
tell equal vectors from others.
-/
import Mathlib.Data.BitVec

namespace FlightRec.Lanes

/-- The word of `n` bits, the lowest first. -/
def ofBits {n : Nat} (f : Fin n → Bool) : BitVec n :=
  (BitVec.ofBoolListLE (List.ofFn f)).setWidth n

@[simp] theorem getElem_ofBits {n : Nat} (f : Fin n → Bool) {i : Nat} (hi : i < n) :
    (ofBits f)[i] = f ⟨i, hi⟩ := by
  rw [ofBits, BitVec.getElem_setWidth, BitVec.getLsbD_ofBoolListLE]
  simp [hi]

theorem ofBits_inj {n : Nat} {f g : Fin n → Bool} : ofBits f = ofBits g ↔ f = g := by
  constructor
  · intro h
    funext i
    have hbit := congrArg (fun w => w[(i : Nat)]) h
    simpa using hbit
  · rintro rfl
    rfl

theorem allOnes_eq_ofBits (n : Nat) : BitVec.allOnes n = ofBits fun _ => true := by
  apply BitVec.eq_of_getElem_eq
  intro i hi
  simp

theorem zero_eq_ofBits (n : Nat) : 0#n = ofBits fun _ => false := by
  apply BitVec.eq_of_getElem_eq
  intro i hi
  simp

/-- A vector of `n` bytes. -/
abbrev Vec (n : Nat) := Fin n → BitVec 8

/-- `_mm_cmpeq_epi8` and `_mm256_cmpeq_epi8`. -/
def cmpeqEpi8 {n : Nat} (a b : Vec n) : Vec n := fun i => if a i = b i then 0xFF#8 else 0#8

/-- `_mm_movemask_epi8` and `_mm256_movemask_epi8`: an `int` of the highest bits. -/
def movemaskEpi8 {n : Nat} (v : Vec n) : BitVec 32 := (ofBits fun i => (v i).msb).setWidth 32

/-- The 64 bits of eight bytes, the lowest byte first. -/
def qword (v : Vec 8) : BitVec 64 :=
  ofBits fun j => (v ⟨j / 8, by omega⟩).getLsbD (j % 8)

/-- Lane `k` of 64 bits. -/
def lane (v : Vec 64) (k : Fin 8) : BitVec 64 := qword fun i => v ⟨8 * k + i, by omega⟩

/-- `_mm512_cmpeq_epi64_mask` -/
def cmpeqEpi64Mask (a b : Vec 64) : BitVec 8 := ofBits fun k => decide (lane a k = lane b k)

/-- `_kortestz_mask8_u8`: whether the `or` of the masks is all zeros. -/
def kortestz (a b : BitVec 8) : Bool := a ||| b == 0#8

theorem msb_cmpeqEpi8 {n : Nat} (a b : Vec n) (i : Fin n) :
    (cmpeqEpi8 a b i).msb = decide (a i = b i) := by
  rw [cmpeqEpi8]
  split
  · rw [decide_eq_true ‹_›]
    rfl
  · rw [decide_eq_false ‹_›]
    rfl

theorem movemask_cmpeq_iff {n : Nat} (a b : Vec n) (hn : n ≤ 32) :
    (BitVec.allOnes n).setWidth 32 = movemaskEpi8 (cmpeqEpi8 a b) ↔ a = b := by
  have narrow (w : BitVec n) : (w.setWidth 32).setWidth n = w := by
    rw [BitVec.setWidth_setWidth_of_le w hn, BitVec.setWidth_eq]
  have hmask : movemaskEpi8 (cmpeqEpi8 a b) =
      (ofBits fun i => decide (a i = b i)).setWidth 32 := by
    simp only [movemaskEpi8, msb_cmpeqEpi8]
  rw [hmask]
  constructor
  · intro h
    have hbits := congrArg (BitVec.setWidth n) h
    rw [narrow, narrow, allOnes_eq_ofBits, ofBits_inj] at hbits
    funext i
    simpa using (congrFun hbits i).symm
  · rintro rfl
    simp only [decide_true]
    rw [allOnes_eq_ofBits]

theorem qword_inj {a b : Vec 8} : qword a = qword b ↔ a = b := by
  constructor
  · intro h
    have hbits := ofBits_inj.mp h
    funext i
    apply BitVec.eq_of_getLsbD_eq
    intro j hj
    have hbit := congrFun hbits ⟨8 * i + j, by omega⟩
    have hdiv : (8 * (i : Nat) + j) / 8 = i := by omega
    have hmod : (8 * (i : Nat) + j) % 8 = j := by omega
    simpa only [hdiv, hmod] using hbit
  · rintro rfl
    rfl

/-- The test is cleared iff some lane of the vectors is equal. -/
theorem kortestz_cmpeq_iff (a b : Vec 64) :
    kortestz 0#8 (cmpeqEpi64Mask a b) = false ↔ ∃ k, lane a k = lane b k := by
  have hzero : cmpeqEpi64Mask a b = 0#8 ↔ ∀ k, lane a k ≠ lane b k := by
    rw [cmpeqEpi64Mask, zero_eq_ofBits, ofBits_inj, funext_iff]
    simp
  rw [kortestz, BitVec.zero_or, beq_eq_false_iff_ne, ne_eq, hzero]
  simp

end FlightRec.Lanes
