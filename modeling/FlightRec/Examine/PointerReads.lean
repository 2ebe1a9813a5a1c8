/-
# `FlightRec.Examine.PointerReads` — pointers that are read in part

A node of a pointer has the size of what it points to.  `var_value` of
examine/expressions/expression.c asks `get_var_value` for so many bytes, and takes eight
from the buffer that it gets.  The buffer has one byte more than was asked for, which is 0;
the bytes behind it belong to the heap of the debugger.

So a pointer to something smaller than a pointer is read right only by chance
(`pointer_read_iff`).
-/
import FlightRec.Examine.Agreement
import FlightRec.Examine.Holes
import FlightRec.Expressions.Lvalues

namespace FlightRec.Agreement

open Expressions Chunks

/-! ## Words -/

/-- Every byte of a word at the address is recorded. -/
def WordRecorded (mem : List MemMsg) (step addr : Nat) : Prop :=
  ∀ i < 8, (recordedByte mem step (addr + i)).isSome

/-- The word that is recorded at the address. -/
def recordedWord (mem : List MemMsg) (step addr : Nat) : NodeValue :=
  BitVec.ofNat 64 (load (fun i => recorded mem step (addr + i)) 8)

/-- The bytes behind those that are asked for are what the buffer has there. -/
def RestByChance (heap : Nat → UInt8) (mem : List MemMsg) (step addr size : Nat) : Prop :=
  recorded mem step (addr + size) = 0 ∧
    ∀ i, size < i → i < 8 → recorded mem step (addr + i) = heap i

section
variable {mem : List MemMsg} {step addr size i : Nat}

theorem recordedByte_lt (h : Segments mem) (hbyte : (recordedByte mem step addr).isSome) :
    addr < 2 ^ 56 + memSegmentSize := by
  obtain ⟨b, hb⟩ := Option.isSome_iff_exists.mp hbyte
  obtain ⟨m, hrow, _⟩ := Option.bind_eq_some_iff.mp hb
  obtain ⟨hmem, _, haddress⟩ := latestRow_mem hrow
  have huser := h.user m hmem
  unfold memSegmentSize at *
  omega

/-- The bytes that are asked for are read if the range starts with a recorded word. -/
theorem WordRecorded.read (hword : WordRecorded mem step addr) (h : Segments mem)
    (hsize : size < 2 ^ 56) (hi : i < size) (hi8 : i < 8) :
    (getVarValue mem addr size step)[i]? = some (recorded mem step (addr + i)) := by
  have hrange : addr + size < addressSpace := by
    have haddr := recordedByte_lt h (hword 0 (by decide))
    unfold addressSpace memSegmentSize at *
    omega
  have hslice {j : Nat} (hj : j < size) :
      (slice (recordedByte mem step) addr (addr + size))[j]? =
        some (recordedByte mem step (addr + j)) := by
    rw [slice, List.getElem?_map, List.getElem?_range' (by omega), Option.map_some, Nat.one_mul]
  rw [h.getVarValue_get hsize hrange hi]
  refine congrArg some (Gaps.getD_of_front ?_ fun a ha => ?_)
  · obtain ⟨b, hb⟩ := Option.isSome_iff_exists.mp (hword i hi8)
    rw [hslice hi, recorded, hb]
    rfl
  · obtain ⟨j, hj, rfl⟩ := List.getElem_of_mem ha
    rw [List.length_take] at hj
    have hplace := hslice (j := j) (by omega)
    rw [List.getElem_take, (List.getElem?_eq_some_iff.mp hplace).2]
    exact hword j (by omega)

/-- The byte behind those that are asked for is 0, whatever is recorded of them. -/
theorem getVarValue_terminator (h : Segments mem) (hsize : size < 2 ^ 56)
    (hrange : addr + size < addressSpace) :
    (getVarValue mem addr size step)[size]? = some 0 ∧
      (getVarValue mem addr size step).length = size + 1 := by
  have haddr : addr % addressSpace = addr := Nat.mod_eq_of_lt (by omega)
  have hcopied : (slice (recordedByte mem step) addr (addr + size)).reduceOption.length ≤ size := by
    refine (List.reduceOption_length_le _).trans_eq ?_
    rw [slice, List.length_map, List.length_range', Nat.add_sub_cancel_left]
  rw [getVarValue, haddr, h.copied_eq hsize hrange]
  constructor
  · rw [List.getElem?_append_right hcopied, List.getElem?_replicate_of_lt (by omega)]
  · rw [List.length_append, List.length_replicate]
    omega

theorem WordRecorded.buffer (hword : WordRecorded mem step addr) (h : Segments mem)
    (hsize : size < 2 ^ 56) (heap : Nat → UInt8) (hi : i < 8) :
    (getVarValue mem addr size step).getD i (heap i) =
      if i < size then recorded mem step (addr + i) else if i = size then 0 else heap i := by
  have hrange : addr + size < addressSpace := by
    have haddr := recordedByte_lt h (hword 0 (by decide))
    unfold addressSpace memSegmentSize at *
    omega
  have hends : (getVarValue mem addr size step)[size]? = some 0 ∧ _ :=
    getVarValue_terminator h hsize hrange
  obtain ⟨hzero, hlength⟩ := hends
  rw [List.getD_eq_getElem?_getD]
  rcases Nat.lt_trichotomy i size with hlt | rfl | hgt
  · rw [if_pos hlt, hword.read h hsize hlt hi, Option.getD_some]
  · rw [if_neg (Nat.lt_irrefl i), if_pos rfl, hzero, Option.getD_some]
  · rw [if_neg (Nat.not_lt_of_lt hgt), if_neg (Nat.ne_of_gt hgt),
      List.getElem?_eq_none (by omega), Option.getD_none]

/-- The word is read exactly if all of it is asked for, or the rest is right by chance. -/
theorem WordRecorded.word_iff (hword : WordRecorded mem step addr) (h : Segments mem)
    (hsize : size < 2 ^ 56) (heap : Nat → UInt8) :
    load (fun i => (getVarValue mem addr size step).getD i (heap i)) 8 =
        load (fun i => recorded mem step (addr + i)) 8 ↔
      8 ≤ size ∨ RestByChance heap mem step addr size := by
  have hbuffer {i : Nat} (hi : i < 8) := hword.buffer h hsize heap hi
  rw [load_inj]
  constructor
  · intro hall
    refine (Nat.lt_or_ge size 8).symm.imp_right fun hlt => ⟨?_, fun i hgt hi => ?_⟩
    · rw [← hall size hlt, hbuffer hlt, if_neg (Nat.lt_irrefl size), if_pos rfl]
    · rw [← hall i hi, hbuffer hi, if_neg (Nat.not_lt_of_lt hgt), if_neg (Nat.ne_of_gt hgt)]
  · rintro hcases i hi
    rw [hbuffer hi]
    rcases Nat.lt_trichotomy i size with hlt | rfl | hgt
    · exact if_pos hlt
    · rw [if_neg (Nat.lt_irrefl i), if_pos rfl]
      rcases hcases with hge | hchance
      · omega
      · exact hchance.1.symm
    · rw [if_neg (Nat.not_lt_of_lt hgt), if_neg (Nat.ne_of_gt hgt)]
      rcases hcases with hge | hchance
      · omega
      · exact (hchance.2 i hgt hi).symm

end

/-! ## Pointers -/

theorem word_inj {f g : Nat → UInt8} :
    BitVec.ofNat 64 (load f 8) = BitVec.ofNat 64 (load g 8) ↔ load f 8 = load g 8 := by
  have hf : load f 8 < 2 ^ 64 := load_lt f 8
  have hg : load g 8 < 2 ^ 64 := load_lt g 8
  rw [← BitVec.toNat_inj, BitVec.toNat_ofNat, BitVec.toNat_ofNat, Nat.mod_eq_of_lt hf,
    Nat.mod_eq_of_lt hg]

theorem varValue_pointer {env : Env} {step : Nat} {a : Attrs} (hpointer : a.indirect ≠ 0)
    {mem : List MemMsg} (hmem : env.mem = some mem) {addr : NodeValue} {s : Status} :
    varValue env a addr step s = some (BitVec.ofNat 64 (load (fun i =>
      (getVarValue mem addr.toNat a.size step).getD i (env.heap i)) 8), s) := by
  unfold varValue
  rw [hmem]
  dsimp only
  rw [if_pos hpointer]
  rfl

/-- A variable, a field or an item that is a pointer has the word that is recorded at its
address, exactly if what it points to is at least as large as a pointer or the bytes that
are not asked for are right by chance. -/
theorem pointer_read_iff {env : Env} {step : Nat} {n : AstNode} (hplace : n.hasAddress)
    (hpointer : n.indirect ≠ 0) {mem : List MemMsg} (hmem : env.mem = some mem)
    (h : Segments mem) {s s₁ : Status} {addr : NodeValue}
    (haddr : evaluateNode env step n .addr s = some (addr, s₁)) (hs₁ : s₁.error = none)
    (hword : WordRecorded mem step addr.toNat) (hsize : n.size < 2 ^ 56) :
    evaluateNode env step n .noFlags s = some (recordedWord mem step addr.toNat, s₁) ↔
      8 ≤ n.size ∨ RestByChance env.heap mem step addr.toNat n.size := by
  have hread : lvalue env n.attrs addr step .noFlags s₁ = some (BitVec.ofNat 64 (load (fun i =>
      (getVarValue mem addr.toNat n.size step).getD i (env.heap i)) 8), s₁) :=
    varValue_pointer hpointer hmem
  rw [← hword.word_iff h hsize env.heap, ← word_inj, readsPlace_node hplace .noFlags s _ s₁ hs₁]
  constructor
  · rintro ⟨addr', s₂, haddr', hrun⟩
    cases haddr.symm.trans haddr'
    exact (Prod.mk.inj (Option.some.inj (hread.symm.trans hrun))).1
  · intro hload
    refine ⟨addr, s₁, haddr, hread.trans ?_⟩
    rw [hload, recordedWord]

/-! ### Examples -/

/-- A variable whose eight bytes are 1 to 8. -/
def wordRecording : Env :=
  { noRecording with
    mem := some oneSegment
    varAddress := fun _ _ => some 64 }

/-- A pointer `p` to something of the size. -/
def pointerTables (size : Nat) : Tables :=
  { noTables with varDetails := fun _ _ => some (1, ⟨5, .signed, size, 1⟩) }

def pointerVar (size : Nat) : AstNode := .var ⟨5, .signed, size, 1⟩ "p" 1

theorem wordRecorded_oneSegment : WordRecorded oneSegment 1 64 := by
  intro i hi
  have hall : ∀ i < 8, (recordedByte oneSegment 1 (64 + i)).isSome := by decide
  exact hall i hi

/-- A pointer to an integer of 8 bytes. -/
theorem pointer_read_iff_long :
    evaluateNode wordRecording 1 (pointerVar 8) .noFlags {} = some (0x0807060504030201, {}) := by
  have haddr : evaluateNode wordRecording 1 (pointerVar 8) .addr {} = some (64, {}) := rfl
  exact (pointer_read_iff (n := pointerVar 8) rfl (by decide) rfl oneSegment_segments haddr rfl
    wordRecorded_oneSegment (by decide)).mpr (.inl (by decide))

/-- Of a pointer to one byte, one byte is read. -/
theorem char_pointer_truncated :
    (Expr.identifier "p").ast (pointerTables 1) 0 = .ok (pointerVar 1) ∧
      WordRecorded oneSegment 1 64 ∧ recordedWord oneSegment 1 64 = 0x0807060504030201 ∧
      evaluateNode wordRecording 1 (pointerVar 1) .addr {} = some (64, {}) ∧
      evaluateNode wordRecording 1 (pointerVar 1) .noFlags {} = some (1, {}) :=
  ⟨rfl, wordRecorded_oneSegment, by decide, rfl, rfl⟩

end FlightRec.Agreement
