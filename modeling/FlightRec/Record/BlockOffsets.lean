/-
# `FlightRec.Record.BlockOffsets` — offsets in blocks

In DWARF 2 the offset of a member is a block: `DW_OP_plus_uconst`, and the offset as a
LEB128 number.  `get_attrs` (record/dbginfo.c) goes through the block from the last byte
to the second, shifts the value by seven bits and adds the low bits of the byte.  Bits
that are shifted out of the word belong to groups of zeros, for an offset of 64 bits.

The index is an `int`, which an index of `2 ^ 31` or more is not: the loop begins where
the converted number says, and not at all if that is negative.  So it reads the offset if
there is nothing behind this byte (`block_read_iff`), as in all blocks that are not as
long as this (`block_read_of_short`).
-/
import FlightRec.Lib.Leb128
import FlightRec.Record.Attributes

namespace FlightRec.BlockOffsets

open Leb128

/-! ## Blocks -/

/-- An offset with an encoding of it, which may be padded. -/
structure Offset where
  n : Nat
  fits : n < 2 ^ 64
  bytes : List (BitVec 8)
  encodes : Encodes bytes n

/-- `DW_AT_data_member_location` in the form of a block. -/
def Offset.block (e : Offset) : FormValue := .block (dwOpPlusUconst :: e.bytes)

/-- How many bytes the loop goes through: an `int`. -/
def Offset.loops (e : Offset) : Nat := (toInt e.bytes.length).toNat

/-! ## The loop -/

theorem toNat_uconst (bytes : List (BitVec 8)) :
    (uconst bytes).toNat = value bytes % 2 ^ 64 := by
  induction bytes with
  | nil => rfl
  | cons b bytes ih =>
      have hb := b.isLt
      have hlow : ((b &&& 0x7f).setWidth 64).toNat = b.toNat % 128 := by
        rw [BitVec.toNat_setWidth, BitVec.toNat_and]
        have hand : b.toNat &&& 127 = b.toNat % 128 := Nat.and_two_pow_sub_one_eq_mod b.toNat 7
        change (b.toNat &&& 127) % 2 ^ 64 = b.toNat % 128
        omega
      have hcons : uconst (b :: bytes) = (uconst bytes <<< 7) + (b &&& 0x7f).setWidth 64 := rfl
      rw [hcons, BitVec.toNat_add, BitVec.toNat_shiftLeft, hlow, ih, Nat.shiftLeft_eq, value_cons]
      omega

theorem Offset.read_block (e : Offset) (attr : DieAttr) (old : BitVec 64) :
    e.block.read attr old = plusUconst e.bytes := by
  have hne := e.encodes.ne_nil
  unfold Offset.block
  cases hbytes : e.bytes with
  | nil => exact absurd hbytes hne
  | cons byte bytes => rw [FormValue.read, if_pos rfl]

theorem Offset.toNat_read (e : Offset) (attr : DieAttr) (old : BitVec 64) :
    (e.block.read attr old).toNat = e.n % 128 ^ e.loops := by
  have hle : e.n % 128 ^ e.loops < 2 ^ 64 := (Nat.mod_le _ _).trans_lt e.fits
  have htake : value (e.bytes.take e.loops) = e.n % 128 ^ e.loops := by
    rw [value_take, e.encodes.value_eq]
  calc (e.block.read attr old).toNat = (plusUconst e.bytes).toNat := by rw [e.read_block]
    _ = value (e.bytes.take e.loops) % 2 ^ 64 := toNat_uconst _
    _ = e.n % 128 ^ e.loops := by rw [htake, Nat.mod_eq_of_lt hle]

/-- **Offsets** are read right if they fit into the bytes that the loop goes through. -/
theorem block_read_iff (e : Offset) (attr : DieAttr) (old : BitVec 64) :
    (e.block.read attr old).toNat = e.n ↔ e.n < 128 ^ e.loops := by
  rw [e.toNat_read]
  constructor
  · intro h
    rw [← h]
    exact Nat.mod_lt _ (Nat.pow_pos (by decide))
  · exact Nat.mod_eq_of_lt

theorem block_read_of_short (e : Offset) (attr : DieAttr) (old : BitVec 64)
    (h : e.bytes.length < 2 ^ 31) : (e.block.read attr old).toNat = e.n := by
  have hloops : e.loops = e.bytes.length := by
    rw [Offset.loops, toInt_of_lt h, Int.toNat_natCast]
  have hvalue := value_lt e.bytes
  rw [e.toNat_read, hloops]
  rw [e.encodes.value_eq] at hvalue
  exact Nat.mod_eq_of_lt hvalue

/-- The offset 5 in `2 ^ 31` bytes. -/
def longFive : Offset where
  n := 5
  fits := by decide
  bytes := padded (2 ^ 31 - 1) 5
  encodes := encodes_padded (lt_of_lt_of_le (by decide) (Nat.le_self_pow (by decide) 128))

/-- The loop does not begin. -/
theorem block_read_longFive :
    (longFive.block.read .dataMemberLocation 0).toNat = 0 ∧
      ¬ (longFive.block.read .dataMemberLocation 0).toNat = longFive.n := by
  have hloops : longFive.loops = 0 := by
    rw [Offset.loops, longFive, length_padded]
    decide
  have hread : (longFive.block.read .dataMemberLocation 0).toNat = 0 := by
    rw [Offset.toNat_read, hloops, Nat.pow_zero, Nat.mod_one]
  refine ⟨hread, ?_⟩
  rw [hread]
  exact Nat.zero_ne_add_one 4

end FlightRec.BlockOffsets
