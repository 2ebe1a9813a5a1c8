/-
# `FlightRec.Record.Attributes` — numbers in debug information

An attribute of a DIE has a value in one of several forms, and `get_attrs` of
record/dbginfo.c reads it by the form.  Those of one, two, four and eight bytes do not
say whether the number in them has a sign: for three attributes it is read without one,
for all others with a sign (`toNat_signExtend_data`).

What is read into a variable is a word; SQLite stores it as a number with a sign.
-/
import FlightRec.Lib.Words
import Mathlib.Data.BitVec

namespace FlightRec

/-! ## Attributes -/

/-- Attributes with numbers, `DW_AT_…`. -/
inductive DieAttr where
  | lowPc
  | highPc
  | ranges
  | external
  | type
  | byteSize
  | declFile
  | declLine
  | constValue
  | dataMemberLocation
  deriving DecidableEq, Repr

/-- `DW_FORM_data1` to `DW_FORM_data8` -/
inductive DataForm where
  | data1
  | data2
  | data4
  | data8
  deriving DecidableEq, Repr

def DataForm.bits : DataForm → Nat
  | .data1 => 8
  | .data2 => 16
  | .data4 => 32
  | .data8 => 64

/-- The value of an attribute, by its form.  References are global offsets. -/
inductive FormValue where
  | udata (n : BitVec 64)
  | data (form : DataForm) (raw : BitVec form.bits)
  | sdata (n : BitVec 64)
  | addr (a : BitVec 64)
  | ref (offset : BitVec 64)
  | flag (b : Bool)
  | block (bytes : List (BitVec 8))
  | unsupported
  deriving Repr

/-- A DIE: its offset, `DW_AT_name`, and the attributes with numbers that it has. -/
structure Die where
  offset : Nat
  name : Option String
  attrs : DieAttr → Option FormValue

/-- The attributes whose `dataX` forms are read with `dwarf_formudata`. -/
def DieAttr.isUnsigned : DieAttr → Bool
  | .declLine => true
  | .declFile => true
  | .byteSize => true
  | _ => false

/-- `DW_OP_plus_uconst` -/
def dwOpPlusUconst : BitVec 8 := 0x23

/-- Every byte encodes seven bits, the lowest first. -/
def uconst (bytes : List (BitVec 8)) : BitVec 64 :=
  bytes.foldr (fun byte value => (value <<< 7) + (byte &&& 0x7f).setWidth 64) 0

/-- The loop over the bytes behind the opcode; it starts at the last, but the index is an `int`. -/
def plusUconst (bytes : List (BitVec 8)) : BitVec 64 :=
  uconst (bytes.take (toInt bytes.length).toNat)

/-- The body of the loop of `get_attrs`: what it leaves in a variable that was `old`. -/
def FormValue.read (attr : DieAttr) (old : BitVec 64) : FormValue → BitVec 64
  | .udata n => n
  | .data _ raw => if attr.isUnsigned then raw.setWidth 64 else raw.signExtend 64
  | .sdata n => n
  | .addr a => a
  | .ref offset => offset
  | .flag b => if b then 1 else 0
  | .block (op :: byte :: bytes) => if op = dwOpPlusUconst then plusUconst (byte :: bytes) else old
  | .block _ => old
  | .unsupported => old

/-- A variable of `attr_list` that was 0 before. -/
def Die.get (d : Die) (attr : DieAttr) : BitVec 64 :=
  match d.attrs attr with
  | none => 0
  | some v => v.read attr 0

/-- `ATTR_PRESENT` -/
def Die.present (d : Die) (attr : DieAttr) : Bool := (d.attrs attr).isSome

/-! ## Reading -/

theorem Die.get_of_attrs {d : Die} {attr : DieAttr} {v : FormValue} (h : d.attrs attr = some v) :
    d.get attr = v.read attr 0 := by
  unfold Die.get
  rw [h]

theorem DataForm.bits_pos (form : DataForm) : 0 < form.bits := by
  cases form <;> decide

theorem DataForm.bits_le (form : DataForm) : form.bits ≤ 64 := by
  cases form <;> decide

section
variable {form : DataForm} {n : Nat}

/-- A number in the upper half of the form becomes a number at the upper end of the words. -/
theorem toNat_signExtend_data (h : n < 2 ^ form.bits) :
    ((BitVec.ofNat form.bits n).signExtend 64).toNat =
      if n < 2 ^ (form.bits - 1) then n else 2 ^ 64 - 2 ^ form.bits + n := by
  have hle : 2 ^ form.bits ≤ 2 ^ 64 := Nat.pow_le_pow_right Nat.two_pos form.bits_le
  rw [BitVec.toNat_signExtend, BitVec.toNat_setWidth, BitVec.msb_eq_decide, BitVec.toNat_ofNat,
    Nat.mod_eq_of_lt h, Nat.mod_eq_of_lt (Nat.lt_of_lt_of_le h hle)]
  by_cases hlow : n < 2 ^ (form.bits - 1)
  · rw [if_pos hlow, decide_eq_false (Nat.not_le.mpr hlow), if_neg Bool.false_ne_true, Nat.add_zero]
  · rw [if_neg hlow, decide_eq_true (Nat.le_of_not_lt hlow), if_pos rfl, Nat.add_comm]

theorem toInt_signExtend_data (h : n < 2 ^ form.bits) :
    ((BitVec.ofNat form.bits n).signExtend 64).toInt =
      if n < 2 ^ (form.bits - 1) then (n : Int) else n - (2 ^ form.bits : Nat) := by
  have hdouble : 2 ^ form.bits = 2 * 2 ^ (form.bits - 1) := by
    rw [← Nat.pow_succ', Nat.succ_eq_add_one, Nat.sub_add_cancel form.bits_pos]
  rw [BitVec.toInt_signExtend_of_le form.bits_le, BitVec.toInt_eq_toNat_cond, BitVec.toNat_ofNat,
    Nat.mod_eq_of_lt h]
  by_cases hlow : n < 2 ^ (form.bits - 1)
  · rw [if_pos hlow, if_pos (by omega)]
  · rw [if_neg hlow, if_neg (by omega)]

end

end FlightRec
