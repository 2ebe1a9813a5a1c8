/-
# `FlightRec.Examine.MemberOffsets` — where the fields of a struct are

`DW_AT_data_member_location` is the offset of a member in its struct.  `get_attrs`
(record/dbginfo.c) reads it by its form, and of the forms of one, two, four and eight
bytes with a sign.  `proc_aggr_member` stores what was read as a `long`; Examine fetches
it without a sign and adds it to the address of the struct, in `add_var_fields` of
examine/vars.c (`addVarFields_eq`) as in `evaluate_node` of
examine/expressions/expression.c (`evaluateNode_field_addr`).

So offsets in the upper half of their form lie before the struct (`start_iff`).
-/
import FlightRec.Examine.Refs
import FlightRec.Expressions.Evaluate
import FlightRec.Lib.Words
import FlightRec.Record.Attributes

namespace FlightRec.MemberOffsets

open Expressions Query

/-! ## The code -/

/-- A row of `member` as it is inserted. -/
structure MemberColumns where
  unitId : Nat
  offset : Nat
  name : Option String
  type : Nat
  start : Int
  value : Int
  deriving DecidableEq, Repr

/-- `proc_aggr_member` -/
def procAggrMember (unitId offset : Nat) (d : Die) : MemberColumns where
  unitId := unitId
  offset := offset
  name := d.name
  type := (d.get .type).toNat
  start := (d.get .dataMemberLocation).toInt
  value := 0

/-- The columns that Examine reads; `start` is fetched as a `ULONG`. -/
def MemberColumns.fetched (r : MemberColumns) : MemberRow where
  offset := r.offset
  name := r.name
  start := toUInt64 r.start
  type := r.type

/-- Where a field is, in a struct at the address. -/
def fieldAddress (address start : Nat) : Nat := (address + start) % 2 ^ 64

/-! ## Members -/

/-- The forms of `DW_AT_data_member_location` that are constants without a sign. -/
inductive OffsetForm where
  | data (form : DataForm)
  | udata
  deriving DecidableEq, Repr

/-- The form has room for the offset. -/
def OffsetForm.Holds (n : Nat) : OffsetForm → Prop
  | .data form => n < 2 ^ form.bits
  | .udata => n < 2 ^ 64

/-- `DW_AT_data_member_location` as the compiler writes it. -/
def OffsetForm.value (n : Nat) : OffsetForm → FormValue
  | .data form => .data form (BitVec.ofNat form.bits n)
  | .udata => .udata (BitVec.ofNat 64 n)

/-- The DIE of a member that is `n` bytes behind the beginning of its aggregate. -/
structure MemberDie extends Die where
  n : Nat
  form : OffsetForm
  holds : form.Holds n
  location : attrs .dataMemberLocation = some (form.value n)

/-- The offset is stored, and the field lies in the aggregate, wherever that is. -/
structure MemberColumns.At (r : MemberColumns) (n : Nat) : Prop where
  start : r.start = n
  inside : ∀ address size, n < size → address + size ≤ 2 ^ 64 →
    address ≤ fieldAddress address r.fetched.start ∧
      fieldAddress address r.fetched.start < address + size

/-- The offset is in the lower half of the form. -/
def OffsetForm.LowerHalf (n : Nat) : OffsetForm → Prop
  | .data form => n < 2 ^ (form.bits - 1)
  | .udata => n < 2 ^ 63

/-! ## Readers -/

section
variable {info : DebugInfo} {curStep : Nat}

theorem addVarFields_eq (refId : Nat) (refs : RefTable) :
    addVarFields info curStep refId refs = match refs.get refId with
      | none => (refs, [])
      | some target =>
          addEntries ((orderBy MemberRow.start
            (info.members.filter (·.offset = target.type))).map fun m =>
              addVarEntry info curStep
                { entity := .field refId m, parentType := 1, parent := refId, child := m.name }
                ⟨fieldAddress target.address m.start, m.type, 0⟩) refs := rfl

theorem evaluateNode_field_addr {env : Env} {step : Nat} {a : Attrs} {object : AstNode}
    {member : String} {start : Nat} {s s' : Status} {address : NodeValue}
    (hobject : evaluateNode env step object .addr s = some (address, s'))
    (hok : s'.error = none) :
    ∃ value, evaluateNode env step (.field a object member start) .addr s = some (value, s') ∧
      value.toNat = fieldAddress address.toNat start := by
  refine ⟨address + BitVec.ofNat 64 start, ?_, ?_⟩
  · change (evaluateNode env step object .addr s).bind _ = _
    rw [hobject, Option.bind_some]
    change (if s'.error.isSome = true then _ else _ : Eval NodeValue) s' = _
    rw [hok]
    rfl
  · rw [BitVec.toNat_add, BitVec.toNat_ofNat, Nat.add_mod_mod]
    rfl

end

/-! ## Offsets -/

section
variable {n : Nat}

/-- What is read of the attribute is the offset, in the lower half of the form. -/
theorem read_eq_iff {form : OffsetForm} (holds : form.Holds n) :
    ((form.value n).read .dataMemberLocation 0).toInt = n ↔ form.LowerHalf n := by
  cases form with
  | data form =>
      have hread : (FormValue.data form (BitVec.ofNat form.bits n)).read .dataMemberLocation 0 =
          (BitVec.ofNat form.bits n).signExtend 64 := rfl
      have hpos := Nat.two_pow_pos form.bits
      rw [OffsetForm.value, hread, toInt_signExtend_data holds, OffsetForm.LowerHalf]
      split
      · next hlow => exact iff_of_true rfl hlow
      · next hhigh => exact iff_of_false (by omega) hhigh
  | udata =>
      have holds : n < 2 ^ 64 := holds
      rw [OffsetForm.value, FormValue.read, OffsetForm.LowerHalf, BitVec.toInt_eq_toNat_cond,
        BitVec.toNat_ofNat, Nat.mod_eq_of_lt holds]
      split
      · next hlow => exact iff_of_true rfl (by omega)
      · next hhigh => exact iff_of_false (by omega) (by omega)

theorem inside_of_start {r : MemberColumns} (h : r.start = n) {address size : Nat}
    (hn : n < size) (hfits : address + size ≤ 2 ^ 64) :
    fieldAddress address r.fetched.start = address + n := by
  have hstart : r.fetched.start = n := by
    rw [MemberColumns.fetched, h, toUInt64_of_lt (by omega) (by omega)]
    rfl
  rw [fieldAddress, hstart, Nat.mod_eq_of_lt (by omega)]

end

/-- **Offsets of members.**  A member is stored with its offset, and found in its aggregate,
exactly if the offset is in the lower half of its form. -/
theorem start_iff (unitId offset : Nat) (m : MemberDie) :
    (procAggrMember unitId offset m.toDie).At m.n ↔ m.form.LowerHalf m.n := by
  have hget : m.toDie.get .dataMemberLocation = (m.form.value m.n).read .dataMemberLocation 0 :=
    Die.get_of_attrs m.location
  rw [← read_eq_iff m.holds, ← hget]
  constructor
  · intro h
    exact h.start
  · intro hstart
    refine ⟨hstart, fun address size hn hfits => ?_⟩
    rw [inside_of_start hstart hn hfits]
    exact ⟨Nat.le_add_right .., Nat.add_lt_add_left hn address⟩

/-- A member behind an array of 200 bytes, with its offset in `DW_FORM_data1`. -/
def behindArray : MemberDie where
  offset := 0x58
  name := some "next"
  attrs
    | .type => some (.ref 0x2d)
    | .dataMemberLocation => some (.data .data1 (BitVec.ofNat 8 200))
    | _ => none
  n := 200
  form := .data .data1
  holds := show 200 < 2 ^ 8 by decide
  location := rfl

/-- It is stored at -56, and looked for before the struct. -/
theorem start_behindArray :
    (procAggrMember 1 0x40 behindArray.toDie).start = -56 ∧
      fieldAddress 0x1000 (procAggrMember 1 0x40 behindArray.toDie).fetched.start = 0x1000 - 56 ∧
      ¬ (procAggrMember 1 0x40 behindArray.toDie).At behindArray.n := by
  refine ⟨by decide, by decide, fun h => ?_⟩
  exact absurd h.start (by decide)

end FlightRec.MemberOffsets
