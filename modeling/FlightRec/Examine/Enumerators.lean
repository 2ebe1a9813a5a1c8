/-
# `FlightRec.Examine.Enumerators` — names for the values of an enum

A constant goes from the debug information to the screen in four steps.  `get_attrs` of
record/dbginfo.c reads it by its form; those of one, two, four and eight bytes do not say
whether they have a sign, and are read as if they had one.  It is stored in 64 bits.
`add_var_entry` reads the value of a variable without a sign, in as many bytes as the enum
has, and binds it to the query in 32 bits with a sign.

So the numbers that are compared are equal for some constants only (`read_eq_bind_iff`),
and the value is shown without its sign (`enumerator_shows_iff`).
-/
import FlightRec.Examine.Entries
import FlightRec.Record.Attributes

namespace FlightRec.Entries

open Agreement Expressions

/-! ## Constants -/

/-- `DW_AT_const_value`, by its form: `DW_FORM_data1` to `DW_FORM_data8` with so many
bytes, `DW_FORM_udata` and `DW_FORM_sdata`. -/
inductive ConstForm where
  | data (size raw : Nat)
  | udata (n : Nat)
  | sdata (i : Int)
  deriving DecidableEq, Repr

/-- The value that the compiler has written in the form.  Bytes may have a sign. -/
def ConstForm.Encodes : ConstForm → Int → Prop
  | .data size raw, v => (size = 1 ∨ size = 2 ∨ size = 4 ∨ size = 8) ∧ raw < 2 ^ (8 * size) ∧
      (v = raw ∨ (2 ^ (8 * size - 1) ≤ raw ∧ v = raw - 2 ^ (8 * size)))
  | .udata n, v => n < 2 ^ 64 ∧ v = n
  | .sdata i, v => -2 ^ 63 ≤ i ∧ i < 2 ^ 63 ∧ v = i

/-- What `get_attrs` makes a `long` of. -/
def ConstForm.read : ConstForm → Int
  | .data size raw => (BitVec.ofNat (8 * size) raw).toInt
  | .udata n => (BitVec.ofNat 64 n).toInt
  | .sdata i => (BitVec.ofInt 64 i).toInt

/-- The form is one in which the value is read as it will be bound: without a sign where a
sign would be read, but for four bytes with the highest bit. -/
def ConstForm.Keeps : ConstForm → Int → Prop
  | .data size _, v => if v < 2 ^ 31 then v < 2 ^ (8 * size - 1) else size = 4
  | .udata _, v => v < 2 ^ 31
  | .sdata _, v => v < 2 ^ 31

instance : (f : ConstForm) → (v : Int) → Decidable (f.Keeps v)
  | .data _ _, v => inferInstanceAs (Decidable (if v < 2 ^ 31 then _ else _))
  | .udata _, v => inferInstanceAs (Decidable (v < 2 ^ 31))
  | .sdata _, v => inferInstanceAs (Decidable (v < 2 ^ 31))

/-- An enumerator of the program. -/
structure Enumerator where
  name : Option String
  value : Int
  form : ConstForm
  encodes : form.Encodes value

/-- `proc_enum_item` -/
def Enumerator.member (e : Enumerator) : DieMember := ⟨e.name, e.form.read⟩

section
variable {n w v : Nat}

theorem read_data (form : DataForm) (raw : Nat) : (ConstForm.data (form.bits / 8) raw).read =
    ((FormValue.data form (BitVec.ofNat form.bits raw)).read .constValue 0).toInt := by
  have hread : (FormValue.data form (BitVec.ofNat form.bits raw)).read .constValue 0 =
      (BitVec.ofNat form.bits raw).signExtend 64 := rfl
  rw [hread, BitVec.toInt_signExtend_of_le form.bits_le]
  cases form with
  | data1 => rfl
  | data2 => rfl
  | data4 => rfl
  | data8 => rfl

theorem toInt_ofNat_of_lt (h : n < 2 ^ w) : (BitVec.ofNat w n).toInt =
    if 2 * n < 2 ^ w then (n : Int) else n - (2 ^ w : Nat) := by
  rw [BitVec.toInt_eq_toNat_cond, BitVec.toNat_ofNat, Nat.mod_eq_of_lt h]

theorem bindUint_of_lt (h : v < 2 ^ 32) :
    bindUint v = if v < 2 ^ 31 then (v : Int) else v - 2 ^ 32 := by
  rw [bindUint, toInt_ofNat_of_lt h]
  split <;> split <;> omega

/-- **Compared numbers.**  The number that is stored for an enumerator is the one that its
value is bound as exactly if the form keeps it. -/
theorem read_eq_bind_iff {f : ConstForm} (h : f.Encodes v) (hv : v < 2 ^ 32) :
    f.read = bindUint v ↔ f.Keeps v := by
  rw [bindUint_of_lt hv]
  cases f with
  | data size raw =>
      obtain ⟨hsize, hraw, hvalue⟩ := h
      rw [ConstForm.read, toInt_ofNat_of_lt hraw, ConstForm.Keeps]
      by_cases hsmall : v < 2 ^ 31
      · have hcast : (v : Int) < 2 ^ 31 := by omega
        rw [if_pos hsmall, if_pos hcast]
        rcases hsize with rfl | rfl | rfl | rfl
        all_goals
          split <;> omega
      · have hcast : ¬ (v : Int) < 2 ^ 31 := by omega
        rw [if_neg hsmall, if_neg hcast]
        rcases hsize with rfl | rfl | rfl | rfl
        all_goals
          split <;> omega
  | udata n =>
      obtain ⟨hn, hvalue⟩ := h
      rw [ConstForm.read, toInt_ofNat_of_lt hn, ConstForm.Keeps]
      split <;> split <;> omega
  | sdata i =>
      obtain ⟨hlo, hhi, rfl⟩ := h
      have hread : (BitVec.ofInt 64 (v : Int)).toInt = v := by
        rw [BitVec.toInt_ofInt]
        exact Int.bmod_eq_of_le (by omega) (by omega)
      rw [ConstForm.read, hread, ConstForm.Keeps]
      split <;> omega

end

/-! ## Enums -/

/-- An enum of the program: no two enumerators of one name, and values that have room in it,
with a sign or without. -/
structure EnumType where
  offset : Nat
  size : Nat
  items : List Enumerator
  sized : size = 1 ∨ size = 2 ∨ size = 4 ∨ size = 8
  names : (items.map (·.name)).Nodup
  inRange : ∀ e ∈ items, -2 ^ (8 * size - 1) ≤ e.value ∧ e.value < 2 ^ (8 * size)

/-- The type is the enum, or a typedef of it, and its enumerators are in the table. -/
structure EnumType.Recorded (E : EnumType) (rows : List StoredType)
    (members : List (Nat × DieMember)) (type : Nat) : Prop where
  found : ∃ t, (typeAt rows type).bind (drillDown rows (rows.length + 1)) = some t ∧
    tkind t = .enum ∧ t.offset = E.offset ∧ typeSize t = E.size
  members : (members.filter fun m => m.1 = E.offset) = E.items.map fun e => (E.offset, e.member)

/-- A variable at the address has the value. -/
def EnumType.HasValue (E : EnumType) (c : Contents) (addr : Nat) (v : Int) : Prop :=
  (c.loadAt addr E.size E.size : Int) = v % 2 ^ (8 * E.size)

/-- The entry has the name of an enumerator of the value, and the value. -/
def EnumType.Shows (E : EnumType) (rows : List StoredType) (members : List (Nat × DieMember))
    (c : Contents) (addr type : Nat) (v : Int) : Prop :=
  ∃ e ∈ E.items, e.value = v ∧ ∃ shown : Nat, (shown : Int) = v ∧
    addVarEntry rows members c addr type 0 =
      some (some { values := [.enumItem e.name shown] })

/-- The first enumerator that is stored as the value is bound has the value. -/
def EnumType.NamedFirst (E : EnumType) (v : Int) : Prop :=
  ∃ pre e post, E.items = pre ++ e :: post ∧ e.value = v ∧ e.form.Keeps v ∧
    ∀ x ∈ pre, x.form.read ≠ bindUint v.toNat

section
variable {E : EnumType} {rows : List StoredType} {members : List (Nat × DieMember)}
  {c : Contents} {addr type : Nat} {v : Int} {e : Enumerator}

theorem EnumType.Recorded.entry (h : E.Recorded rows members type) :
    addVarEntry rows members c addr type 0 =
      some (some { values := [enumValue members c E.offset addr E.size] }) := by
  obtain ⟨t, hfound, hkind, hoffset, hsize⟩ := h.found
  rw [addVarEntry, hfound]
  dsimp only
  rw [typeEntry, if_neg (not_not.mpr rfl), hkind, ← hoffset, ← hsize]

theorem EnumType.Recorded.find (h : E.Recorded rows members type) (b : Int) :
    (members.find? fun m => m.1 = E.offset ∧ m.2.value = b) =
      (E.items.find? fun e => e.form.read = b).map fun e => (E.offset, e.member) := by
  have hfilter := @List.find?_filter _ members (fun m => m.1 = E.offset) (fun m => m.2.value = b)
  simp only [decide_eq_true_eq] at hfilter
  rw [← hfilter, h.members, List.find?_map]
  rfl

theorem EnumType.Recorded.value (h : E.Recorded rows members type) (hsize : E.size ≠ 8) :
    enumValue members c E.offset addr E.size =
      match E.items.find? fun e => e.form.read = bindUint (c.loadAt addr E.size E.size) with
      | none => .number (c.loadAt addr E.size E.size) none
      | some e => .enumItem e.name (c.loadAt addr E.size E.size) := by
  have henum : enumSize E.size := by
    rcases E.sized with hs | hs | hs | hs
    · rw [hs]
      rfl
    · rw [hs]
      rfl
    · rw [hs]
      rfl
    · exact absurd hs hsize
  rw [enumValue, if_pos henum]
  dsimp only
  rw [h.find]
  cases E.items.find? fun e => e.form.read = bindUint (c.loadAt addr E.size E.size) <;> rfl

theorem EnumType.HasValue.load (h : E.HasValue c addr v) (he : e ∈ E.items) (hv : e.value = v)
    (hnonneg : 0 ≤ v) : c.loadAt addr E.size E.size = v.toNat := by
  have hlt : v < 2 ^ (8 * E.size) := hv ▸ (E.inRange e he).2
  have hload : (c.loadAt addr E.size E.size : Int) = v := h.trans (Int.emod_eq_of_lt hnonneg hlt)
  rw [← hload, Int.toNat_natCast]

theorem EnumType.namedFirst_iff (he : e ∈ E.items) (hv : e.value = v) (hsize : E.size ≠ 8)
    (hnonneg : 0 ≤ v) : E.NamedFirst v ↔
      ∃ x, E.items.find? (fun x => x.form.read = bindUint v.toNat) = some x ∧ x.value = v := by
  have hlt : v.toNat < 2 ^ 32 := by
    have hrange := (E.inRange e he).2
    rw [hv] at hrange
    rcases E.sized with hs | hs | hs | hs
    · rw [hs] at hrange
      omega
    · rw [hs] at hrange
      omega
    · rw [hs] at hrange
      omega
    · exact absurd hs hsize
  have hkeeps {x : Enumerator} (hx : x.value = v) :
      x.form.read = bindUint v.toNat ↔ x.form.Keeps v := by
    obtain ⟨n, rfl⟩ := Int.eq_ofNat_of_zero_le hnonneg
    exact read_eq_bind_iff (hx ▸ x.encodes) hlt
  constructor
  · rintro ⟨pre, x, post, hitems, hx, hform, hfirst⟩
    refine ⟨x, List.find?_eq_some_iff_append.mpr ⟨?_, pre, post, hitems, ?_⟩, hx⟩
    · exact decide_eq_true ((hkeeps hx).mpr hform)
    · intro y hy
      exact Bool.not_eq_true' _ |>.mpr (decide_eq_false (hfirst y hy))
  · rintro ⟨x, hfind, hx⟩
    obtain ⟨hread, pre, post, hitems, hfirst⟩ := List.find?_eq_some_iff_append.mp hfind
    refine ⟨pre, x, post, hitems, hx, (hkeeps hx).mp (of_decide_eq_true hread), ?_⟩
    intro y hy
    exact of_decide_eq_false ((Bool.not_eq_true' _).mp (hfirst y hy))

end

/-- **Names and values.**  The entry has the name of an enumerator of the value and the value
exactly if the enum is not one of eight bytes, the value is not negative, and the first
enumerator that is stored as it is bound has it. -/
theorem enumerator_shows_iff {E : EnumType} {rows : List StoredType}
    {members : List (Nat × DieMember)} {type : Nat} (h : E.Recorded rows members type)
    {e : Enumerator} (he : e ∈ E.items) {c : Contents} {addr : Nat}
    (hvalue : E.HasValue c addr e.value) : E.Shows rows members c addr type e.value ↔
      E.size ≠ 8 ∧ 0 ≤ e.value ∧ E.NamedFirst e.value := by
  by_cases hsize : E.size = 8
  · refine iff_of_false ?_ fun hright => hright.1 hsize
    rintro ⟨x, _, _, shown, _, hentry⟩
    have hunsupported : enumValue members c E.offset addr E.size = .unsupported := by
      rw [enumValue, hsize]
      rfl
    rw [h.entry, hunsupported] at hentry
    cases hentry
  · by_cases hnonneg : 0 ≤ e.value
    · have hload := hvalue.load he rfl hnonneg
      rw [EnumType.namedFirst_iff he rfl hsize hnonneg]
      have hshown : enumValue members c E.offset addr E.size = _ := h.value hsize
      rw [hload] at hshown
      constructor
      · rintro ⟨x, hx, hxv, shown, hshownv, hentry⟩
        refine ⟨hsize, hnonneg, ?_⟩
        rw [h.entry, hshown] at hentry
        cases hfind : E.items.find? fun y => y.form.read = bindUint e.value.toNat with
        | none =>
            rw [hfind] at hentry
            cases hentry
        | some y =>
            rw [hfind] at hentry
            obtain ⟨hname, _⟩ : y.name = x.name ∧ e.value.toNat = shown := by simpa using hentry
            refine ⟨y, rfl, ?_⟩
            rw [List.inj_on_of_nodup_map E.names (List.mem_of_find?_eq_some hfind) hx hname, hxv]
      · rintro ⟨_, _, x, hfind, hxv⟩
        refine ⟨x, List.mem_of_find?_eq_some hfind, hxv, e.value.toNat,
          Int.toNat_of_nonneg hnonneg, ?_⟩
        rw [h.entry, hshown, hfind]
    · refine iff_of_false ?_ fun hright => hnonneg hright.2.1
      rintro ⟨x, _, _, shown, hshown, _⟩
      exact hnonneg (hshown ▸ Int.natCast_nonneg shown)

/-! ### Examples -/

def fooOne : Enumerator := ⟨some "one", 1, .data 1 1, .inl rfl, by decide, .inl rfl⟩

/-- `enum { low = -1, one = 1, high = 200 }` in four bytes. -/
def fooItems : List Enumerator :=
  [⟨some "low", -1, .sdata (-1), by decide, by decide, rfl⟩, fooOne,
    ⟨some "high", 200, .data 1 200, .inl rfl, by decide, .inl rfl⟩]

def fooEnum : EnumType where
  offset := 500
  size := 4
  items := fooItems
  sized := .inr (.inr (.inl rfl))
  names := by decide
  inRange := by decide

def fooTypes : List StoredType := [⟨500, some "foo", some 4, 3, 0, 10, 0⟩]

def fooMembers : List (Nat × DieMember) := fooItems.map fun e => (500, e.member)

/-- Variables of the values -1, 1 and 200 at 64, 68 and 72. -/
def fooContents : Contents where
  mem := [⟨64, 1, [255, 255, 255, 255, 1, 0, 0, 0, 200, 0, 0, 0, 0, 0, 0, 0,
    0, 0, 0, 0, 0, 0, 0, 0, 0, 0, 0, 0, 0, 0, 0, 0]⟩]
  heap := []
  funcName := fun _ => none
  curStep := 1

theorem fooEnum_recorded : fooEnum.Recorded fooTypes fooMembers 500 where
  found := ⟨_, rfl, rfl, rfl, rfl⟩
  members := rfl

theorem enumerator_shows_iff_one :
    fooEnum.Shows fooTypes fooMembers fooContents 68 500 1 := by
  have hitem : fooOne ∈ fooEnum.items := List.mem_cons_of_mem _ List.mem_cons_self
  have hvalue : fooEnum.HasValue fooContents 68 fooOne.value := rfl
  refine (enumerator_shows_iff fooEnum_recorded hitem hvalue).mpr ⟨by decide, by decide, ?_⟩
  exact ⟨[_], fooOne, [_], rfl, rfl, by decide, by decide⟩

/-- A negative value loses its sign, and one of one byte with the highest bit its name. -/
theorem enumerators_misread :
    fooEnum.Recorded fooTypes fooMembers 500 ∧
      fooEnum.HasValue fooContents 64 (-1) ∧ fooEnum.HasValue fooContents 72 200 ∧
      addVarEntry fooTypes fooMembers fooContents 64 500 0 =
        some (some { values := [.enumItem (some "low") 4294967295] }) ∧
      addVarEntry fooTypes fooMembers fooContents 72 500 0 =
        some (some { values := [.number 200 none] }) ∧
      ¬ fooEnum.Shows fooTypes fooMembers fooContents 64 500 (-1) ∧
      ¬ fooEnum.Shows fooTypes fooMembers fooContents 72 500 200 := by
  have hhigh : addVarEntry fooTypes fooMembers fooContents 72 500 0 =
      some (some { values := [.number 200 none] }) := rfl
  refine ⟨fooEnum_recorded, rfl, rfl, rfl, hhigh, ?_, ?_⟩
  · rintro ⟨_, _, _, shown, hshown, _⟩
    omega
  · rintro ⟨_, _, _, shown, _, hentry⟩
    rw [hhigh] at hentry
    cases hentry

end FlightRec.Entries
