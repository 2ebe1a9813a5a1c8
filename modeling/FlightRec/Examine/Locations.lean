/-
# `FlightRec.Examine.Locations` — where a variable is at a step

`get_location` goes through the entries of a DWARF location and stores an address for each
that covers the program counter; the last one counts.  It starts with success, and nothing
makes a failure of it if no entry was for this counter: it succeeds, with nothing stored
(`getLocation_eq`, `getLocation_right_iff`).

`get_var_address` is not told of which kind the address is.  It takes a negative number for
an offset from the frame base and any other for an address, so an offset that is not
negative is taken for an address, and a negative address for an offset
(`getVarAddress_right_iff`).

What libdwarf decodes is given: the entries, and the first operation of each.
-/
import Mathlib.Data.BitVec

namespace FlightRec.Locations

/-! ## What is decoded -/

/-- `struct user_regs_struct`, as far as it is read. -/
structure UserRegs where
  rax : BitVec 64
  rdx : BitVec 64
  rcx : BitVec 64
  rbx : BitVec 64
  rsi : BitVec 64
  rdi : BitVec 64
  rbp : BitVec 64
  rsp : BitVec 64
  r8 : BitVec 64
  r9 : BitVec 64
  r10 : BitVec 64
  r11 : BitVec 64
  r12 : BitVec 64
  r13 : BitVec 64
  r14 : BitVec 64
  r15 : BitVec 64
  rip : BitVec 64
  deriving DecidableEq, Repr

/-- `dwarf_registers`: DWARF has numbers of its own for them. -/
def dwarfRegisters : List (UserRegs → BitVec 64) :=
  [UserRegs.rax, UserRegs.rdx, UserRegs.rcx, UserRegs.rbx, UserRegs.rsi, UserRegs.rdi,
    UserRegs.rbp, UserRegs.rsp, UserRegs.r8, UserRegs.r9, UserRegs.r10, UserRegs.r11,
    UserRegs.r12, UserRegs.r13, UserRegs.r14, UserRegs.r15]

/-- An operation of a location expression, with its first operand. -/
inductive LocationOp where
  | addr (opd1 : BitVec 64)
  | fbreg (opd1 : BitVec 64)
  | callFrameCfa
  | breg (register : Fin dwarfRegisters.length) (opd1 : BitVec 64)
  | other (op : Nat)
  deriving DecidableEq, Repr

/-- `list_source`. -/
inductive ListSource where
  | expression
  | loclist
  | split
  deriving DecidableEq, Repr

/-- What `dwarf_get_locdesc_entry_c` gives, and what `dwarf_get_location_op_value_c` gives
for the first operation, if there is one. -/
structure LocdescEntry where
  /-- `lle_value` is `DW_LLEX_offset_pair_entry`. -/
  offsetPair : Bool
  loPc : BitVec 64
  hiPc : BitVec 64
  source : ListSource
  op : Option LocationOp
  deriving DecidableEq, Repr

/-- A location attribute: `none` where libdwarf fails, for the list or for an entry. -/
abbrev Attribute := Option (List (Option LocdescEntry))

/-! ## `get_location` -/

/-- `base_addr`, `program_base_addr`, `pc` and `regs`. -/
structure Context where
  base : BitVec 64
  programBase : BitVec 64
  regs : UserRegs
  deriving DecidableEq, Repr

/-- What is stored for an operation; `none` where the source gives up. -/
def LocationOp.address (c : Context) : LocationOp → Option (BitVec 64)
  | .addr opd1 => some (opd1 + c.programBase)
  | .fbreg opd1 => some opd1
  | .callFrameCfa => none
  | .breg register opd1 => some (dwarfRegisters.get register c.regs + opd1)
  | .other _ => none

/-- A bound of an entry as an address. -/
def LocdescEntry.adjust (c : Context) (e : LocdescEntry) (pc : BitVec 64) : BitVec 64 :=
  if e.offsetPair then pc + (c.base + c.programBase) else pc

/-- The program counter is in the adjusted range. -/
def LocdescEntry.inRange (c : Context) (e : LocdescEntry) : Bool :=
  e.adjust c e.loPc ≤ c.regs.rip && c.regs.rip < e.adjust c e.hiPc

/-- How `get_location` ends: `unset` is success with nothing stored. -/
inductive Location where
  | failure
  | unset
  | stored (address : BitVec 64)
  deriving DecidableEq, Repr

/-- The loop; `found` is what has been stored so far. -/
def locationLoop (c : Context) : List (Option LocdescEntry) → Option (BitVec 64) → Location
  | [], none => .unset
  | [], some address => .stored address
  | none :: _, _ => .failure
  | some e :: rest, found =>
      if e.source = .loclist ∧ ¬ e.inRange c then locationLoop c rest found
      else if e.source = .split then locationLoop c rest found
      else
        match e.op.bind (LocationOp.address c) with
        | none => .failure
        | some address => locationLoop c rest (some address)

/-- `get_location` -/
def getLocation (c : Context) : Attribute → Location
  | none => .failure
  | some entries => locationLoop c entries none

/-! ## The entries that count -/

/-- The entry is for the program counter: an expression is for all. -/
def LocdescEntry.Covers (c : Context) (e : LocdescEntry) : Prop :=
  e.source = .expression ∨ e.inRange c = true

/-- The entry is for the program counter, and of a kind that is evaluated. -/
def LocdescEntry.Evaluated (c : Context) (e : LocdescEntry) : Prop :=
  e.Covers c ∧ e.source ≠ .split

instance (c : Context) (e : LocdescEntry) : Decidable (e.Covers c) :=
  inferInstanceAs (Decidable (_ ∨ _))

instance (c : Context) (e : LocdescEntry) : Decidable (e.Evaluated c) :=
  inferInstanceAs (Decidable (_ ∧ _))

/-- The address that an entry describes. -/
def LocdescEntry.described (c : Context) (e : LocdescEntry) : Option (BitVec 64) :=
  e.op.bind (LocationOp.address c)

/-- Every entry is decoded, and every one that is evaluated has an address. -/
def Readable (c : Context) (entries : List (Option LocdescEntry)) : Prop :=
  ∀ entry ∈ entries, ∃ e, entry = some e ∧ (e.Evaluated c → (e.described c).isSome)

/-- The addresses of the entries that are evaluated. -/
def addresses (c : Context) (entries : List (Option LocdescEntry)) : List (BitVec 64) :=
  ((entries.filterMap id).filter (·.Evaluated c)).filterMap (·.described c)

/-- The result of a loop that comes to its end. -/
def Location.ofOption : Option (BitVec 64) → Location
  | none => .unset
  | some address => .stored address

section
variable {c : Context} {e : LocdescEntry} {rest entries : List (Option LocdescEntry)}
  {found : Option (BitVec 64)}

theorem locationLoop_cons : locationLoop c (some e :: rest) found =
    if e.Evaluated c then
      match e.described c with
      | none => .failure
      | some address => locationLoop c rest (some address)
    else locationLoop c rest found := by
  rw [locationLoop]
  cases hsource : e.source with
  | expression =>
      simp [LocdescEntry.Evaluated, LocdescEntry.Covers, LocdescEntry.described, hsource]
  | loclist =>
      cases hrange : e.inRange c with
      | false => simp [LocdescEntry.Evaluated, LocdescEntry.Covers, hsource, hrange]
      | true => simp [LocdescEntry.Evaluated, LocdescEntry.Covers, LocdescEntry.described, hsource,
          hrange]
  | split => simp [LocdescEntry.Evaluated, hsource]

theorem readable_cons : Readable c (some e :: rest) ↔
    (e.Evaluated c → (e.described c).isSome) ∧ Readable c rest := by
  rw [Readable, List.forall_mem_cons]
  constructor
  · rintro ⟨⟨_, heq, he⟩, hrest⟩
    cases heq
    exact ⟨he, hrest⟩
  · rintro ⟨he, hrest⟩
    exact ⟨⟨e, rfl, he⟩, hrest⟩

/-- The last address counts. -/
theorem locationLoop_readable : ∀ (entries : List (Option LocdescEntry))
    (found : Option (BitVec 64)), Readable c entries →
      locationLoop c entries found = .ofOption ((addresses c entries).getLast?.or found)
  | [], found, _ => by cases found <;> rfl
  | none :: rest, found, h => by
      obtain ⟨_, heq, _⟩ := h none List.mem_cons_self
      cases heq
  | some e :: rest, found, h => by
      obtain ⟨he, hrest⟩ := readable_cons.mp h
      rw [locationLoop_cons]
      split
      next hevaluated =>
        obtain ⟨address, haddress⟩ := Option.isSome_iff_exists.mp (he hevaluated)
        have hcons : addresses c (some e :: rest) = address :: addresses c rest := by
          simp [addresses, hevaluated, haddress]
        rw [haddress]
        dsimp only
        rw [locationLoop_readable rest (some address) hrest, hcons, List.getLast?_cons]
        cases (addresses c rest).getLast? <;> rfl
      next hpassed =>
        have hcons : addresses c (some e :: rest) = addresses c rest := by
          simp [addresses, hpassed]
        rw [locationLoop_readable rest found hrest, hcons]

theorem locationLoop_unreadable : ∀ (entries : List (Option LocdescEntry))
    (found : Option (BitVec 64)), ¬ Readable c entries → locationLoop c entries found = .failure
  | [], _, h => by
      refine absurd (fun entry hmem => ?_) h
      cases hmem
  | none :: _, _, _ => by rw [locationLoop]
  | some e :: rest, found, h => by
      rw [readable_cons, not_and] at h
      rw [locationLoop_cons]
      split
      next hevaluated =>
        cases haddress : e.described c with
        | none => rfl
        | some address =>
            exact locationLoop_unreadable rest _ (h fun _ => by rw [haddress]; rfl)
      next hpassed =>
        exact locationLoop_unreadable rest found (h fun hevaluated => absurd hevaluated hpassed)

theorem getLocation_eq [Decidable (Readable c entries)] : getLocation c (some entries) =
    if Readable c entries then .ofOption (addresses c entries).getLast? else .failure := by
  rw [getLocation]
  split
  next hreadable => rw [locationLoop_readable entries none hreadable, Option.or_none]
  next hunreadable => exact locationLoop_unreadable entries none hunreadable

theorem mem_addresses {address : BitVec 64} : address ∈ addresses c entries ↔
    ∃ e, some e ∈ entries ∧ e.Evaluated c ∧ e.described c = some address := by
  simp only [addresses, List.mem_filterMap, List.mem_filter, decide_eq_true_eq, id_eq]
  constructor
  · rintro ⟨e, ⟨⟨_, hmem, rfl⟩, hevaluated⟩, haddress⟩
    exact ⟨e, hmem, hevaluated, haddress⟩
  · rintro ⟨e, hmem, hevaluated, haddress⟩
    exact ⟨e, ⟨⟨_, hmem, rfl⟩, hevaluated⟩, haddress⟩

end

/-! ## The right location -/

/-- Specification of `get_location`. -/
structure LocationRight (c : Context) (entries : List (Option LocdescEntry))
    (result : Location) : Prop where
  covered : (∃ e, some e ∈ entries ∧ e.Covers c) →
    ∃ e address, some e ∈ entries ∧ e.Covers c ∧ e.described c = some address ∧
      result = .stored address
  uncovered : (∀ e, some e ∈ entries → ¬ e.Covers c) → result = .failure

section
variable {c : Context} {entries : List (Option LocdescEntry)}

theorem locationRight_failure_iff :
    LocationRight c entries .failure ↔ ∀ e, some e ∈ entries → ¬ e.Covers c := by
  constructor
  · intro hright e he hcovers
    obtain ⟨_, _, _, _, _, hresult⟩ := hright.covered ⟨e, he, hcovers⟩
    cases hresult
  · intro huncovered
    refine ⟨?_, fun _ => rfl⟩
    rintro ⟨e, he, hcovers⟩
    exact absurd hcovers (huncovered e he)

theorem not_locationRight_unset : ¬ LocationRight c entries .unset := by
  intro hright
  by_cases hcovered : ∃ e, some e ∈ entries ∧ e.Covers c
  · obtain ⟨_, _, _, _, _, hresult⟩ := hright.covered hcovered
    cases hresult
  · cases hright.uncovered fun e he hcovers => hcovered ⟨e, he, hcovers⟩

theorem locationRight_stored {address : BitVec 64} (haddress : address ∈ addresses c entries) :
    LocationRight c entries (.stored address) := by
  obtain ⟨e, he, hevaluated, hdescribed⟩ := mem_addresses.mp haddress
  exact ⟨fun _ => ⟨e, address, he, hevaluated.1, hdescribed, rfl⟩,
    fun hnone => absurd hevaluated.1 (hnone e he)⟩

theorem Readable.decoded (h : Readable c entries) : none ∉ entries := by
  intro hmem
  obtain ⟨_, heq, _⟩ := h none hmem
  cases heq

theorem Readable.addresses_ne_nil_iff (h : Readable c entries) :
    addresses c entries ≠ [] ↔ ∃ e, some e ∈ entries ∧ e.Evaluated c := by
  constructor
  · intro hne
    obtain ⟨address, hmem⟩ := List.exists_mem_of_ne_nil _ hne
    obtain ⟨e, he, hevaluated, _⟩ := mem_addresses.mp hmem
    exact ⟨e, he, hevaluated⟩
  · rintro ⟨e, he, hevaluated⟩
    obtain ⟨_, heq, hsome⟩ := h (some e) he
    cases heq
    obtain ⟨address, haddress⟩ := Option.isSome_iff_exists.mp (hsome hevaluated)
    exact List.ne_nil_of_mem (mem_addresses.mpr ⟨e, he, hevaluated, haddress⟩)

end

/-- **Selection from a location list** is right exactly if an entry that is evaluated covers
the program counter and all entries can be read, or if none covers it and libdwarf fails. -/
theorem getLocation_right_iff (c : Context) (entries : List (Option LocdescEntry)) :
    LocationRight c entries (getLocation c (some entries)) ↔
      (Readable c entries ∧ ∃ e, some e ∈ entries ∧ e.Evaluated c) ∨
        ((∀ e, some e ∈ entries → ¬ e.Covers c) ∧ none ∈ entries) := by
  classical
  rw [getLocation_eq]
  split
  next hreadable =>
    rw [← hreadable.addresses_ne_nil_iff]
    simp only [hreadable, true_and, hreadable.decoded, and_false, or_false]
    constructor
    · intro hright hempty
      rw [hempty] at hright
      exact not_locationRight_unset hright
    · intro hne
      rw [List.getLast?_eq_some_getLast hne]
      exact locationRight_stored (List.getLast_mem hne)
  next hunreadable =>
    rw [locationRight_failure_iff]
    simp only [hunreadable, false_and, false_or]
    constructor
    · intro huncovered
      refine ⟨huncovered, ?_⟩
      by_contra hdecoded
      refine hunreadable fun entry hmem => ?_
      cases entry with
      | none => exact absurd hmem hdecoded
      | some e => exact ⟨e, rfl, fun hevaluated => absurd hevaluated.1 (huncovered e hmem)⟩
    · rintro ⟨huncovered, _⟩
      exact huncovered

/-- Only the program counter is not zero. -/
def UserRegs.atRip (rip : BitVec 64) : UserRegs where
  rax := 0
  rdx := 0
  rcx := 0
  rbx := 0
  rsi := 0
  rdi := 0
  rbp := 0
  rsp := 0
  r8 := 0
  r9 := 0
  r10 := 0
  r11 := 0
  r12 := 0
  r13 := 0
  r14 := 0
  r15 := 0
  rip := rip

/-- Past the only range of a list, there is success without an address. -/
theorem getLocation_past_the_range :
    ¬ LocationRight ⟨0, 0, .atRip 32⟩ [some ⟨false, 0, 16, .loclist, some (.addr 64)⟩]
      (getLocation ⟨0, 0, .atRip 32⟩ (some [some ⟨false, 0, 16, .loclist, some (.addr 64)⟩])) := by
  intro hright
  have huncovered : getLocation ⟨0, 0, .atRip 32⟩
      (some [some ⟨false, 0, 16, .loclist, some (.addr 64)⟩]) = .failure := by
    refine hright.uncovered fun e he => ?_
    cases List.mem_singleton.mp he
    decide
  revert huncovered
  decide

/-! ## `get_var_address` -/

/-- What the query for a variable gives. -/
structure VarRow where
  name : String
  varOffset : Nat
  /-- A variable that is not in a function has `NULL` here, fetched as zero. -/
  funcOffset : Nat
  base : BitVec 64
  typeOffset : Nat
  deriving DecidableEq, Repr

/-- The tables `var` and `step`, and what libdwarf reads for a DIE. -/
structure DebugInfo where
  varRow : Nat → Option VarRow
  stepRegs : Nat → Option UserRegs
  /-- `DW_AT_location` -/
  location : Nat → Attribute
  /-- `DW_AT_frame_base` -/
  frameBase : Nat → Attribute
  programBase : BitVec 64

/-- What `get_location` is called with. -/
def DebugInfo.context (d : DebugInfo) (row : VarRow) (regs : UserRegs) : Context where
  base := row.base
  programBase := d.programBase
  regs := regs

/-- `name`, `address` and `type_offset`. -/
structure VarAddress where
  name : String
  address : BitVec 64
  typeOffset : Nat
  deriving DecidableEq, Repr

/-- The variable that `get_location` stores to, if it is success; it starts as garbage. -/
def Location.value (garbage : BitVec 64) : Location → Option (BitVec 64)
  | .failure => none
  | .unset => some garbage
  | .stored address => some address

/-- `get_var_address`; `addr` and `frameBase` are what the two variables start as. -/
def getVarAddress (d : DebugInfo) (addr frameBase : BitVec 64) (varId step : Nat) :
    Option VarAddress := do
  let row ← d.varRow varId
  let regs ← d.stepRegs step
  let addr ← (getLocation (d.context row regs) (d.location row.varOffset)).value addr
  if addr.slt 0 then
    let frameBase ←
      (getLocation (d.context row regs) (d.frameBase row.funcOffset)).value frameBase
    return ⟨row.name, addr + frameBase, row.typeOffset⟩
  else
    return ⟨row.name, addr, row.typeOffset⟩

/-! ## The right address -/

/-- The location of the variable at these registers is this operation. -/
def DebugInfo.Located (d : DebugInfo) (row : VarRow) (regs : UserRegs) (op : LocationOp) : Prop :=
  ∃ entries, d.location row.varOffset = some entries ∧
    Readable (d.context row regs) entries ∧
    (((entries.filterMap id).filter (·.Evaluated (d.context row regs))).getLast?.bind
      LocdescEntry.op) = some op

/-- Specification: what a location stands for, in a function with this frame base. -/
def LocationOp.place (c : Context) (frameBase : BitVec 64) : LocationOp → Option (BitVec 64)
  | .fbreg opd1 => some (frameBase + opd1)
  | op => op.address c

/-- The sign tells what the number is: `found` is what there is to add to a negative one. -/
def SignTells (c : Context) (frameBase : BitVec 64) (found : Option (BitVec 64)) :
    LocationOp → Prop
  | .fbreg opd1 => if opd1.slt 0 then found = some frameBase else frameBase = 0
  | op => ∀ address, op.address c = some address → address.slt 0 → found = some 0

section
variable {d : DebugInfo} {row : VarRow} {regs : UserRegs} {op : LocationOp}

theorem getLocation_located (hop : d.Located row regs op) : ∃ address,
    op.address (d.context row regs) = some address ∧
      getLocation (d.context row regs) (d.location row.varOffset) = .stored address := by
  classical
  obtain ⟨entries, hentries, hreadable, hlast⟩ := hop
  obtain ⟨e, he, hop⟩ := Option.bind_eq_some_iff.mp hlast
  obtain ⟨before, hbefore⟩ := List.getLast?_eq_some_iff.mp he
  have hmem : e ∈ (entries.filterMap id).filter (·.Evaluated (d.context row regs)) := by
    rw [hbefore]
    exact List.mem_append_right _ (List.mem_singleton_self e)
  obtain ⟨hmem, hevaluated⟩ := List.mem_filter.mp hmem
  obtain ⟨_, hmem, heq⟩ := List.mem_filterMap.mp hmem
  cases heq
  obtain ⟨_, heq, haddress⟩ := hreadable _ hmem
  cases heq
  obtain ⟨address, haddress⟩ :=
    Option.isSome_iff_exists.mp (haddress (of_decide_eq_true hevaluated))
  have hop' : op.address (d.context row regs) = some address := by
    rw [LocdescEntry.described, hop] at haddress
    exact haddress
  refine ⟨address, hop', ?_⟩
  have hlast : (addresses (d.context row regs) entries).getLast? = some address := by
    rw [addresses, hbefore, List.filterMap_append, List.filterMap_cons, haddress]
    exact List.getLast?_concat
  rw [hentries, getLocation_eq, if_pos hreadable, hlast]
  rfl

variable {addr frameBase₀ : BitVec 64} {varId step : Nat}

theorem getVarAddress_located {address : BitVec 64} (hrow : d.varRow varId = some row)
    (hregs : d.stepRegs step = some regs)
    (haddress : getLocation (d.context row regs) (d.location row.varOffset) = .stored address) :
    getVarAddress d addr frameBase₀ varId step =
      if address.slt 0 then
        ((getLocation (d.context row regs) (d.frameBase row.funcOffset)).value frameBase₀).map
          fun frameBase => ⟨row.name, address + frameBase, row.typeOffset⟩
      else some ⟨row.name, address, row.typeOffset⟩ := by
  rw [getVarAddress, hrow]
  dsimp only [Option.bind_eq_bind, Option.bind_some]
  rw [hregs]
  dsimp only [Option.bind_some]
  rw [haddress]
  dsimp only [Location.value, Option.bind_some, Option.pure_def]
  split
  · rw [Option.map_eq_bind]
    rfl
  · rfl

/-- Adding what is found, where the sign asks for it, gives the place if the sign tells. -/
theorem place_iff_signTells {c : Context} {address frameBase : BitVec 64}
    {found : Option (BitVec 64)} (haddress : op.address c = some address) :
    (if address.slt 0 then found.map (address + ·) else some address) = op.place c frameBase ↔
      SignTells c frameBase found op := by
  have hplain : op.place c frameBase = op.address c →
      (SignTells c frameBase found op ↔ (address.slt 0 → found = some 0)) →
      ((if address.slt 0 then found.map (address + ·) else some address) = op.place c frameBase ↔
        SignTells c frameBase found op) := by
    intro hplace hsign
    rw [hplace, hsign, haddress]
    split
    next hneg =>
      simp only [hneg, true_imp_iff]
      cases found with
      | none => simp
      | some frame => simp
    next hneg => exact iff_of_true rfl fun h => absurd h hneg
  cases op with
  | fbreg opd1 =>
      have heq := Option.some.inj haddress
      subst heq
      rw [LocationOp.place, SignTells]
      split
      next hneg =>
        cases found with
        | none => simp
        | some frame =>
            rw [Option.map_some, Option.some_inj, Option.some_inj, BitVec.add_comm]
            exact BitVec.add_left_inj opd1
      next hneg =>
        rw [Option.some_inj]
        exact BitVec.self_eq_add_left
  | addr opd1 => exact hplain rfl (by simp [SignTells, haddress])
  | callFrameCfa => cases haddress
  | breg register opd1 => exact hplain rfl (by simp [SignTells, haddress])
  | other op => cases haddress

end

/-- **The address of a variable** is right exactly if the sign of what `get_location` finds
tells what it is. -/
theorem getVarAddress_right_iff (d : DebugInfo) (addr frameBase₀ frameBase : BitVec 64)
    (varId step : Nat) {row : VarRow} {regs : UserRegs} {op : LocationOp}
    (hrow : d.varRow varId = some row) (hregs : d.stepRegs step = some regs)
    (hop : d.Located row regs op) :
    getVarAddress d addr frameBase₀ varId step =
        (op.place (d.context row regs) frameBase).map
          (fun address => ⟨row.name, address, row.typeOffset⟩) ↔
      SignTells (d.context row regs) frameBase
        ((getLocation (d.context row regs) (d.frameBase row.funcOffset)).value frameBase₀) op := by
  obtain ⟨address, haddress, hlocation⟩ := getLocation_located hop
  have hmk : Function.Injective fun address =>
      (⟨row.name, address, row.typeOffset⟩ : VarAddress) :=
    fun _ _ heq => congrArg VarAddress.address heq
  rw [getVarAddress_located hrow hregs hlocation, ← place_iff_signTells haddress,
    ← (Option.map_injective hmk).eq_iff]
  split
  · rw [Option.map_map]
    rfl
  · rfl

/-- One variable of one function, at an offset from its frame base. -/
def stackVariable (offset : BitVec 64) : DebugInfo where
  varRow _ := some ⟨"x", 1, 2, 0, 3⟩
  stepRegs _ := some (.atRip 0)
  location _ := some [some ⟨false, 0, 0, .expression, some (.fbreg offset)⟩]
  frameBase _ := some [some ⟨false, 0, 0, .expression, some (.breg ⟨6, by decide⟩ 4096)⟩]
  programBase := 0

theorem stackVariable_located (offset : BitVec 64) :
    (stackVariable offset).Located ⟨"x", 1, 2, 0, 3⟩ (.atRip 0) (.fbreg offset) := by
  refine ⟨_, rfl, ?_, rfl⟩
  intro entry hmem
  exact ⟨_, List.mem_singleton.mp hmem, fun _ => rfl⟩

/-- A local variable. -/
theorem getVarAddress_right_iff_local :
    getVarAddress (stackVariable (-16)) 0 0 0 0 = some ⟨"x", 4080, 3⟩ :=
  (getVarAddress_right_iff (stackVariable (-16)) 0 0 4096 0 0 rfl rfl
    (stackVariable_located (-16))).mpr (by
      rw [SignTells, if_pos (by decide)]
      rfl)

/-- A parameter that is passed on the stack: the offset is taken for the address. -/
theorem getVarAddress_stack_parameter :
    getVarAddress (stackVariable 16) 0 0 0 0 = some ⟨"x", 16, 3⟩ ∧
      (LocationOp.fbreg 16).place ((stackVariable 16).context ⟨"x", 1, 2, 0, 3⟩ (.atRip 0)) 4096 =
        some 4112 := by
  constructor
  · rfl
  · rfl

end FlightRec.Locations
