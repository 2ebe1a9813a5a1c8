/-
# `FlightRec.Examine.Entries` — the entry of a variable

`add_var_entry` (examine/vars.c) adds a variable, an item or a field to a list.  It looks
up the type, goes on from a typedef to what it names, and formats the value by the kind:

    struct, union      the name of the type, and a reference
    pointer            the address, and what is known of it; then like an array
    array              a string for characters, a function, or else a reference
    number, enum       the number, for an enum with the name of the item
    anything else      unsupported

The name of the type stands apart from the value here, so that values of different types
can be compared.

    the loop over typedefs           (`drillDown_steps`, `drillDown_length`)
    what items add to a value        (`itemsEntry_plain_iff`)
    what is supported                (`unsupported_iff`)
    the entries of `Agreement`       (`addVarEntry_integer`)
-/
import FlightRec.Examine.Dereferences
import FlightRec.Record.Heap

namespace FlightRec.Entries

open Agreement Chain Expressions Query Update

/-- Field `value` of an entry. -/
inductive EntryValue where
  | typeName
  | null
  | pointer (addr : Nat) (note : String)
  | function (addr : Nat) (name : Option String)
  | string (addr : Nat) (text : List UInt8) (complete : Bool)
  | number (value : Int) (char : Option UInt8)
  | float (size bits : Nat)
  | enumItem (name : Option String) (value : Nat)
  | unsupported
  deriving DecidableEq, Repr

/-- An entry.  A pointer to a function or to characters has its field `value` twice; the
reference is to an address with its type and the indirections. -/
structure VarEntry where
  values : List EntryValue
  reference : Option (Nat × Nat × Nat) := none
  namedVariables : Option Nat := none
  indexedVariables : Option Nat := none
  deriving DecidableEq, Repr

/-- What is known of the client: its memory and its heap, the functions that start at
addresses, and the step at which it is looked at. -/
structure Contents where
  mem : List MemMsg
  heap : List HeapRow
  funcName : Nat → Option String
  curStep : Nat

/-- The first row that the query of the heap returns. -/
def Contents.heapRow (c : Contents) (addr : Nat) : Option HeapRow :=
  (orderByDesc HeapRow.allocatedAt (Heap.heapRows c.heap addr c.curStep)).head?

/-- The first bytes at an address, as a number. -/
def Contents.loadAt (c : Contents) (addr size bytes : Nat) : Nat :=
  load (fun i => (getVarValue c.mem addr size c.curStep).getD i 0) bytes

/-- `flags & TKIND_TYPE` -/
def tkind (r : StoredType) : TKind := (typeRow r).kind

/-- Column `size`, as it is read. -/
def typeSize (r : StoredType) : Nat := r.size.getD 0

/-- The loop over typedefs. -/
def drillDown (rows : List StoredType) : Nat → StoredType → Option StoredType
  | 0, _ => none
  | fuel + 1, t =>
      if t.flags = tkindAlias then (typeAt rows t.parent).bind (drillDown rows fuel) else some t

/-- The text of a string, as far as it goes. -/
def stringValue (c : Contents) (addr dim : Nat) : EntryValue :=
  let text := ((getVarValue c.mem addr dim c.curStep).take dim).takeWhile (· ≠ 0)
  .string addr text (text.length < dim)

/-- What pointers and arrays have in common; `shown` are the values that are there
already.  With a size of 0 the division ends the debugger. -/
def itemsEntry (rows : List StoredType) (c : Contents) (t : StoredType)
    (addr indirect dim pointerSize : Nat) (shown : List EntryValue) : Option (Option VarEntry) :=
  match if indirect ≠ 0 then some t else typeAt rows t.parent with
  | none => some none
  | some item =>
      if pointerSize ≠ 0 ∧ typeSize item = 0 then none
      else
        let dim := if pointerSize ≠ 0 then pointerSize / typeSize item else dim
        if tkind item = .func then
          some (some { values := shown ++ [.function addr (c.funcName addr)] })
        else if typeSize item = 1 ∧ (tkind item).isInteger then
          let dim := if pointerSize = 0 then 32 else dim
          some (some { values := shown ++ [stringValue c addr dim] })
        else
          let values := if shown = [] then [.typeName] else shown
          if dim = 1 ∧ (tkind item = .struct ∨ tkind item = .union) then
            some (some { values, reference := some (addr, t.parent, indirect) })
          else
            some (some { values, reference := some (addr, t.offset, indirect),
                         indexedVariables := some dim })

/-- The entry for a pointer.  A failed lookup is kept in an inner `ret`, and the entry
has no value. -/
def pointerEntry (rows : List StoredType) (c : Contents) (t : StoredType) (addr indirect : Nat) :
    Option (Option VarEntry) :=
  let target := c.loadAt addr (typeSize t) 8
  if target = 0 then some (some { values := [.null] })
  else
    match Heap.getPointerSize (some c.mem) (c.heapRow target) target c.curStep with
    | .memReleased => some (some { values := [.pointer target "dangling"] })
    | .memNotfound => some (some { values := [.pointer target "invalid"] })
    | .failure => some (some { values := [] })
    | .success size =>
        let dim := if size = 0 then 1 else t.dim
        itemsEntry rows c t target indirect dim size [.pointer target ""]

/-- The value of an integer. -/
def integerValue (c : Contents) (signed : Bool) (addr size : Nat) : EntryValue :=
  if integerSize size then
    let value := readInteger c.mem signed addr size c.curStep
    .number value (if size = 1 ∧ isprint value then some (UInt8.ofNat value.toNat) else none)
  else .unsupported

/-- `float`, `double` and `long double` -/
def floatSize (size : Nat) : Bool := size = 4 || size = 8 || size = 16

/-- The sizes that an enum can have. -/
def enumSize (size : Nat) : Bool := size = 1 || size = 2 || size = 4

/-- A `uint32_t` that is bound with `sqlite3_bind_int`. -/
def bindUint (value : Nat) : Int := (BitVec.ofNat 32 value).toInt

/-- The value of an enum, with the first item that has it. -/
def enumValue (members : List (Nat × DieMember)) (c : Contents) (type addr size : Nat) :
    EntryValue :=
  if enumSize size then
    let value := c.loadAt addr size size
    match members.find? fun m => m.1 = type ∧ m.2.value = bindUint value with
    | none => .number value none
    | some m => .enumItem m.2.name value
  else .unsupported

/-- The entry for a type that is no typedef. -/
def typeEntry (rows : List StoredType) (members : List (Nat × DieMember)) (c : Contents)
    (t : StoredType) (addr indirect : Nat) : Option (Option VarEntry) :=
  if indirect ≠ 0 then pointerEntry rows c t addr indirect
  else
    match tkind t with
    | .struct | .union =>
        some (some { values := [.typeName], reference := some (addr, t.offset, 0),
                     namedVariables := some t.dim })
    | .pointer => pointerEntry rows c t addr indirect
    | .array => itemsEntry rows c t addr indirect t.dim 0 []
    | .signed => some (some { values := [integerValue c true addr (typeSize t)] })
    | .unsigned => some (some { values := [integerValue c false addr (typeSize t)] })
    | .float =>
        let size := typeSize t
        some (some { values := [if floatSize size then .float size (c.loadAt addr size size)
                                else .unsupported] })
    | .enum => some (some { values := [enumValue members c t.offset addr (typeSize t)] })
    | _ => some (some { values := [.unsupported] })

/-- `add_var_entry`: `none` if the debugger ends, `some none` for `FAILURE`. -/
def addVarEntry (rows : List StoredType) (members : List (Nat × DieMember)) (c : Contents)
    (addr type indirect : Nat) : Option (Option VarEntry) :=
  match (typeAt rows type).bind (drillDown rows (rows.length + 1)) with
  | none => some none
  | some t => typeEntry rows members c t addr indirect

/-- What is shown. -/
def shownValues (entry : Option (Option VarEntry)) : Option (Option (List EntryValue)) :=
  entry.map fun e => e.map (·.values)

/-! ## Kinds -/

section
variable {r r' : StoredType}

theorem tkind_congr (h : r.kind = r'.kind) : tkind r = tkind r' := by
  have hflags : (typeRow r).flags % 0x10000 = (typeRow r').flags % 0x10000 := h
  rw [tkind, tkind, TypeRow.kind, TypeRow.kind, hflags]

theorem tkind_of_flags {f : Nat} (h : r.flags = f) :
    tkind r = (typeRow { r with flags := f }).kind := by
  rw [← h]
  rfl

theorem tkind_func : tkind r = .func ↔ r.kind = tkindFunc := by
  have hflags : (typeRow r).flags % 0x10000 = r.kind := rfl
  rw [tkind, TypeRow.kind, hflags, tkindFunc]
  split <;> simp_all

theorem tkind_integer : (tkind r).isInteger ↔ r.kind = 1 ∨ r.kind = 2 := by
  have hflags : (typeRow r).flags % 0x10000 = r.kind := rfl
  rw [tkind, TypeRow.kind, hflags, TKind.isInteger]
  split <;> simp_all

end

/-! ## Typedefs -/

/-- What a typedef names. -/
def nextTypedef (rows : List StoredType) (o : Nat) : Option Nat :=
  (typeAt rows o).bind fun r => if r.flags = tkindAlias then some r.parent else none

section
variable {rows : List StoredType} {r : StoredType} {o p n fuel : Nat}

theorem nextTypedef_some : nextTypedef rows o = some p ↔
    ∃ r, typeAt rows o = some r ∧ r.flags = tkindAlias ∧ r.parent = p := by
  rw [nextTypedef, Option.bind_eq_some_iff]
  refine exists_congr fun r => and_congr_right fun _ => ?_
  split
  case isTrue halias => simp [halias]
  case isFalse hplain => simp [hplain]

theorem nextTypedef_none (hr : typeAt rows o = some r) (hplain : r.flags ≠ tkindAlias) :
    nextTypedef rows o = none := by
  rw [nextTypedef, hr]
  exact if_neg hplain

theorem drillDown_steps (h : Steps (nextTypedef rows) n o p) (hr : typeAt rows p = some r)
    (hfuel : n < fuel) : (typeAt rows o).bind (drillDown rows fuel) = some r := by
  induction h generalizing fuel with
  | done hnone =>
      obtain ⟨fuel, rfl⟩ := Nat.exists_eq_succ_of_ne_zero (Nat.ne_of_gt hfuel)
      have hplain : r.flags ≠ tkindAlias := by
        intro halias
        cases hnone.symm.trans (nextTypedef_some.mpr ⟨r, hr, halias, rfl⟩)
      rw [hr]
      exact if_neg hplain
  | step hnext _ ih =>
      obtain ⟨fuel, rfl⟩ := Nat.exists_eq_succ_of_ne_zero (Nat.ne_of_gt (Nat.zero_lt_of_lt hfuel))
      obtain ⟨r', hr', halias, rfl⟩ := nextTypedef_some.mp hnext
      rw [hr']
      exact (if_pos halias).trans (ih hr (Nat.lt_of_succ_lt_succ hfuel))

theorem steps_of_drillDown : ∀ {fuel o : Nat}, (typeAt rows o).bind (drillDown rows fuel) = some r →
    ∃ n p, Steps (nextTypedef rows) n o p ∧ typeAt rows p = some r
  | 0, _, h => by
      obtain ⟨_, _, h⟩ := Option.bind_eq_some_iff.mp h
      cases h
  | fuel + 1, o, h => by
      obtain ⟨r', hr', h⟩ := Option.bind_eq_some_iff.mp h
      rw [drillDown] at h
      split at h
      case isTrue halias =>
        obtain ⟨n, p, hsteps, hp⟩ := steps_of_drillDown h
        exact ⟨n + 1, p, .step (nextTypedef_some.mpr ⟨r', hr', halias, rfl⟩) hsteps, hp⟩
      case isFalse hplain =>
        cases h
        exact ⟨0, o, .done (nextTypedef_none hr' hplain), hr'⟩

theorem steps_le_length (h : Steps (nextTypedef rows) n o p) : n ≤ rows.length := by
  have hle : n ≤ (rows.map (·.offset)).length := h.le_length fun _ y z _ _ hnext => by
    obtain ⟨r, hr, _⟩ := nextTypedef_some.mp hnext
    exact lookup_isSome.mp (Option.isSome_iff_exists.mpr ⟨r, hr⟩)
  rwa [List.length_map] at hle

/-- More rounds than there are rows make no difference. -/
theorem drillDown_length (hfuel : rows.length < fuel) : (typeAt rows o).bind (drillDown rows fuel) =
    (typeAt rows o).bind (drillDown rows (rows.length + 1)) := by
  have hsome {m : Nat} (hm : rows.length < m) {r : StoredType} :
      (typeAt rows o).bind (drillDown rows m) = some r ↔
        ∃ n p, Steps (nextTypedef rows) n o p ∧ typeAt rows p = some r :=
    ⟨steps_of_drillDown, fun ⟨_, _, hsteps, hp⟩ =>
      drillDown_steps hsteps hp (Nat.lt_of_le_of_lt (steps_le_length hsteps) hm)⟩
  ext r
  exact (hsome hfuel).trans (hsome (Nat.lt_succ_self _)).symm

end

/-! ## Values by the kind of a type -/

section
variable {rows : List StoredType} {members : List (Nat × DieMember)} {c : Contents}
  {q t : StoredType} {addr dim pointerSize : Nat} {shown : List EntryValue}

/-- Nothing is added to what is shown of a pointer or an array if its items have a size
where it matters and are no functions and no characters. -/
theorem itemsEntry_plain_iff :
    shownValues (itemsEntry rows c t addr 0 dim pointerSize shown) =
        some (some (if shown = [] then [.typeName] else shown)) ↔
      ∃ item, typeAt rows t.parent = some item ∧ tkind item ≠ .func ∧
        ¬ (typeSize item = 1 ∧ (tkind item).isInteger) ∧ (pointerSize ≠ 0 → typeSize item ≠ 0) := by
  have hadded (v : EntryValue) (hv : v ≠ .typeName) :
      shown ++ [v] ≠ if shown = [] then [.typeName] else shown := by
    intro heq
    split at heq
    case isTrue hnil =>
      rw [hnil] at heq
      exact hv (List.singleton_inj.mp heq)
    case isFalse => simpa using congrArg List.length heq
  have hnot {v : EntryValue} (hv : v ≠ .typeName)
      (h : shownValues (some (some { values := shown ++ [v] })) =
        some (some (if shown = [] then [.typeName] else shown))) : False :=
    hadded v hv (Option.some.inj (Option.some.inj h))
  unfold itemsEntry
  cases hitem : typeAt rows t.parent with
  | none => exact iff_of_false nofun nofun
  | some item =>
      simp only [ne_eq, not_true_eq_false, if_false, Option.some.injEq, exists_eq_left']
      split
      case isTrue hzero => exact iff_of_false nofun fun h => h.2.2 hzero.1 hzero.2
      case isFalse hsize =>
        split
        case isTrue hfunc => exact iff_of_false (hnot nofun) fun h => h.1 hfunc
        case isFalse hfunc =>
          split
          case isTrue hchar => exact iff_of_false (hnot nofun) fun h => h.2.1 hchar
          case isFalse hchar =>
            refine iff_of_true ?_ ⟨hfunc, hchar, fun hp hz => hsize ⟨hp, hz⟩⟩
            split <;> split <;> rfl

theorem typeEntry_pointer (h : tkind t = .pointer) :
    typeEntry rows members c t addr 0 = pointerEntry rows c t addr 0 := by
  rw [typeEntry, if_neg (not_not.mpr rfl), h]

theorem typeEntry_array (h : tkind t = .array) :
    typeEntry rows members c t addr 0 = itemsEntry rows c t addr 0 t.dim 0 [] := by
  rw [typeEntry, if_neg (not_not.mpr rfl), h]

theorem pointerEntry_congr (hsize : typeSize q = typeSize t)
    (hitems : ∀ target dim dim' pointerSize,
      shownValues (itemsEntry rows c q target 0 dim pointerSize [.pointer target ""]) =
        shownValues (itemsEntry rows c t target 0 dim' pointerSize [.pointer target ""])) :
    shownValues (pointerEntry rows c q addr 0) = shownValues (pointerEntry rows c t addr 0) := by
  simp only [pointerEntry, hsize]
  split
  · rfl
  · split
    · rfl
    · rfl
    · rfl
    · exact hitems _ _ _ _

theorem typeEntry_enum (h : tkind t = .enum) : shownValues (typeEntry rows members c t addr 0) =
    some (some [enumValue members c t.offset addr (typeSize t)]) := by
  rw [typeEntry, if_neg (not_not.mpr rfl), h]
  rfl

theorem enumValue_none {type size : Nat} (hsize : enumSize size)
    (hnone : ∀ m ∈ members, m.1 = type → m.2.value ≠ bindUint (c.loadAt addr size size)) :
    enumValue members c type addr size = .number (c.loadAt addr size size) none := by
  have hfind : (members.find? fun m =>
      m.1 = type ∧ m.2.value = bindUint (c.loadAt addr size size)) = none := by
    refine List.find?_eq_none.mpr fun m hm h => ?_
    obtain ⟨htype, hvalue⟩ := of_decide_eq_true h
    exact hnone m hm htype hvalue
  rw [enumValue, if_pos hsize]
  simp only [hfind]

theorem enumValue_some {type size : Nat} (hsize : enumSize size) {m : Nat × DieMember}
    (hm : m ∈ members) (htype : m.1 = type)
    (hvalue : m.2.value = bindUint (c.loadAt addr size size)) :
    ∃ name, enumValue members c type addr size =
      .enumItem name (c.loadAt addr size size) := by
  rw [enumValue, if_pos hsize]
  cases hfind : members.find? fun m =>
      m.1 = type ∧ m.2.value = bindUint (c.loadAt addr size size) with
  | none => exact absurd (decide_eq_true ⟨htype, hvalue⟩) (List.find?_eq_none.mp hfind m hm)
  | some m' => exact ⟨m'.2.name, by simp only [hfind]⟩

/-! ## What is not supported -/

/-- The kinds and sizes that are supported. -/
def supported (kind : TKind) (size : Nat) : Bool :=
  match kind with
  | .struct | .union | .pointer | .array => true
  | .signed | .unsigned => integerSize size
  | .float => floatSize size
  | .enum => enumSize size
  | _ => false

theorem itemsEntry_ne_unsupported (hshown : EntryValue.unsupported ∉ shown) :
    shownValues (itemsEntry rows c t addr 0 dim pointerSize shown) ≠
      some (some [.unsupported]) := by
  have hnot {values : List EntryValue} (hv : EntryValue.unsupported ∉ values) :
      shownValues (some (some { values := values })) ≠ some (some [.unsupported]) := by
    intro h
    cases h
    exact hv List.mem_cons_self
  have hadded {v : EntryValue} (hv : EntryValue.unsupported ≠ v) :
      EntryValue.unsupported ∉ shown ++ [v] := fun h =>
    (List.mem_append.mp h).elim hshown fun h => hv (List.mem_singleton.mp h)
  unfold itemsEntry
  cases typeAt rows t.parent with
  | none => nofun
  | some item =>
      simp only [ne_eq, not_true_eq_false, if_false]
      split
      · nofun
      · split
        · exact hnot (hadded nofun)
        · split
          · exact hnot (hadded nofun)
          · have hname : EntryValue.unsupported ∉ if shown = [] then [.typeName] else shown := by
              split
              · simp
              · exact hshown
            split <;> split <;> exact hnot hname

theorem pointerEntry_ne_unsupported :
    shownValues (pointerEntry rows c t addr 0) ≠ some (some [.unsupported]) := by
  unfold pointerEntry
  dsimp only
  split
  · nofun
  · split
    · nofun
    · nofun
    · nofun
    · exact itemsEntry_ne_unsupported (by simp)

theorem value_unsupported {b : Bool} {v : EntryValue} (hv : v ≠ .unsupported) :
    shownValues (some (some { values := [if b then v else .unsupported] })) =
      some (some [.unsupported]) ↔ ¬ b := by
  cases b with
  | false => exact iff_of_true rfl nofun
  | true => exact iff_of_false (fun h => hv (by cases h; rfl)) (not_not.mpr rfl)

theorem unsupported_iff : shownValues (typeEntry rows members c t addr 0) =
    some (some [.unsupported]) ↔ ¬ supported (tkind t) (typeSize t) := by
  rw [typeEntry, if_neg (not_not.mpr rfl)]
  cases tkind t with
  | struct | union => exact iff_of_false nofun (not_not.mpr rfl)
  | pointer => exact iff_of_false pointerEntry_ne_unsupported (not_not.mpr rfl)
  | array => exact iff_of_false (itemsEntry_ne_unsupported nofun) (not_not.mpr rfl)
  | signed | unsigned => exact value_unsupported nofun
  | float => exact value_unsupported nofun
  | enum =>
      refine value_unsupported ?_
      dsimp only
      split <;> nofun
  | _ => exact iff_of_true rfl nofun

end

/-! ## Contents -/

/-- Bytes from address 0 on, and blocks of the heap. -/
def storing (f : Nat → UInt8) (heap : List HeapRow) : Contents where
  mem := [⟨0, 0, (List.range memSegmentSize).map f⟩]
  heap := heap
  funcName _ := none
  curStep := 0

section
variable {f : Nat → UInt8} {heap : List HeapRow} {size v n : Nat}

theorem storing_loadAt (hsize : size ≤ memSegmentSize) :
    (storing f heap).loadAt 0 size size = load f size := by
  have hstored : Stored (storing f heap).mem 0 f 0 size := by
    refine ⟨fun m hm _ => ?_, fun c haligned hlt _ => ?_, fun m hm _ _ _ _ => ?_⟩
    · obtain rfl := List.mem_singleton.mp hm
      exact ⟨rfl, Nat.two_pow_pos 56⟩
    · have hzero : c = 0 := by
        unfold memSegmentSize at *
        omega
      exact ⟨_, List.mem_singleton.mpr rfl, Nat.le_refl 0, hzero.symm⟩
    · obtain rfl := List.mem_singleton.mp hm
      simp
  have hin : 0 + size ≤ 2 ^ 56 := by
    unfold memSegmentSize at hsize
    omega
  refine load_congr fun i hi => ?_
  have hvalue : getVarValue (storing f heap).mem 0 size (storing f heap).curStep = _ :=
    hstored.getVarValue_eq hin
  rw [hvalue]
  have hlength : i < (List.map f (List.range' 0 size)).length := by simpa using hi
  simp [Chunks.slice, List.getD_eq_getElem?_getD, List.getElem?_append_left hlength, hi]

theorem load_succ (b : UInt8) :
    load (fun i => if i = 0 then b else f (i - 1)) (n + 1) = b.toNat + 256 * load f n := by
  simp [load, List.range_succ_eq_map, List.foldr_map]

theorem exists_load (hv : v < 256 ^ n) : ∃ f, load f n = v := by
  induction n generalizing v with
  | zero => exact ⟨fun _ => 0, (Nat.lt_one_iff.mp hv).symm⟩
  | succ n ih =>
      obtain ⟨f, hf⟩ := ih (v := v / 256) (by rw [Nat.pow_succ] at hv; omega)
      refine ⟨fun i => if i = 0 then UInt8.ofNat (v % 256) else f (i - 1), ?_⟩
      rw [load_succ, hf]
      simp only [UInt8.toNat_ofNat']
      omega

theorem pointerEntry_storing {rows : List StoredType} {t : StoredType} (hf : load f 8 = 1)
    (hsize : typeSize t = 8) :
    pointerEntry rows (storing f [⟨1, 1, 0, 0⟩]) t 0 0 =
      itemsEntry rows (storing f [⟨1, 1, 0, 0⟩]) t 1 0 t.dim 1 [.pointer 1 ""] := by
  have htarget : (storing f [⟨1, 1, 0, 0⟩]).loadAt 0 8 8 = 1 :=
    (storing_loadAt (by decide)).trans hf
  rw [pointerEntry, hsize, htarget]
  rfl

end

/-! ## Integers -/

/-- The entry that is compared with the value of an expression. -/
def EntryValue.entry : EntryValue → Entry
  | .number value char => .number value char
  | .unsupported => .unsupported
  | _ => .other

section
variable {S : Symbols} {rows : List StoredType} {members : List (Nat × DieMember)} {c : Contents}
  {t : StoredType} {o addr fuel : Nat}

theorem getTypeSize_typeTable (hnodup : (rows.map (·.offset)).Nodup)
    (hS : S.types = typeTable rows) : S.getTypeSize o = (typeAt rows o).map typeRow := by
  ext r
  rw [getTypeSize_eq_some, hS, mem_typeTable hnodup, Option.map_eq_some_iff]
  exact exists_congr fun _ => and_congr_right fun _ => eq_comm

theorem drillDown_typeTable (hnodup : (rows.map (·.offset)).Nodup) (hS : S.types = typeTable rows) :
    ∀ {fuel : Nat} {t : StoredType},
      S.drillDown fuel (typeRow t) = (drillDown rows fuel t).map typeRow
  | 0, _ => rfl
  | fuel + 1, t => by
      have hparent : S.getTypeSize (typeRow t).parent = (typeAt rows t.parent).map typeRow :=
        getTypeSize_typeTable hnodup hS
      rw [Symbols.drillDown, drillDown, hparent]
      by_cases halias : t.flags = tkindAlias
      · have halias' : (typeRow t).flags = Agreement.tkindAlias := halias
        rw [if_pos halias, if_pos halias']
        cases typeAt rows t.parent with
        | none => rfl
        | some p => exact drillDown_typeTable hnodup hS
      · have hplain : ¬ (typeRow t).flags = Agreement.tkindAlias := halias
        rw [if_neg halias, if_neg hplain]
        rfl

theorem actualType_typeTable (hnodup : (rows.map (·.offset)).Nodup)
    (hS : S.types = typeTable rows) :
    S.actualType o = ((typeAt rows o).bind (drillDown rows (rows.length + 1))).map typeRow := by
  have hfuel : rows.length < S.types.length + 1 := by
    rw [hS, typeTable, List.length_append, List.length_map]
    omega
  rw [Symbols.actualType, getTypeSize_typeTable hnodup hS, ← drillDown_length hfuel]
  cases typeAt rows o with
  | none => rfl
  | some t => exact drillDown_typeTable hnodup hS

/-- **Integers** are shown as the comparison with expressions has them. -/
theorem addVarEntry_integer (hnodup : (rows.map (·.offset)).Nodup) (hS : S.types = typeTable rows)
    (ht : (typeAt rows o).bind (drillDown rows (rows.length + 1)) = some t)
    (hinteger : (tkind t).isInteger) :
    ∃ v, shownValues (addVarEntry rows members c addr o 0) = some (some [v]) ∧
      S.addVarEntry (some c.mem) c.curStep addr o = some v.entry := by
  have hentry (signed : Bool) (hsigned : signed = decide (tkind t = .signed)) :
      S.addVarEntry (some c.mem) c.curStep addr o =
        some (integerValue c signed addr (typeSize t)).entry := by
    have hkind : (typeRow t).kind.isInteger := hinteger
    rw [Symbols.addVarEntry, actualType_typeTable hnodup hS, ht, Option.map_some]
    dsimp only
    rw [if_pos hkind, integerValue, hsigned]
    by_cases hsize : integerSize (typeSize t)
    · have hsize' : integerSize (typeRow t).size := hsize
      rw [if_pos hsize, if_pos hsize']
      rfl
    · have hsize' : ¬ integerSize (typeRow t).size := hsize
      rw [if_neg hsize, if_neg hsize']
      rfl
  rw [addVarEntry, ht]
  simp only [typeEntry]
  cases hk : tkind t with
  | signed => exact ⟨_, rfl, hentry true (by rw [hk]; rfl)⟩
  | unsigned => exact ⟨_, rfl, hentry false (by rw [hk]; rfl)⟩
  | _ =>
      rw [hk] at hinteger
      cases hinteger

/-- What `FlightRec.Examine.Refs` has of an entry. -/
def shownEntry (rows : List StoredType) (members : List (Nat × DieMember)) (c : Contents)
    (target : RefTarget) : Shown :=
  match addVarEntry rows members c target.address target.type target.indirect with
  | some (some { reference := some (address, type, indirect), .. }) =>
      .ref ⟨address, type, indirect⟩
  | some (some _) => .plain
  | _ => .failed

/-- **References** are given out for what the entry can be expanded to. -/
theorem refs_addVarEntry {info : DebugInfo} {a : Ask} {target : RefTarget}
    {entry : Option VarEntry} (hinfo : info.shown c.curStep = shownEntry rows members c)
    (hentry : addVarEntry rows members c target.address target.type target.indirect = some entry)
    (refs : RefTable) :
    FlightRec.addVarEntry info c.curStep a target refs =
      entry.map fun e =>
        match e.reference with
        | none => (refs, [])
        | some (address, type, indirect) =>
            let given := getVarRef a ⟨address, type, indirect⟩ refs
            (given.1, [given.2]) := by
  rw [FlightRec.addVarEntry, hinfo, shownEntry, hentry]
  cases entry with
  | none => rfl
  | some e =>
      rcases e with ⟨values, _ | ⟨address, type, indirect⟩, named, indexed⟩
      · rfl
      · rfl

end

end FlightRec.Entries
