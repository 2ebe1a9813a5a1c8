/-
# `FlightRec.Examine.Failures` — lookups for an entry that fail

`add_var_entry` looks up types, memory, heap blocks and references, and gives up when one of
these fails: it assigns to `ret` and goes to `cleanup`.  It has a second `ret`, declared where
the size of a pointer is looked up but in the block of the whole switch, so it is the one that
everything below assigns to, arrays, numbers and enums as much as pointers.  What fails there
ends in success, with an entry that has no value (`addVarEntry_reports_iff`).  It does not look
whether there is a name of the type.

Where no lookup fails this is `add_var_entry` of `Examine.Entries` (`entries_addVarEntry`).
-/
import FlightRec.Examine.Entries
import FlightRec.Lib.Cleanup

namespace FlightRec.Failures

open Agreement Cleanup Entries Expressions

/-! ## `add_var_entry` -/

/-- What can fail. -/
inductive Lookup where
  | type
  | typeName
  | memory
  | heap
  | reference
  | enumItem
  | evaluation
  deriving DecidableEq, Repr

/-- What is looked up at the current step; `none` where it fails. -/
structure Lookups where
  /-- `get_type_size` -/
  type : Nat → Option StoredType
  /-- `type_name` -/
  typeName : Nat → Nat → Option String
  /-- `get_var_value`, by address and size. -/
  varValue : Nat → Nat → Option (List UInt8)
  /-- `get_pointer_size` -/
  pointerSize : Nat → Heap.PointerSize
  /-- `get_var_ref`, by address, type and indirections. -/
  varRef : Nat → Nat → Nat → Option Nat
  /-- `func_name` -/
  funcName : Nat → Option String
  /-- The query for the item of an enum, by type and value, which may find nothing. -/
  enumItem : Nat → Nat → Option (Option DieMember)

/-- A run of `add_var_entry`, with what it adds to its item. -/
abbrev EntryExit := Exit Lookup VarEntry

/-- The first bytes of a buffer, as a number. -/
def loadBytes (bytes : List UInt8) (n : Nat) : Nat := load (fun i => bytes.getD i 0) n

/-- The loop over typedefs: a type, or the lookup that fails, or no end. -/
inductive DrillDown where
  | type (t : StoredType)
  | failed
  | loops
  deriving DecidableEq, Repr

section
variable (L : Lookups) (tname : Option String)

/-- The loop over typedefs. -/
def drillDown : Nat → StoredType → DrillDown
  | 0, _ => .loops
  | fuel + 1, t =>
      if t.flags = tkindAlias then
        match L.type t.parent with
        | none => .failed
        | some t => drillDown fuel t
      else .type t

/-- The number of items in what a pointer points to, or else of an array. -/
def itemCount (item : StoredType) (dim pointerSize : Nat) : Nat :=
  if pointerSize ≠ 0 then pointerSize / typeSize item else dim

/-- Shown as a string. -/
def isText (item : StoredType) : Bool := typeSize item = 1 && (tkind item).isInteger

/-- The characters that are read; of a string of unknown length the first few. -/
def textSize (item : StoredType) (dim pointerSize : Nat) : Nat :=
  if pointerSize = 0 then 32 else itemCount item dim pointerSize

/-- The one item of a pointer to a struct or a union is shown as that. -/
def isSingle (item : StoredType) (dim pointerSize : Nat) : Bool :=
  itemCount item dim pointerSize = 1 && (tkind item = .struct || tkind item = .union)

/-- The type that the reference is made for. -/
def itemsType (t item : StoredType) (dim pointerSize : Nat) : Nat :=
  if isSingle item dim pointerSize then t.parent else t.offset

/-- The end of what pointers and arrays have in common. -/
def itemsRef (t item : StoredType) (addr indirect dim pointerSize : Nat)
    (shown : List EntryValue) : EntryExit :=
  let type := itemsType t item dim pointerSize
  match L.varRef addr type indirect with
  | none => { leave := .shadowed .failure, refused := [.reference], entry := { values := shown } }
  | some _ =>
      let indexed :=
        if isSingle item dim pointerSize then none else some (itemCount item dim pointerSize)
      if shown = [] ∧ tname = none then
        { leave := .crash, entry := { values := [], indexedVariables := indexed } }
      else
        { leave := .shadowed .success
          entry := { values := if shown = [] then [.typeName] else shown
                     reference := some (addr, type, indirect)
                     indexedVariables := indexed } }

/-- What pointers and arrays have in common; `shown` are the values that are there already. -/
def itemsEntry (t : StoredType) (addr indirect dim pointerSize : Nat) (shown : List EntryValue) :
    EntryExit :=
  match if indirect ≠ 0 then some t else L.type t.parent with
  | none => { leave := .ret .failure, refused := [.type], entry := { values := shown } }
  | some item =>
      if pointerSize ≠ 0 ∧ typeSize item = 0 then
        { leave := .crash, entry := { values := shown } }
      else if tkind item = .func then
        { leave := .shadowed .success
          entry := { values := shown ++ [.function addr (L.funcName addr)] } }
      else if isText item then
        let dim := textSize item dim pointerSize
        match L.varValue addr dim with
        | none =>
            { leave := .shadowed .failure, refused := [.memory], entry := { values := shown } }
        | some bytes =>
            let text := (bytes.take dim).takeWhile (· ≠ 0)
            { leave := .shadowed .success
              entry := { values := shown ++ [.string addr text (text.length < dim)] } }
      else itemsRef L tname t item addr indirect dim pointerSize shown

/-- A pointer that is shown with its type; without the name of the type the debugger ends. -/
def named (exit : EntryExit) : EntryExit :=
  match tname with
  | none => { leave := .crash, entry := { values := [] } }
  | some _ => exit

/-- The entry for a struct or a union. -/
def structEntry (t : StoredType) (addr : Nat) : EntryExit :=
  match L.varRef addr t.offset 0 with
  | none => { leave := .clean .failure, refused := [.reference], entry := { values := [] } }
  | some _ => named tname
      { leave := .clean .success
        entry := { values := [.typeName], reference := some (addr, t.offset, 0),
                   namedVariables := some t.dim } }

/-- The entry for a pointer: the inner `ret` is declared at the lookup of its size. -/
def pointerEntry (t : StoredType) (addr indirect : Nat) : EntryExit :=
  match L.varValue addr (typeSize t) with
  | none => { leave := .clean .failure, refused := [.memory], entry := { values := [] } }
  | some bytes =>
      let target := loadBytes bytes 8
      if target = 0 then { leave := .clean .success, entry := { values := [.null] } }
      else
        match L.pointerSize target with
        | .memReleased => named tname
            { leave := .shadowed .success, entry := { values := [.pointer target "dangling"] } }
        | .memNotfound => named tname
            { leave := .shadowed .success, entry := { values := [.pointer target "invalid"] } }
        | .failure =>
            { leave := .shadowed .failure, refused := [.heap], entry := { values := [] } }
        | .success size => named tname
            (itemsEntry L tname t target indirect (if size = 0 then 1 else t.dim) size
              [.pointer target ""])

/-- The entry for a number. -/
def numberEntry (addr size : Nat) (value : List UInt8 → EntryValue) : EntryExit :=
  match L.varValue addr size with
  | none => { leave := .shadowed .failure, refused := [.memory], entry := { values := [] } }
  | some bytes => { leave := .falls, entry := { values := [value bytes] } }

/-- The value of an integer. -/
def integerValue (signed : Bool) (size : Nat) (bytes : List UInt8) : EntryValue :=
  if integerSize size then
    let value := integerOf signed size fun i => bytes.getD i 0
    .number value (if size = 1 ∧ isprint value then some (UInt8.ofNat value.toNat) else none)
  else .unsupported

/-- The value of a floating point number. -/
def floatValue (size : Nat) (bytes : List UInt8) : EntryValue :=
  if floatSize size then .float size (loadBytes bytes size) else .unsupported

/-- The entry for an enum, by the item that has its value. -/
def enumEntry (addr type size : Nat) : EntryExit :=
  match L.varValue addr size with
  | none => { leave := .shadowed .failure, refused := [.memory], entry := { values := [] } }
  | some bytes =>
      if enumSize size then
        let value := loadBytes bytes size
        match L.enumItem type value with
        | none => { leave := .shadowed .failure, refused := [.enumItem], entry := { values := [] } }
        | some none => { leave := .falls, entry := { values := [.number value none] } }
        | some (some m) => { leave := .falls, entry := { values := [.enumItem m.name value] } }
      else { leave := .falls, entry := { values := [.unsupported] } }

/-- The switch. -/
def typeEntry (t : StoredType) (addr indirect : Nat) : EntryExit :=
  if indirect ≠ 0 then pointerEntry L tname t addr indirect
  else
    match tkind t with
    | .struct | .union => structEntry L tname t addr
    | .pointer => pointerEntry L tname t addr indirect
    | .array => itemsEntry L tname t addr indirect t.dim 0 []
    | .signed => numberEntry L addr (typeSize t) (integerValue true (typeSize t))
    | .unsigned => numberEntry L addr (typeSize t) (integerValue false (typeSize t))
    | .float => numberEntry L addr (typeSize t) (floatValue (typeSize t))
    | .enum => enumEntry L addr t.offset (typeSize t)
    | _ => { leave := .falls, entry := { values := [.unsupported] } }

end

/-- `add_var_entry` -/
def addVarEntry (L : Lookups) (fuel addr type indirect : Nat) : EntryExit :=
  match L.type type with
  | none => { leave := .ret .failure, refused := [.type], entry := { values := [] } }
  | some t =>
      let tname := L.typeName type indirect
      Exit.passing
        (match drillDown L fuel t with
          | .loops => { leave := .loops, entry := { values := [] } }
          | .failed => { leave := .ret .failure, refused := [.type], entry := { values := [] } }
          | .type t => typeEntry L tname t addr indirect)
        (if tname.isNone then [.typeName] else [])

/-! ## What is reported, and what is lost -/

section
variable (L : Lookups)

/-- A lookup fails at the items, once the type of an item is known. -/
def ItemsLost (t : StoredType) (addr indirect dim pointerSize : Nat) : Prop :=
  ∃ item, (if indirect ≠ 0 then some t else L.type t.parent) = some item ∧
    ¬ (pointerSize ≠ 0 ∧ typeSize item = 0) ∧ tkind item ≠ .func ∧
    if isText item then L.varValue addr (textSize item dim pointerSize) = none
    else L.varRef addr (itemsType t item dim pointerSize) indirect = none

/-- A lookup fails after a pointer is read. -/
def PointerLost (t : StoredType) (addr indirect : Nat) : Prop :=
  ∃ bytes, L.varValue addr (typeSize t) = some bytes ∧ loadBytes bytes 8 ≠ 0 ∧
    (L.pointerSize (loadBytes bytes 8) = .failure ∨
      ∃ size, L.pointerSize (loadBytes bytes 8) = .success size ∧
        ItemsLost L t (loadBytes bytes 8) indirect (if size = 0 then 1 else t.dim) size)

/-- A lookup fails where the inner `ret` is assigned. -/
def Lost (t : StoredType) (addr indirect : Nat) : Prop :=
  if indirect ≠ 0 then PointerLost L t addr indirect
  else
    match tkind t with
    | .pointer => PointerLost L t addr indirect
    | .array => ItemsLost L t addr indirect t.dim 0
    | .signed | .unsigned | .float => L.varValue addr (typeSize t) = none
    | .enum => L.varValue addr (typeSize t) = none ∨
        ∃ bytes, L.varValue addr (typeSize t) = some bytes ∧ enumSize (typeSize t) ∧
          L.enumItem t.offset (loadBytes bytes (typeSize t)) = none
    | _ => False

/-- A lookup fails where the `ret` of the function is assigned, before the name of the type
is used. -/
def Caught (t : StoredType) (addr indirect : Nat) : Prop :=
  if indirect ≠ 0 then L.varValue addr (typeSize t) = none
  else
    match tkind t with
    | .struct | .union => L.varRef addr t.offset 0 = none
    | .pointer => L.varValue addr (typeSize t) = none
    | .array => L.type t.parent = none
    | _ => False

end

section
variable {L : Lookups} {t : StoredType} {addr indirect dim pointerSize : Nat}
  {shown : List EntryValue} {tname : Option String} {name : String}

theorem itemsRef_reports (item : StoredType) :
    (itemsRef L tname t item addr indirect dim pointerSize shown).Reports ↔
      L.varRef addr (itemsType t item dim pointerSize) indirect ≠ none := by
  rw [itemsRef]
  cases href : L.varRef addr (itemsType t item dim pointerSize) indirect with
  | none => simp
  | some ref =>
      dsimp only
      split <;> simp

theorem itemsEntry_reports :
    (itemsEntry L tname t addr indirect dim pointerSize shown).Reports ↔
      ¬ ItemsLost L t addr indirect dim pointerSize := by
  rw [itemsEntry, ItemsLost]
  cases hitem : (if indirect ≠ 0 then some t else L.type t.parent) with
  | none => simp
  | some item =>
      simp only [Option.some_inj, exists_eq_left']
      split
      next hsize => simp [hsize]
      next hsize =>
        split
        next hfunc => simp [hfunc]
        next hfunc =>
          split
          next htext =>
            cases hvalue : L.varValue addr (textSize item dim pointerSize) with
            | none => simp [hfunc, hsize]
            | some bytes => simp
          next htext =>
            rw [itemsRef_reports]
            simp [hsize, hfunc]

theorem itemsRef_not_fails (item : StoredType) :
    ¬ (itemsRef L tname t item addr indirect dim pointerSize shown).Fails := by
  rw [itemsRef]
  cases L.varRef addr (itemsType t item dim pointerSize) indirect with
  | none => simp
  | some ref =>
      dsimp only
      split <;> simp

theorem itemsEntry_fails :
    (itemsEntry L tname t addr indirect dim pointerSize shown).Fails ↔
      indirect = 0 ∧ L.type t.parent = none := by
  rw [itemsEntry]
  cases hitem : (if indirect ≠ 0 then some t else L.type t.parent) with
  | none =>
      refine iff_of_true rfl ?_
      split at hitem
      · cases hitem
      next hdirect => exact ⟨not_not.mp hdirect, hitem⟩
  | some item =>
      refine iff_of_false ?_ ?_
      · dsimp only
        split
        · simp
        · split
          · simp
          · split
            · split <;> simp
            · exact itemsRef_not_fails item
      · rintro ⟨rfl, hnone⟩
        rw [if_neg (not_not.mpr rfl), hnone] at hitem
        cases hitem

theorem structEntry_reports : (structEntry L (some name) t addr).Reports := by
  rw [structEntry]
  cases L.varRef addr t.offset 0 with
  | none => exact fun _ => rfl
  | some ref => exact Exit.reports_of_nil rfl

theorem structEntry_fails :
    (structEntry L none t addr).Fails ↔ L.varRef addr t.offset 0 = none := by
  rw [structEntry]
  cases L.varRef addr t.offset 0 with
  | none => exact iff_of_true rfl rfl
  | some ref => simp [named]

theorem pointerEntry_reports :
    (pointerEntry L (some name) t addr indirect).Reports ↔ ¬ PointerLost L t addr indirect := by
  rw [pointerEntry, PointerLost]
  cases hvalue : L.varValue addr (typeSize t) with
  | none => simp
  | some bytes =>
      simp only [Option.some_inj, exists_eq_left']
      split
      next hnull => simp [hnull]
      next hnull =>
        cases hsize : L.pointerSize (loadBytes bytes 8) with
        | success size =>
            simp only [named, itemsEntry_reports]
            simp [hnull]
        | memReleased => simp [named]
        | memNotfound => simp [named]
        | failure => simp [hnull]

theorem pointerEntry_fails :
    (pointerEntry L none t addr indirect).Fails ↔ L.varValue addr (typeSize t) = none := by
  rw [pointerEntry]
  cases hvalue : L.varValue addr (typeSize t) with
  | none => exact iff_of_true rfl rfl
  | some bytes =>
      refine iff_of_false ?_ (Option.some_ne_none bytes)
      dsimp only
      split
      · simp
      · split <;> simp [named]

theorem numberEntry_reports {value : List UInt8 → EntryValue} {size : Nat} :
    (numberEntry L addr size value).Reports ↔ L.varValue addr size ≠ none := by
  rw [numberEntry]
  cases L.varValue addr size with
  | none => simp
  | some bytes => simp

theorem numberEntry_not_fails {value : List UInt8 → EntryValue} {size : Nat} :
    ¬ (numberEntry L addr size value).Fails := by
  rw [numberEntry]
  cases L.varValue addr size with
  | none => simp
  | some bytes => simp

theorem enumEntry_reports {type size : Nat} :
    (enumEntry L addr type size).Reports ↔ ¬ (L.varValue addr size = none ∨
      ∃ bytes, L.varValue addr size = some bytes ∧ enumSize size ∧
        L.enumItem type (loadBytes bytes size) = none) := by
  rw [enumEntry]
  cases L.varValue addr size with
  | none => simp
  | some bytes =>
      dsimp only
      split
      next hsize =>
        rcases hitem : L.enumItem type (loadBytes bytes size) with _ | _ | m
        · simp [hsize, hitem]
        · simp [hitem]
        · simp [hitem]
      next hsize => simp [hsize]

theorem enumEntry_not_fails {type size : Nat} : ¬ (enumEntry L addr type size).Fails := by
  rw [enumEntry]
  cases L.varValue addr size with
  | none => simp
  | some bytes =>
      dsimp only
      split
      · split <;> simp
      · simp

theorem typeEntry_reports :
    (typeEntry L (some name) t addr indirect).Reports ↔ ¬ Lost L t addr indirect := by
  rw [typeEntry, Lost]
  split
  · exact pointerEntry_reports
  next hdirect =>
    cases tkind t with
    | pointer => exact pointerEntry_reports
    | array => exact itemsEntry_reports
    | signed => exact numberEntry_reports
    | unsigned => exact numberEntry_reports
    | float => exact numberEntry_reports
    | enum => exact enumEntry_reports
    | struct => exact iff_of_true structEntry_reports not_false
    | union => exact iff_of_true structEntry_reports not_false
    | _ => exact iff_of_true (Exit.reports_of_nil rfl) not_false

theorem typeEntry_fails :
    (typeEntry L none t addr indirect).Fails ↔ Caught L t addr indirect := by
  rw [typeEntry, Caught]
  split
  · exact pointerEntry_fails
  next hdirect =>
    cases tkind t with
    | pointer => exact pointerEntry_fails
    | array => exact itemsEntry_fails.trans (and_iff_right (not_not.mp hdirect))
    | signed => exact iff_of_false numberEntry_not_fails id
    | unsigned => exact iff_of_false numberEntry_not_fails id
    | float => exact iff_of_false numberEntry_not_fails id
    | enum => exact iff_of_false enumEntry_not_fails id
    | struct => exact structEntry_fails
    | union => exact structEntry_fails
    | _ => simp

end

/-- Nothing that fails is lost, by what the name of the type is looked up for. -/
def NothingLost (L : Lookups) (fuel addr type indirect : Nat) : Prop :=
  ∀ t, L.type type = some t →
    match drillDown L fuel t, L.typeName type indirect with
    | .failed, _ => True
    | .loops, tname => tname ≠ none
    | .type t, none => Caught L t addr indirect
    | .type t, some _ => ¬ Lost L t addr indirect

/-- **Failures of `add_var_entry`** are reported exactly if none happens in the scope of the
inner `ret` and, where the name of the type is not found, another one is caught. -/
theorem addVarEntry_reports_iff (L : Lookups) (fuel addr type indirect : Nat) :
    (addVarEntry L fuel addr type indirect).Reports ↔ NothingLost L fuel addr type indirect := by
  rw [addVarEntry, NothingLost]
  cases htype : L.type type with
  | none => simp
  | some t =>
      simp only [Option.some_inj, forall_eq']
      cases hname : L.typeName type indirect with
      | none =>
          rw [Option.isNone_none, if_pos rfl, Exit.passing_reports (List.cons_ne_nil _ _)]
          cases drillDown L fuel t with
          | failed => exact iff_of_true rfl trivial
          | loops => simp
          | type t => exact typeEntry_fails
      | some name =>
          rw [Option.isNone_some, if_neg Bool.false_ne_true, Exit.passing_nil]
          cases drillDown L fuel t with
          | failed => exact iff_of_true (fun _ => rfl) trivial
          | loops => exact iff_of_true (Exit.reports_of_nil rfl) (Option.some_ne_none name)
          | type t => exact typeEntry_reports

/-! ## Where no lookup fails -/

/-- What the caller gets: `none` if the debugger ends or does not end, `some none` for
`FAILURE`. -/
def answer {ε : Type*} (e : Exit Lookup ε) : Option (Option ε) :=
  match e.leave.returned with
  | none => none
  | some .success => some (some e.entry)
  | some .failure => some none

section
variable (rows : List StoredType) (members : List (Nat × DieMember)) (c : Contents)
  (names : Nat → Nat → String) (refs : Nat → Nat → Nat → Nat)

/-- Lookups that do not fail, but for types that are not there. -/
def contentsLookups : Lookups where
  type := typeAt rows
  typeName type indirect := some (names type indirect)
  varValue addr size := some (getVarValue c.mem addr size c.curStep)
  pointerSize target := Heap.getPointerSize (some c.mem) (c.heapRow target) target c.curStep
  varRef addr type indirect := some (refs addr type indirect)
  funcName := c.funcName
  enumItem type value := some ((members.find? fun m =>
    m.1 = type ∧ m.2.value = Entries.bindUint value).map Prod.snd)

variable {rows} {members} {c} {names} {refs} {t : StoredType} {addr indirect dim pointerSize : Nat}
  {shown : List EntryValue} {name : String}

theorem drillDown_contents : ∀ (fuel : Nat) (t : StoredType),
    Entries.drillDown rows fuel t =
      match drillDown (contentsLookups rows members c names refs) fuel t with
      | .type t => some t
      | .failed => none
      | .loops => none
  | 0, _ => rfl
  | fuel + 1, t => by
      rw [Entries.drillDown, drillDown]
      split
      · cases htype : typeAt rows t.parent with
        | none => simp [contentsLookups, htype]
        | some t' =>
            simp only [contentsLookups, htype, Option.bind_some]
            exact drillDown_contents fuel t'
      · rfl

theorem isText_iff {item : StoredType} :
    isText item = true ↔ typeSize item = 1 ∧ (tkind item).isInteger := by
  simp [isText]

theorem isSingle_iff {item : StoredType} : isSingle item dim pointerSize = true ↔
    itemCount item dim pointerSize = 1 ∧ (tkind item = .struct ∨ tkind item = .union) := by
  simp [isSingle]

theorem itemsEntry_contents :
    Entries.itemsEntry rows c t addr indirect dim pointerSize shown =
      answer (itemsEntry (contentsLookups rows members c names refs) (some name) t addr indirect dim
        pointerSize shown) := by
  rw [Entries.itemsEntry, itemsEntry]
  have htype : (contentsLookups rows members c names refs).type t.parent = typeAt rows t.parent :=
    rfl
  rw [htype]
  cases (if indirect ≠ 0 then some t else typeAt rows t.parent) with
  | none => rfl
  | some item =>
      have hcount : (if pointerSize ≠ 0 then pointerSize / typeSize item else dim) =
        itemCount item dim pointerSize := rfl
      dsimp only
      rw [hcount]
      split
      · rfl
      · split
        · rfl
        · by_cases htext : isText item
          · rw [if_pos htext, if_pos (isText_iff.mp htext)]
            rfl
          · rw [if_neg htext, if_neg (htext ∘ isText_iff.mpr), itemsRef, itemsType]
            by_cases hsingle : isSingle item dim pointerSize
            · rw [if_pos (isSingle_iff.mp hsingle), if_pos hsingle, if_pos hsingle]
              simp [contentsLookups, answer]
            · rw [if_neg (hsingle ∘ isSingle_iff.mpr), if_neg hsingle, if_neg hsingle]
              simp [contentsLookups, answer]

theorem pointerEntry_contents :
    Entries.pointerEntry rows c t addr indirect =
      answer (pointerEntry (contentsLookups rows members c names refs) (some name) t addr
        indirect) := by
  have hvalue : (contentsLookups rows members c names refs).varValue addr (typeSize t) =
    some (getVarValue c.mem addr (typeSize t) c.curStep) := rfl
  have htarget : loadBytes (getVarValue c.mem addr (typeSize t) c.curStep) 8 =
    c.loadAt addr (typeSize t) 8 := rfl
  have hpointer (target : Nat) : (contentsLookups rows members c names refs).pointerSize target =
    Heap.getPointerSize (some c.mem) (c.heapRow target) target c.curStep := rfl
  rw [Entries.pointerEntry, pointerEntry, hvalue]
  dsimp only
  rw [htarget, hpointer]
  split
  · rfl
  · cases Heap.getPointerSize (some c.mem) (c.heapRow (c.loadAt addr (typeSize t) 8))
      (c.loadAt addr (typeSize t) 8) c.curStep with
    | success size => exact itemsEntry_contents
    | memReleased => rfl
    | memNotfound => rfl
    | failure => rfl

theorem enumEntry_contents {type size : Nat} :
    some (some { values := [enumValue members c type addr size] }) =
      answer (enumEntry (contentsLookups rows members c names refs) addr type size) := by
  have hvalue : (contentsLookups rows members c names refs).varValue addr size =
    some (getVarValue c.mem addr size c.curStep) := rfl
  have hload : loadBytes (getVarValue c.mem addr size c.curStep) size = c.loadAt addr size size :=
    rfl
  rw [enumEntry, enumValue, hvalue]
  dsimp only
  rw [hload]
  split
  · dsimp only [contentsLookups]
    cases members.find? fun m => m.1 = type ∧ m.2.value = bindUint (c.loadAt addr size size) with
    | none => rfl
    | some m => rfl
  · rfl

theorem typeEntry_contents :
    Entries.typeEntry rows members c t addr indirect =
      answer (typeEntry (contentsLookups rows members c names refs) (some name) t addr
        indirect) := by
  rw [Entries.typeEntry, typeEntry]
  split
  · exact pointerEntry_contents
  · cases tkind t with
    | pointer => exact pointerEntry_contents
    | array => exact itemsEntry_contents
    | enum => exact enumEntry_contents
    | _ => rfl

/-- `add_var_entry` of `Entries` is the same, where the typedefs come to an end. -/
theorem entries_addVarEntry {type : Nat}
    (hends : ∀ t, typeAt rows type = some t →
      drillDown (contentsLookups rows members c names refs) (rows.length + 1) t ≠ .loops) :
    Entries.addVarEntry rows members c addr type indirect =
      answer (addVarEntry (contentsLookups rows members c names refs) (rows.length + 1) addr type
        indirect) := by
  rw [Entries.addVarEntry, addVarEntry]
  have htype : (contentsLookups rows members c names refs).type type = typeAt rows type := rfl
  have hname : (contentsLookups rows members c names refs).typeName type indirect =
    some (names type indirect) := rfl
  rw [htype]
  cases hrow : typeAt rows type with
  | none => rfl
  | some t =>
      dsimp only
      rw [hname, Option.isNone_some, if_neg Bool.false_ne_true, Exit.passing_nil, Option.bind_some,
        drillDown_contents]
      cases hdrill : drillDown (contentsLookups rows members c names refs) (rows.length + 1) t with
      | failed => rfl
      | loops => exact absurd hdrill (hends t hrow)
      | type t => exact typeEntry_contents

end

end FlightRec.Failures
