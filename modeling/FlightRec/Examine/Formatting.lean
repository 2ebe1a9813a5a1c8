/-
# `FlightRec.Examine.Formatting` — values in buffers of a fixed size

`add_var_entry` of examine/vars.c and `get_eval_result` of
examine/expressions/expression.c format values with `sprintf` into local buffers: pointers
with the name of their type into 32 bytes, numbers and enumerators into 64 bytes, and
results that are numbers into 32.

    integers               fit
    `%g`                   fits
    `%lf`                  fits up to 24 digits before the point, with the sign
    names                  fit if they are short

(`formatted_fits_iff`).
-/
import FlightRec.Examine.Entries
import FlightRec.Expressions.Lvalues
import FlightRec.Lib.Printf

namespace FlightRec.Formatting

open Agreement Entries Expressions Hoare Printf

/-- A local buffer, and what is written to it. -/
structure Buffer where
  size : Nat
  text : List UInt8
  deriving DecidableEq, Repr

/-- There is room for the text and its terminator. -/
def Buffer.Fits (b : Buffer) : Prop := b.text.length + 1 ≤ b.size

instance (b : Buffer) : Decidable b.Fits := inferInstanceAs (Decidable (_ ≤ _))

theorem fits_iff {size : Nat} {text : List UInt8} :
    (⟨size, text⟩ : Buffer).Fits ↔ text.length + 1 ≤ size := Iff.rfl

/-! ## What is written -/

/-- `" (dangling)"`, `" (invalid)"` or nothing. -/
def noteText (note : String) : List UInt8 :=
  if note = "" then [] else ascii [' ', '('] ++ bytes note ++ ascii [')']

/-- `"(%s)0x%" PRIx64`, with a note -/
def pointerText (typeName : String) (addr : Nat) (note : String) : List UInt8 :=
  ascii ['('] ++ bytes typeName ++ ascii [')', '0', 'x'] ++ hex addr ++ noteText note

/-- `" '%c'"` -/
def charText : Option UInt8 → List UInt8
  | none => []
  | some c => ascii [' ', '\''] ++ c :: ascii ['\'']

/-- The number of a `float`, a `double` or a `long double`. -/
def floatOf (size bits : Nat) : Number :=
  if size = 4 then ieee 8 23 bits else if size = 8 then ieee 11 52 bits else extended bits

/-- `tmp` or `new_val` of `add_var_entry`. -/
def entryBuffer (typeName : String) : EntryValue → Option Buffer
  | .pointer addr note => some ⟨32, pointerText typeName addr note⟩
  | .number value char => some ⟨64, signed value ++ charText char⟩
  | .float size bits => some ⟨64, general (floatOf size bits)⟩
  | .enumItem name value =>
      some ⟨64, bytes (name.getD "(null)") ++ ascii [' ', '('] ++ unsigned value ++ ascii [')']⟩
  | .unsupported => some ⟨64, ascii "unsupported".toList⟩
  | _ => none

/-- `value` or `tmp` of `get_eval_result`. -/
def resultBuffer : Printed → Option Buffer
  | .signed value char => some ⟨32, signed value ++ charText char⟩
  | .unsigned value char => some ⟨32, unsigned value ++ charText char⟩
  | .float bits => some ⟨32, fixed (ieee 11 52 bits.toNat)⟩
  | .pointer typeName addr note => some ⟨32, pointerText typeName addr.toNat note⟩
  | _ => none

/-! ## What is formatted -/

/-- Of a pointer; the entry may fail later. -/
def pointerFormats (c : Contents) (t : StoredType) (addr : Nat) : List EntryValue :=
  let target := c.loadAt addr (typeSize t) 8
  if target = 0 then []
  else
    match Heap.getPointerSize (some c.mem) (c.heapRow target) target c.curStep with
    | .memReleased => [.pointer target "dangling"]
    | .memNotfound => [.pointer target "invalid"]
    | .failure => []
    | .success _ => [.pointer target ""]

/-- Of a type that is no typedef. -/
def typeFormats (members : List (Nat × DieMember)) (c : Contents) (t : StoredType)
    (addr indirect : Nat) : List EntryValue :=
  if indirect ≠ 0 then pointerFormats c t addr
  else
    match tkind t with
    | .struct | .union | .array => []
    | .pointer => pointerFormats c t addr
    | .signed => [integerValue c true addr (typeSize t)]
    | .unsigned => [integerValue c false addr (typeSize t)]
    | .float =>
        let size := typeSize t
        [if floatSize size then .float size (c.loadAt addr size size) else .unsupported]
    | .enum => [enumValue members c t.offset addr (typeSize t)]
    | _ => [.unsupported]

/-- By `add_var_entry`. -/
def entryFormats (rows : List StoredType) (members : List (Nat × DieMember)) (c : Contents)
    (addr type indirect : Nat) : List EntryValue :=
  match (typeAt rows type).bind (drillDown rows (rows.length + 1)) with
  | none => []
  | some t => typeFormats members c t addr indirect

/-- By `get_eval_result`, for a pointer that is not `NULL`. -/
def resultPointerFormats (env : Env) (a : Attrs) (addr : NodeValue) : List Printed :=
  let shown := Printed.pointer (env.typeName a.typeOffset a.indirect) addr
  match env.pointerSize addr with
  | .released => [shown "dangling"]
  | .notFound => [shown "invalid"]
  | .failure => []
  | .size _ => [shown ""]

/-- By `get_eval_result`. -/
def resultFormats (env : Env) (ast : AstNode) (step : Nat) (s : Status) : List Printed :=
  let details := if ast.typeOffset = 0 then some (env.dim, env.underKind)
    else env.typeDetails ast.typeOffset
  match evaluateNode env step ast .noFlags s with
  | none => []
  | some (value, s') =>
      if s'.error.isSome then []
      else if ast.indirect = 0 then
        if ast.typeKind.isNumeric then (printBasic ast.attrs value).toList else []
      else if details = none ∨ value = 0 then []
      else resultPointerFormats env ast.attrs value

/-! ## What fits -/

/-- Names that leave room for what is written with them. -/
def EntryBounded (typeName : String) : EntryValue → Prop
  | .pointer addr note =>
      typeName.utf8ByteSize + (hex addr).length + (noteText note).length ≤ 27
  | .enumItem name value => (name.getD "(null)").utf8ByteSize + (unsigned value).length ≤ 60
  | _ => True

/-- Names as before, and floating point numbers that are not too large. -/
def ResultBounded : Printed → Prop
  | .pointer typeName addr note =>
      typeName.utf8ByteSize + (hex addr.toNat).length + (noteText note).length ≤ 27
  | .float bits =>
      match ieee 11 52 bits.toNat with
      | .finite x => ⌊x.magnitude⌋₊ < 10 ^ (24 - x.negative.toNat)
      | _ => True
  | _ => True

/-- Integers are those of 64 bits. -/
def Word : EntryValue → Prop
  | .number value _ => value.natAbs < 2 ^ 64
  | _ => True

/-- Integers are those of 64 bits. -/
def ResultWord : Printed → Prop
  | .signed value _ => value.natAbs < 2 ^ 64
  | .unsigned value _ => value < 2 ^ 64
  | _ => True

section
variable {c : Contents} {t : StoredType} {members : List (Nat × DieMember)}
  {rows : List StoredType} {addr type indirect : Nat} {v : EntryValue} {b : Buffer}
  {typeName : String}

theorem length_pointerText (typeName : String) (addr : Nat) (note : String) :
    (pointerText typeName addr note).length =
      typeName.utf8ByteSize + (hex addr).length + (noteText note).length + 4 := by
  simp only [pointerText, List.length_append, length_ascii, length_bytes, List.length_cons,
    List.length_nil]
  omega

theorem length_charText_le (char : Option UInt8) : (charText char).length ≤ 4 := by
  cases char with
  | none => exact Nat.zero_le 4
  | some c => exact le_rfl

theorem moderate_floatOf (size bits : Nat) : (floatOf size bits).Moderate := by
  rw [floatOf]
  split
  · exact moderate_ieee (by decide) (by decide) bits
  · split
    · exact moderate_ieee (by decide) (by decide) bits
    · exact moderate_extended bits

theorem entryBuffer_fits_iff (hv : Word v) (h : entryBuffer typeName v = some b) :
    b.Fits ↔ EntryBounded typeName v := by
  cases v with
  | pointer addr note =>
      cases h
      rw [fits_iff, EntryBounded, length_pointerText]
      omega
  | number value char =>
      cases h
      have hword : value.natAbs < 10 ^ 20 := lt_of_lt_of_le hv (by decide)
      have hnumber := length_signed_le hword (by decide)
      have hchar := length_charText_le char
      refine iff_of_true ?_ trivial
      rw [fits_iff, List.length_append]
      omega
  | float size bits =>
      cases h
      have hlength := length_general_le (moderate_floatOf size bits)
      refine iff_of_true ?_ trivial
      rw [fits_iff]
      omega
  | enumItem name value =>
      cases h
      simp only [fits_iff, EntryBounded, List.length_append, length_ascii, length_bytes,
        List.length_cons, List.length_nil]
      omega
  | unsupported =>
      cases h
      exact iff_of_true (by decide) trivial
  | _ => cases h

/-- A value of `get_eval_result` fits exactly if its name is short or its number small. -/
theorem resultBuffer_fits_iff {p : Printed} (hp : ResultWord p) (h : resultBuffer p = some b) :
    b.Fits ↔ ResultBounded p := by
  cases p with
  | signed value char =>
      cases h
      have hlt : value.natAbs < 10 ^ 20 := lt_of_lt_of_le hp (by decide)
      have hnumber := length_signed_le hlt (by decide)
      have hchar := length_charText_le char
      refine iff_of_true ?_ trivial
      rw [fits_iff, List.length_append]
      omega
  | unsigned value char =>
      cases h
      have hlt : value < 10 ^ 20 := lt_of_lt_of_le hp (by decide)
      have hnumber := (length_unsigned_le_iff (by decide)).mpr hlt
      have hchar := length_charText_le char
      refine iff_of_true ?_ trivial
      rw [fits_iff, List.length_append]
      omega
  | float bits =>
      cases h
      rw [fits_iff, ResultBounded]
      cases hnumber : ieee 11 52 bits.toNat with
      | finite x =>
          have hmantissa : x.mantissa < 2 ^ 64 :=
            lt_of_lt_of_le (ieee_mantissa hnumber) (by decide)
          have hsign : x.negative.toNat ≤ 1 := Bool.toNat_le _
          have hlength := length_fixed_le_iff (k := 24 - x.negative.toNat) hmantissa (by omega)
          dsimp only
          rw [← hlength]
          omega
      | infinite negative => cases negative <;> exact iff_of_true (by decide) trivial
      | nan negative => cases negative <;> exact iff_of_true (by decide) trivial
  | pointer typeName addr note =>
      cases h
      rw [fits_iff, ResultBounded, length_pointerText]
      omega
  | _ => cases h

theorem entryBounded_of_none (h : entryBuffer typeName v = none) : EntryBounded typeName v := by
  cases v with
  | pointer addr note => cases h
  | enumItem name value => cases h
  | _ => trivial

theorem resultBounded_of_none {p : Printed} (h : resultBuffer p = none) : ResultBounded p := by
  cases p with
  | pointer typeName addr note => cases h
  | float bits => cases h
  | _ => trivial

/-! ## Runs -/

theorem readInteger_natAbs_lt {mem : List MemMsg} {sign : Bool} {addr size step : Nat}
    (hsize : integerSize size) : (readInteger mem sign addr size step).natAbs < 2 ^ 64 := by
  have hle : 8 * size ≤ 64 := by
    simp only [integerSize, Bool.or_eq_true, decide_eq_true_eq] at hsize
    omega
  have hpow : 2 ^ (8 * size) ≤ 2 ^ 64 := Nat.pow_le_pow_right (by decide) hle
  rw [readInteger, integerOf]
  generalize (fun i => (getVarValue mem addr size step).getD i 0) = buffer
  split
  · have hlo := BitVec.le_two_mul_toInt (x := BitVec.ofNat (8 * size) (load buffer size))
    have hhi := BitVec.two_mul_toInt_lt (x := BitVec.ofNat (8 * size) (load buffer size))
    have hcast : ((2 : Int) ^ (8 * size)) = ((2 ^ (8 * size) : Nat) : Int) := by
      push_cast
      rfl
    rw [hcast] at hlo hhi
    omega
  · exact (load_lt buffer size).trans_le hpow

theorem word_integerValue {sign : Bool} {size : Nat} : Word (integerValue c sign addr size) := by
  rw [integerValue]
  split
  · exact readInteger_natAbs_lt ‹_›
  · trivial

theorem word_enumValue {size : Nat} : Word (enumValue members c type addr size) := by
  rw [enumValue]
  split
  next hsize =>
    dsimp only
    split
    · have hle : 8 * size ≤ 64 := by
        simp only [enumSize, Bool.or_eq_true, decide_eq_true_eq] at hsize
        omega
      exact (load_lt _ size).trans_le (Nat.pow_le_pow_right (by decide) hle)
    · trivial
  · trivial

theorem word_pointerFormats (hv : v ∈ pointerFormats c t addr) : Word v := by
  rw [pointerFormats] at hv
  split at hv
  · cases hv
  · split at hv
    · cases List.mem_singleton.mp hv
      trivial
    · cases List.mem_singleton.mp hv
      trivial
    · cases hv
    · cases List.mem_singleton.mp hv
      trivial

theorem word_entryFormats (hv : v ∈ entryFormats rows members c addr type indirect) : Word v := by
  rw [entryFormats] at hv
  split at hv
  · cases hv
  · rw [typeFormats] at hv
    split at hv
    · exact word_pointerFormats hv
    · split at hv
      · cases hv
      · cases hv
      · cases hv
      · exact word_pointerFormats hv
      · exact List.mem_singleton.mp hv ▸ word_integerValue
      · exact List.mem_singleton.mp hv ▸ word_integerValue
      · rw [List.mem_singleton.mp hv]
        split <;> trivial
      · exact List.mem_singleton.mp hv ▸ word_enumValue
      · exact List.mem_singleton.mp hv ▸ trivial

theorem items_formatted {item : StoredType} {dim pointerSize : Nat} {shown : List EntryValue}
    {e : VarEntry} (h : itemsEntry rows c item addr indirect dim pointerSize shown = some (some e))
    (hv : v ∈ e.values) (hb : entryBuffer typeName v = some b) : v ∈ shown := by
  have hplain : v ∈ (if shown = [] then [.typeName] else shown) → v ∈ shown := by
    split
    · intro hmem
      rw [List.mem_singleton.mp hmem] at hb
      cases hb
    · exact id
  have hlast (w : EntryValue) (hw : entryBuffer typeName w = none) : v ∈ shown ++ [w] →
      v ∈ shown := by
    intro hmem
    rcases List.mem_append.mp hmem with hmem | hmem
    · exact hmem
    · rw [List.mem_singleton.mp hmem, hw] at hb
      cases hb
  rw [itemsEntry] at h
  split at h
  · cases h
  next elem _ =>
    split at h
    · cases h
    · dsimp only at h
      generalize (if pointerSize ≠ 0 then pointerSize / typeSize elem else dim) = dim' at h
      split at h
      · cases h
        exact hlast _ rfl hv
      · split at h
        · cases h
          exact hlast _ rfl hv
        · split at h
          · cases h
            exact hplain hv
          · cases h
            exact hplain hv

theorem pointer_formatted {e : VarEntry} (h : pointerEntry rows c t addr indirect = some (some e))
    (hv : v ∈ e.values) (hb : entryBuffer typeName v = some b) : v ∈ pointerFormats c t addr := by
  rw [pointerEntry] at h
  rw [pointerFormats]
  dsimp only at h ⊢
  generalize c.loadAt addr (typeSize t) 8 = target at h ⊢
  by_cases hnull : target = 0
  · rw [if_pos hnull] at h
    cases h
    rw [List.mem_singleton.mp hv] at hb
    cases hb
  · rw [if_neg hnull] at h ⊢
    cases hsize : Heap.getPointerSize (some c.mem) (c.heapRow target) target c.curStep with
    | memReleased =>
        rw [hsize] at h
        cases h
        exact hv
    | memNotfound =>
        rw [hsize] at h
        cases h
        exact hv
    | failure =>
        rw [hsize] at h
        cases h
        cases hv
    | success size =>
        rw [hsize] at h
        exact items_formatted h hv hb

theorem entry_formatted {e : VarEntry}
    (h : Entries.addVarEntry rows members c addr type indirect = some (some e)) (hv : v ∈ e.values)
    (hb : entryBuffer typeName v = some b) :
    v ∈ entryFormats rows members c addr type indirect := by
  rw [Entries.addVarEntry] at h
  rw [entryFormats]
  cases htype : (typeAt rows type).bind (drillDown rows (rows.length + 1)) with
  | none =>
      rw [htype] at h
      cases h
  | some t =>
      rw [htype] at h
      dsimp only at h ⊢
      rw [typeEntry] at h
      rw [typeFormats]
      split at h
      · rw [if_pos ‹_›]
        exact pointer_formatted h hv hb
      · rw [if_neg ‹_›]
        cases hkind : tkind t with
        | struct | union =>
            rw [hkind] at h
            cases h
            rw [List.mem_singleton.mp hv] at hb
            cases hb
        | array =>
            rw [hkind] at h
            exact items_formatted h hv hb
        | pointer =>
            rw [hkind] at h
            exact pointer_formatted h hv hb
        | _ =>
            rw [hkind] at h
            cases h
            exact hv

end

section
variable {env : Env} {ast : AstNode} {id step : Nat} {s s' : Status} {p : Printed} {b : Buffer}
  {r : EvalResult}

theorem word_resultFormats (hp : p ∈ resultFormats env ast step s) : ResultWord p := by
  have hpointer {a : Attrs} {addr : NodeValue} (h : p ∈ resultPointerFormats env a addr) :
      ResultWord p := by
    rw [resultPointerFormats] at h
    split at h
    · cases List.mem_singleton.mp h
      trivial
    · cases List.mem_singleton.mp h
      trivial
    · cases h
    · cases List.mem_singleton.mp h
      trivial
  have hnumber {a : Attrs} {value : NodeValue} (h : p ∈ (printBasic a value).toList) :
      ResultWord p := by
    rw [Option.mem_toList, printBasic] at h
    split at h
    · cases h
      have hlo := BitVec.le_two_mul_toInt (x := value)
      have hhi := BitVec.two_mul_toInt_lt (x := value)
      rw [ResultWord]
      omega
    · cases h
      exact value.isLt
    · cases h
      trivial
    · cases h
  rw [resultFormats] at hp
  generalize (if ast.typeOffset = 0 then some (env.dim, env.underKind)
    else env.typeDetails ast.typeOffset) = details at hp
  split at hp
  · cases hp
  · split at hp
    · cases hp
    · split at hp
      · split at hp
        · exact hnumber hp
        · cases hp
      · split at hp
        · cases hp
        · exact hpointer hp

theorem evalItems_unbuffered {a : Attrs} {addr dim size : NodeValue} {underKind : Nat}
    {value : Printed} (h : evalItems env id a addr dim size underKind value = some r)
    (hp : r.result = some p) (hb : resultBuffer p = some b) : p = value := by
  rw [evalItems] at h
  split at h
  · dsimp only at h
    generalize (if size = 0 then 32 else dim.toNat) = len at h
    cases hmem : env.mem with
    | none =>
        rw [hmem] at h
        cases h
    | some mem =>
        rw [hmem] at h
        cases h
        cases hp
        cases hb
  · split at h
    · cases h
    · cases h
      exact (Option.some.inj hp).symm

theorem evalPointer_formatted {a : Attrs} {addr : NodeValue} {underKind : Nat}
    (h : evalPointer env id a addr underKind s = some (some r, s')) (hp : r.result = some p)
    (hb : resultBuffer p = some b) : p ∈ resultPointerFormats env a addr := by
  rw [evalPointer] at h
  rw [resultPointerFormats]
  cases hsize : env.pointerSize addr with
  | released =>
      rw [hsize] at h
      cases h
      cases hp
      exact List.mem_singleton_self _
  | notFound =>
      rw [hsize] at h
      cases h
      cases hp
      exact List.mem_singleton_self _
  | failure =>
      rw [hsize] at h
      cases h
      cases hp
  | size bytes =>
      rw [hsize] at h
      dsimp only at h
      split at h
      · exact List.mem_singleton.mpr
          (evalItems_unbuffered (Prod.mk.inj (Option.some.inj h)).1 hp hb)
      · split at h
        · cases h
        · exact List.mem_singleton.mpr
            (evalItems_unbuffered (Prod.mk.inj (Option.some.inj h)).1 hp hb)

theorem result_formatted (h : getEvalResult env id ast step s = some (some r, s'))
    (hp : r.result = some p) (hb : resultBuffer p = some b) :
    p ∈ resultFormats env ast step s := by
  unfold getEvalResult at h
  unfold resultFormats
  generalize (if ast.typeOffset = 0 then some (env.dim, env.underKind)
    else env.typeDetails ast.typeOffset) = details at h ⊢
  by_cases hnumber : ast.indirect = 0 ∧ ast.typeKind.isNumeric
  · rw [if_pos hnumber] at h
    obtain ⟨res, s₁, hres, hs₁, hrest⟩ := shown_iff.mp h
    cases hrest
    dsimp only at hp ⊢
    rw [hres]
    dsimp only
    rw [hs₁, if_pos hnumber.1, if_pos hnumber.2, hp]
    exact List.mem_singleton_self _
  · rw [if_neg hnumber] at h
    cases details with
    | none => cases h
    | some details =>
        dsimp only at h ⊢
        split at h
        · obtain ⟨addr, s₁, _, _, hrest⟩ := shown_iff.mp h
          cases href : env.varRef id addr ast.typeOffset 0 with
          | none =>
              rw [href] at hrest
              cases hrest
          | some ref =>
              rw [href] at hrest
              cases hrest
              cases hp
              cases hb
        · split at h
          next hpointer =>
            obtain ⟨addr, s₁, hres, hs₁, hrest⟩ := shown_iff.mp h
            by_cases hnull : addr = 0
            · rw [if_pos hnull] at hrest
              cases hrest
              cases hp
              cases hb
            · rw [if_neg hnull] at hrest
              have hfound : ¬ (some details = none ∨ addr = 0) := by
                rintro (hnone | hzero)
                · cases hnone
                · exact hnull hzero
              rw [hres]
              dsimp only
              rw [hs₁, if_neg hpointer, if_neg hfound]
              exact evalPointer_formatted hrest hp hb
          · obtain ⟨addr, s₁, _, _, hrest⟩ := shown_iff.mp h
            have hitems := (Prod.mk.inj (Option.some.inj hrest)).1
            cases evalItems_unbuffered hitems hp hb
            cases hb

end

/-- **Room in the buffers.**  All that is formatted for a variable fits exactly if the names of
its type and of its enumerator are short; all that is formatted for a result, if the name of
its type is short and a floating point number not too large. -/
theorem formatted_fits_iff (rows : List StoredType) (members : List (Nat × DieMember))
    (c : Contents) (addr type indirect : Nat) (typeName : String) (env : Env) (ast : AstNode)
    (step : Nat) (s : Status) :
    ((∀ v ∈ entryFormats rows members c addr type indirect, ∀ b,
        entryBuffer typeName v = some b → b.Fits) ↔
      ∀ v ∈ entryFormats rows members c addr type indirect, EntryBounded typeName v) ∧
    ((∀ p ∈ resultFormats env ast step s, ∀ b, resultBuffer p = some b → b.Fits) ↔
      ∀ p ∈ resultFormats env ast step s, ResultBounded p) := by
  constructor
  · refine forall₂_congr fun v hv => ?_
    cases hb : entryBuffer typeName v with
    | none => exact iff_of_true (fun b h => by cases h) (entryBounded_of_none hb)
    | some b =>
        rw [← entryBuffer_fits_iff (word_entryFormats hv) hb]
        exact ⟨fun h => h b rfl, fun h b' hb' => Option.some.inj hb' ▸ h⟩
  · refine forall₂_congr fun p hp => ?_
    cases hb : resultBuffer p with
    | none => exact iff_of_true (fun b h => by cases h) (resultBounded_of_none hb)
    | some b =>
        rw [← resultBuffer_fits_iff (word_resultFormats hp) hb]
        exact ⟨fun h => h b rfl, fun h b' hb' => Option.some.inj hb' ▸ h⟩

/-! ### Examples -/

/-- The constant `1e300`. -/
def largeFloat : AstNode := .float { typeKind := .float, size := 8 } 0x7E37E43C8800759C

def pointerTypes : List StoredType := [⟨500, some "p", some 8, 0, 400, 4, 1⟩]

/-- A pointer to 0x7ffe12345678 at 64, which is not known. -/
def pointerContents : Contents where
  mem := [⟨64, 1, [0x78, 0x56, 0x34, 0x12, 0xfe, 0x7f, 0, 0, 0, 0, 0, 0, 0, 0, 0, 0,
    0, 0, 0, 0, 0, 0, 0, 0, 0, 0, 0, 0, 0, 0, 0, 0]⟩]
  heap := []
  funcName := fun _ => none
  curStep := 1

/-- A number takes 308 bytes and a terminator, and a pointer to a structure 48, of 32. -/
theorem buffers_overflow :
    (∃ p b, resultFormats noRecording largeFloat 1 {} = [p] ∧ resultBuffer p = some b ∧
      ¬ b.Fits) ∧
    ∃ v b, entryFormats pointerTypes [] pointerContents 64 500 0 = [v] ∧
      entryBuffer "struct configuration *" v = some b ∧ ¬ b.Fits := by
  constructor
  · refine ⟨.float 0x7E37E43C8800759C, _, rfl, rfl, ?_⟩
    rw [resultBuffer_fits_iff (p := .float 0x7E37E43C8800759C) trivial rfl]
    have hnumber : ieee 11 52 0x7E37E43C8800759C = .finite ⟨false, 0x17E43C8800759C, 944⟩ := by
      decide
    intro hbounded
    change (match ieee 11 52 0x7E37E43C8800759C with
      | .finite x => ⌊x.magnitude⌋₊ < 10 ^ (24 - x.negative.toNat)
      | _ => True) at hbounded
    rw [hnumber] at hbounded
    have hlt : ⌊(⟨false, 0x17E43C8800759C, 944⟩ : Binary).magnitude⌋₊ < 10 ^ 24 := hbounded
    rw [magnitude_natCast (j := 944) rfl, Nat.floor_natCast] at hlt
    have hlarge {m j : Nat} (hm : 0 < m) (hj : 80 ≤ j) : 10 ^ 24 ≤ m * 2 ^ j :=
      calc 10 ^ 24 ≤ 2 ^ 80 := by decide
        _ ≤ 2 ^ j := Nat.pow_le_pow_right (by decide) hj
        _ ≤ m * 2 ^ j := Nat.le_mul_of_pos_left _ hm
    exact Nat.not_lt.mpr (hlarge (by decide) (by decide)) hlt
  · refine ⟨.pointer 0x7ffe12345678 "invalid", _, rfl, rfl, ?_⟩
    rw [entryBuffer_fits_iff (v := .pointer 0x7ffe12345678 "invalid") trivial rfl]
    rw [EntryBounded]
    decide

end FlightRec.Formatting
