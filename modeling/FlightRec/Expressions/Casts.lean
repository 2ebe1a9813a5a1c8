/-
# `FlightRec.Expressions.Casts` — casts to an integer type

The grammar takes a cast between numbers, "possibly loosing sign and/or precision".  But
`evaluate_node` passes the 64 bits of an integer operand on as they are: it looks at the kind
of the type and not at its size, so neither sign nor precision are ever lost.  And where the
operand is a pointer to a struct, a union or an array, it takes the operand for such an object
and asks for its address.

`integer_cast_iff` has the values for which a cast is right.
-/
import FlightRec.Expressions.Logical
import FlightRec.Lib.Words

namespace FlightRec.Expressions

open Hoare Narrow

/-! ## Integer types -/

/-- An integer type of 1, 2, 4 or 8 bytes. -/
def Attrs.IsIntegerType (a : Attrs) : Prop :=
  a.indirect = 0 ∧ a.typeKind.isInteger ∧ (a.size = 1 ∨ a.size = 2 ∨ a.size = 4 ∨ a.size = 8)

def Attrs.bits (a : Attrs) : Nat := 8 * a.size

/-- Specification: the value modulo the range of the type, read in its signedness. -/
def Attrs.convert (a : Attrs) (v : NodeValue) : NodeValue :=
  narrow (a.typeKind = .signed) a.bits v

/-- A value of the type. -/
def Attrs.HasValue (a : Attrs) (v : NodeValue) : Prop :=
  InRange (a.typeKind = .signed) a.bits v

instance (a : Attrs) (v : NodeValue) : Decidable (a.HasValue v) :=
  inferInstanceAs (Decidable (InRange _ _ _))

/-- Operands of which the evaluator takes the address, although their value is asked for. -/
def AstNode.takenForObject (n : AstNode) : Bool :=
  isAggregate n.typeKind && n.hasAddress

section
variable {T : Tables} {scope : Nat} {F : FloatOps} {env : Env} {step : Nat} {flags : Flags}
  {a t u : Attrs} {n operand : AstNode} {v w addr : NodeValue} {s s' s₁ : Status}

theorem Attrs.IsIntegerType.convert_eq_self_iff (ht : t.IsIntegerType) :
    t.convert v = v ↔ t.HasValue v := by
  obtain ⟨_, _, hsize⟩ := ht
  have hpos : 0 < t.bits := by
    unfold Attrs.bits
    omega
  have hword : t.bits ≤ 64 := by
    unfold Attrs.bits
    omega
  exact narrow_eq_self_iff hpos hword

theorem hasValue_of_size (hsize : t.size = 8) : t.HasValue v := by
  have hbits : t.bits = 64 := by rw [Attrs.bits, hsize]
  rw [Attrs.HasValue, hbits]
  unfold InRange
  split
  · exact ⟨BitVec.le_toInt v, BitVec.toInt_lt⟩
  · exact v.isLt

/-! ## What a cast does -/

/-- To an integer type the evaluator converts floating point numbers and nothing else. -/
theorem castValue_integer (ht : t.IsIntegerType) (ha : a.indirect ≠ 0 ∨ a.typeKind ≠ .float)
    (v : NodeValue) : castValue F t a v = pure v := by
  obtain ⟨hdirect, hinteger, _⟩ := ht
  unfold castValue
  rw [if_neg (not_not_intro hdirect)]
  obtain hk | hk := isInteger_iff.mp hinteger
  all_goals
    rw [hk]
    by_cases hpointer : a.indirect ≠ 0
    · exact if_pos hpointer
    · exact (if_neg hpointer).trans (if_neg (ha.resolve_left hpointer))

/-- The flag that the operand is evaluated with. -/
def operandFlags (operand : AstNode) : Flags :=
  if isAggregate operand.typeKind then .addr else .noFlags

theorem evaluateNode_integer_cast (ht : t.IsIntegerType)
    (ha : operand.indirect ≠ 0 ∨ operand.typeKind ≠ .float) :
    evaluateNode env step (.type t operand) flags = (do
      let value ← evaluateNode env step operand (operandFlags operand)
      check (return value)) := by
  rw [evaluateNode]
  refine congrArg _ (funext fun v => ?_)
  rw [castValue_integer ht ha]

theorem evaluateNode_flags (h : n.hasAddress = false) (flags flags' : Flags) :
    evaluateNode env step n flags = evaluateNode env step n flags' := by
  cases n with
  | var => cases h
  | field => cases h
  | item => cases h
  | unaryOp a op left =>
      cases op with
      | deref => cases h
      | _ => simp only [evaluateNode]
  | _ => simp only [evaluateNode]

/-- Where a node has a value it has an address, and that is found with the same status. -/
theorem exists_address (hn : n.hasAddress) (hs' : s'.error = none)
    (hrun : evaluateNode env step n .noFlags s = some (v, s')) :
    ∃ addr, evaluateNode env step n .addr s = some (addr, s') := by
  obtain ⟨addr, s₁, hplace, hread⟩ := (readsPlace_node hn .noFlags s v s' hs').mp hrun
  obtain rfl := lvalue_quiet hs' hread
  exact ⟨addr, hplace⟩

theorem cast_run (ht : t.IsIntegerType) (ha : operand.indirect ≠ 0 ∨ operand.typeKind ≠ .float)
    (hs' : s'.error = none)
    (hrun : evaluateNode env step operand (operandFlags operand) s = some (v, s'))
    (flags : Flags) : evaluateNode env step (.type t operand) flags s = some (v, s') := by
  rw [evaluateNode_integer_cast ht ha, bind_eq hrun, check_eq hs']
  rfl

theorem operandFlags_run (h : operand.takenForObject = false) :
    evaluateNode env step operand (operandFlags operand) =
      evaluateNode env step operand .noFlags := by
  unfold operandFlags
  split
  next haggregate =>
    have hplain : operand.hasAddress = false := by
      rw [AstNode.takenForObject, haggregate] at h
      exact h
    exact evaluateNode_flags hplain _ _
  next => rfl

/-- A pointer to an object is cast to an integer of its own size only. -/
theorem castAction_size (ht : t.IsIntegerType) (haggregate : isAggregate operand.typeKind)
    (h : castAction t operand = .ok n) : t.size = 8 := by
  obtain ⟨hdirect, _, _⟩ := ht
  have hnumeric : operand.typeKind.isNumeric = false := by
    unfold isAggregate at haggregate
    cases hk : operand.typeKind <;> rw [hk] at haggregate <;> first | rfl | cases haggregate
  unfold castAction at h
  split at h
  next hcast =>
    obtain h | h | h | h | h := hcast
    · exact absurd hdirect h.1
    · exact absurd hdirect h.1
    · exact absurd hdirect h.1
    · exact h.2.2
    · rw [hnumeric] at h
      cases h.2
  next => cases h

theorem cast_cast (ht : t.IsIntegerType) (hu : u.IsIntegerType)
    (ha : operand.indirect ≠ 0 ∨ operand.typeKind ≠ .float) :
    evaluateNode env step (.type t (.type u operand)) flags =
      evaluateNode env step (.type t operand) flags := by
  have hkind : (AstNode.type u operand).typeKind ≠ .float := by
    obtain hk | hk := isInteger_iff.mp hu.2.1
    · exact fun h => by cases hk.symm.trans h
    · exact fun h => by cases hk.symm.trans h
  rw [evaluateNode_integer_cast ht (.inr hkind), evaluateNode_integer_cast ht ha,
    evaluateNode_integer_cast hu ha]
  funext s
  rw [bind_assoc]
  change Option.bind _ _ = Option.bind _ _
  congr 1
  funext ⟨v, s'⟩
  cases hs' : s'.error with
  | none =>
      have hinner : check (return v) s' = some (v, s') := check_eq hs'
      exact bind_eq hinner
  | some msg =>
      have hfailed : s'.error ≠ none := hs' ▸ Option.some_ne_none msg
      have hinner : check (return v) s' = some (0, s') := check_failed hfailed
      change (check (return v) >>= _) s' = _
      rw [bind_eq hinner, check_failed hfailed]
      exact hinner.symm

end

/-- **Integer casts.**  An accepted cast of an integer or a pointer is right exactly if the
value is in the range of the type, and the operand is not a pointer lvalue to a struct, union
or array (or is one that holds its own address).  A second cast is always redundant. -/
theorem integer_cast_iff {T : Tables} {scope : Nat} {env : Env} {step : Nat} {e : Expr}
    {t : Attrs} {operand n : AstNode} {v : NodeValue} {s s' : Status} (ht : t.IsIntegerType)
    (he : e.ast T scope = .ok operand) (ha : operand.indirect ≠ 0 ∨ operand.typeKind.isInteger)
    (hn : (Expr.cast t e).ast T scope = .ok n)
    (hv : evaluateNode env step operand .noFlags s = some (v, s')) (hs' : s'.error = none) :
    ((∀ flags, evaluateNode env step n flags s = some (t.convert v, s')) ↔
      t.HasValue v ∧ (operand.takenForObject →
        evaluateNode env step operand .addr s = some (v, s'))) ∧
    ∀ u m, u.IsIntegerType → (Expr.cast t (.cast u e)).ast T scope = .ok m →
      ∀ flags, evaluateNode env step m flags = evaluateNode env step n flags := by
  have hcast : castAction t operand = .ok n := by
    rw [Expr.ast, he] at hn
    exact hn
  have hnumber : operand.indirect ≠ 0 ∨ operand.typeKind ≠ .float := by
    refine ha.imp_right fun hinteger hfloat => ?_
    rw [hfloat] at hinteger
    cases hinteger
  obtain ⟨rfl, _⟩ := castAction_ok hcast
  constructor
  · cases hobject : operand.takenForObject with
    | false =>
        rw [← operandFlags_run hobject] at hv
        have hrun := cast_run ht hnumber hs' hv
        rw [← ht.convert_eq_self_iff]
        constructor
        · intro h
          have heq := (hrun .noFlags).symm.trans (h .noFlags)
          exact ⟨(Prod.mk.inj (Option.some.inj heq)).1.symm, fun h => by cases h⟩
        · rintro ⟨h, _⟩ flags
          rw [hrun, h]
    | true =>
        obtain ⟨haggregate, hplace⟩ := Bool.and_eq_true_iff.mp hobject
        -- the pointer is cast to an integer of 8 bytes, which has room for every value
        have hfits : t.HasValue v := hasValue_of_size (castAction_size ht haggregate hcast)
        obtain ⟨addr, haddr⟩ := exists_address hplace hs' hv
        have hflags : evaluateNode env step operand (operandFlags operand) s = some (addr, s') := by
          rw [operandFlags, if_pos haggregate]
          exact haddr
        have hrun := cast_run ht hnumber hs' hflags
        rw [ht.convert_eq_self_iff.mpr hfits, and_iff_right hfits, haddr]
        constructor
        · intro h _
          exact (hrun .noFlags).symm.trans (h .noFlags)
        · intro h flags
          exact (hrun flags).trans (h rfl)
  · intro u m hu hm flags
    rw [Expr.ast, Expr.ast, he] at hm
    obtain ⟨inner, hinner, houter⟩ := ok_of_bind hm
    obtain ⟨rfl, _⟩ := castAction_ok hinner
    obtain ⟨rfl, _⟩ := castAction_ok houter
    exact cast_cast ht hu hnumber

/-! ### Example -/

/-- `char` -/
def charType : Attrs := BasicType.signedChar.attrs

/-- `(char)100` is 100. -/
theorem integer_cast_iff_char :
    charType.IsIntegerType ∧
    ∃ operand n, (Expr.constant (.integer 100)).ast noTables 0 = .ok operand ∧
      (Expr.cast charType (.constant (.integer 100))).ast noTables 0 = .ok n ∧
      evaluateNode noRecording 1 operand .noFlags {} = some (100, {}) ∧
      charType.HasValue 100 ∧ ∀ flags,
        evaluateNode noRecording 1 n flags {} = some (charType.convert 100, {}) := by
  have htype : charType.IsIntegerType := ⟨rfl, rfl, .inl rfl⟩
  have hcast : (Expr.cast charType (.constant (.integer 100))).ast noTables 0 =
      .ok (.type charType (Constant.integer 100).node) := rfl
  have hvalue : evaluateNode noRecording 1 (Constant.integer 100).node .noFlags {} =
      some (100, {}) := rfl
  have hright := integer_cast_iff htype rfl (.inr rfl) hcast hvalue rfl
  exact ⟨htype, _, _, rfl, hcast, hvalue, by decide,
    hright.1.mpr ⟨by decide, fun h => by cases h⟩⟩

/-- `(char)300` is 300, and should be 44. -/
theorem cast_keeps_all_bits :
    ∃ operand n, (Expr.constant (.integer 300)).ast noTables 0 = .ok operand ∧
      (Expr.cast charType (.constant (.integer 300))).ast noTables 0 = .ok n ∧
      evaluateNode noRecording 1 operand .noFlags {} = some (300, {}) ∧
      charType.convert 300 = 44 ∧
      ¬ ∀ flags, evaluateNode noRecording 1 n flags {} = some (charType.convert 300, {}) := by
  refine ⟨_, _, rfl, rfl, rfl, by decide, ?_⟩
  intro h
  have hrun : some (300, {}) = some (charType.convert 300, ({} : Status)) := h .noFlags
  have hvalue : (300 : NodeValue) = charType.convert 300 := (Prod.mk.inj (Option.some.inj hrun)).1
  revert hvalue
  decide

end FlightRec.Expressions
