/-
# `FlightRec.Examine.Strides` — where the items of a pointer or an array are

In C the item at an index is as many sizes of an item behind the base as the index says,
where the base is the value of a pointer or the address of an array.  The evaluator has
the size of the most basic type for that of an item, and takes the value for the base of
whatever has indirections:

    T *p          p[i], p + i     the size of T                  right
    T **p         p[i], p + i     the size of T                  wrong, unless T has 8 bytes
    T a[n]        a[i]            the size of T                  right
    T a[n][m]     a[i]            the size of T                  wrong, unless m is 1
    T *a[n]       a[i], a + i     from the first pointer on      wrong

`element_address_iff` has the condition for any expression that is accepted.
-/
import FlightRec.Examine.BasicTypes
import FlightRec.Record.Kinds

namespace FlightRec.Agreement

open Chain Expressions Hoare Update

/-! ## Types of expressions in C -/

/-- What a type name becomes in the grammar, and the type that it names. -/
inductive Program.TypeName (P : Program) : Attrs → CType → Prop
  | void : P.TypeName {} .incomplete
  | basic (b : BasicType) : P.TypeName b.attrs (.arithmetic b.attrs.size)
  | declared {x : Lexeme} {a : Attrs} {o : Nat} {t : CType} :
      yylex P.tables x = .ok (.type a) → a.typeOffset = o → HasCType P.graph o t → P.TypeName a t
  | pointer {a : Attrs} {t : CType} : P.TypeName a t →
      P.TypeName { a with indirect := a.indirect + 1 } (.pointer t)

/-- Constants that are numbers. -/
def isNumber : Constant → Bool
  | .string _ => false
  | _ => true

/-- The type that C gives an expression.  A name stands for the variable that the parser
finds, and a string literal for a pointer to its first character. -/
inductive Program.HasType (P : Program) (scope : Nat) : Expr → CType → Prop
  | identifier {name : String} {id : Nat} {a : Attrs} {t : CType} :
      P.tables.varDetails name scope = some (id, a) →
      HasCType P.graph (P.symbols.typeOffset id) t → P.HasType scope (.identifier name) t
  | string (s : String) : P.HasType scope (.constant (.string s)) (.pointer (.arithmetic 1))
  | number {c : Constant} : isNumber c → P.HasType scope (.constant c) .number
  | item {p k : Expr} {t e : CType} : P.HasType scope p t → t.element = some e →
      P.HasType scope (.item p k) e
  | field {x : Expr} {name : String} {o size : Nat} {m : MemberRow} {t : CType} :
      P.HasType scope x (.aggregate o size) → m ∈ P.symbols.info.members → m.offset = o →
      m.name = some name → HasCType P.graph m.type t → P.HasType scope (.field x name) t
  | arrow {x : Expr} {name : String} {p : CType} {o size : Nat} {m : MemberRow} {t : CType} :
      P.HasType scope x p → p.element = some (.aggregate o size) →
      m ∈ P.symbols.info.members → m.offset = o → m.name = some name →
      HasCType P.graph m.type t → P.HasType scope (.arrow x name) t
  | plus {x : Expr} {t : CType} : P.HasType scope x t → P.HasType scope (.plus x) t
  | addr {x : Expr} {t : CType} : P.HasType scope x t →
      P.HasType scope (.unaryOp .addr x) (.pointer t)
  | deref {x : Expr} {t e : CType} : P.HasType scope x t → t.element = some e →
      P.HasType scope (.unaryOp .deref x) e
  | cast {a : Attrs} {x : Expr} {t : CType} : P.TypeName a t → t.isArray = false →
      P.HasType scope (.cast a x) t
  | numeral {x : Expr} : isNumeral x → P.HasType scope x .number
  | sum {op : BinaryOp} {x y : Expr} {t u : CType} : P.HasType scope x t → P.HasType scope y u →
      t.element = none → u.element = none → P.HasType scope (.binaryOp op x y) .number
  | difference {x y : Expr} {t u : CType} : P.HasType scope x t → P.HasType scope y u →
      t.element ≠ none → u.element ≠ none → P.HasType scope (.binaryOp .sub x y) .number
  | add {p k : Expr} {t e : CType} : P.HasType scope p t → t.element = some e →
      P.HasType scope (.binaryOp .add p k) (.pointer e)
  | sub {p k : Expr} {t e u : CType} : P.HasType scope p t → t.element = some e →
      P.HasType scope k u → u.element = none → P.HasType scope (.binaryOp .sub p k) (.pointer e)

/-- An accepted expression that is a pointer or an array in C, of items that have a size. -/
structure Program.Operand (P : Program) (scope : Nat) where
  expr : Expr
  type : CType
  element : CType
  size : Nat
  node : AstNode
  typed : P.HasType scope expr type
  indexed : type.element = some element
  sized : element.size = some size
  accepted : expr.ast P.tables scope = .ok node

/-! ## Bases and items -/

/-- The base in C: the address of an array, the value of a pointer. -/
def baseFlags (t : CType) : Flags := if t.isArray then .addr else .noFlags

/-- The base and the index of a subscript or a sum, found without an error. -/
def Operands (env : Env) (step : Nat) (t : CType) (object index : AstNode) (s : Status)
    (b i : NodeValue) : Prop :=
  ∃ s₁ s₂, evaluateNode env step object (baseFlags t) s = some (b, s₁) ∧ s₁.error = none ∧
    evaluateNode env step index .noFlags s₁ = some (i, s₂) ∧ s₂.error = none

/-- The pointer that `var_value` reads at an address. -/
def storedPointer (env : Env) (size : Nat) (addr : NodeValue) (step : Nat) : NodeValue :=
  let value := getVarValue (env.mem.getD []) addr.toNat size step
  BitVec.ofNat 64 (load (fun i => value.getD i (env.heap i)) 8)

/-- The size of an item for the parser: that of the basic type, or for an array type that of
the last type behind it. -/
inductive Program.ItemSize (P : Program) (a : Attrs) : Nat → Prop
  | pointer : a.typeKind ≠ .array → P.ItemSize a a.size
  | array {t b : StoredType} : a.typeKind = .array → typeAt P.rows t.offset = some t →
      a.typeOffset = t.offset → LastBehind P.rows t.parent b → P.ItemSize a (typeRow b).size

/-- Where the parser has this size of an item, the item is where it should be: the sizes are
equal, or the index makes no difference of them.  An array that has indirections is taken
for a pointer, and its first item has to make up for that. -/
def Program.Operand.Fits {P : Program} {scope : Nat} (x : P.Operand scope) (env : Env) (step : Nat)
    (size : Nat) (b i : NodeValue) : Prop :=
  if x.type.isArray ∧ x.node.indirect ≠ 0 then
    storedPointer env x.node.size b step =
      b + i * (BitVec.ofNat 64 x.size - BitVec.ofNat 64 size)
  else i * BitVec.ofNat 64 size = i * BitVec.ofNat 64 x.size

/-! ## Nodes of typed expressions -/

/-- What the evaluator relies on: arrays have addresses. -/
structure TypedNode (t : CType) (n : AstNode) : Prop where
  nonneg : 0 ≤ n.indirect
  place : t.isArray → n.hasAddress
  arrayPlace : n.typeKind = .array → n.indirect = 0 → n.hasAddress

section
variable {P : Program} {scope : Nat} {t : CType} {n object : AstNode} {e : Expr} {a : Attrs}

theorem TypedNode.of_place (hnonneg : 0 ≤ n.indirect) (h : n.hasAddress) : TypedNode t n :=
  ⟨hnonneg, fun _ => h, fun _ _ => h⟩

theorem TypedNode.of_pointer (hpointer : 0 < n.indirect) (ht : t.isArray = false) :
    TypedNode t n := by
  refine ⟨hpointer.le, fun harray => ?_, fun _ hzero => ?_⟩
  · rw [ht] at harray
    cases harray
  · exact absurd hzero hpointer.ne'

theorem TypedNode.of_number (h : NumberNode n) (ht : t.isArray = false) : TypedNode t n := by
  refine ⟨h.1.ge, fun harray => ?_, fun hkind _ => ?_⟩
  · rw [ht] at harray
    cases harray
  · have hnumeric : n.typeKind.isNumeric := h.2
    rw [hkind] at hnumeric
    cases hnumeric

theorem yylex_type {T : Tables} {x : Lexeme} (h : yylex T x = .ok (.type a)) : a.indirect = 0 := by
  cases x with
  | basicType b =>
      cases h
      cases b <;> rfl
  | structOrUnion name =>
      have hname : findStructOrUnion T name = .ok (.type a) := h
      unfold findStructOrUnion at hname
      split at hname <;> cases hname
      rfl
  | word name =>
      have hname : findVarOrType T name = .type a := Except.ok.inj h
      unfold findVarOrType at hname
      split at hname <;> cases hname
      rfl
  | symbol | void | constant => cases h

theorem typeName_nonneg (h : P.TypeName a t) : 0 ≤ a.indirect := by
  induction h with
  | void => exact le_refl 0
  | basic b => cases b <;> exact le_refl 0
  | declared hlex => exact (yylex_type hlex).ge
  | pointer _ ih => exact Int.le_add_one ih

theorem kept_nonneg {b : StoredType} {k : Nat} : 0 ≤ (kept b k).indirect := Int.natCast_nonneg k

theorem typedNode_binary {op : BinaryOp} {x y : Expr} {u : CType}
    (ihx : ∀ {n : AstNode}, x.ast P.tables scope = .ok n → TypedNode u n)
    (ht : t.isArray = false) (h : (Expr.binaryOp op x y).ast P.tables scope = .ok n) :
    TypedNode t n := by
  obtain ⟨left, hleft, h⟩ := ok_of_bind h
  obtain ⟨right, _, h⟩ := ok_of_bind h
  have hnonneg := (ihx hleft).nonneg
  rcases binaryAction_attrs h with ⟨hpointer, hattrs⟩ | hnumber
  · have hindirect : n.indirect = left.indirect := congrArg Attrs.indirect hattrs
    exact .of_pointer (by omega) ht
  · exact .of_number hnumber ht

theorem typedNode_numeral (hx : isNumeral e) (ht : t.isArray = false)
    (h : e.ast P.tables scope = .ok n) : TypedNode t n := by
  refine .of_number ?_ ht
  unfold isNumeral at hx
  split at hx
  · cases hx
  · cases hx
  next hadd hsub =>
    have hkeeps := keeps_ast P scope e h
    unfold NumberNode
    generalize n.attrs = a at hkeeps
    cases hkeeps with
    | number _ hdirect hkind => exact ⟨hdirect, hkind⟩
    | offset _ _ hop =>
        rcases hop with rfl | rfl
        · exact absurd rfl (hadd _ _)
        · exact absurd rfl (hsub _ _)
    | _ => cases hx

theorem typedNode (h : P.HasType scope e t) :
    ∀ {n : AstNode}, e.ast P.tables scope = .ok n → TypedNode t n := by
  induction h with
  | identifier hdetails _ =>
      intro n h
      obtain ⟨id, a, hdetails', rfl⟩ := identifierAction_ok.mp h
      obtain ⟨v, _, _, _, _, t, b, _, _, rfl⟩ := getVarDetails_some P.tabled hdetails'
      exact .of_place kept_nonneg rfl
  | string s =>
      intro n h
      cases h
      exact .of_pointer Int.one_pos rfl
  | @number c hc =>
      intro n h
      cases h
      refine .of_number ?_ rfl
      cases c with
      | string s => cases hc
      | integer | floating | null => exact ⟨rfl, rfl⟩
  | item _ _ ih =>
      intro n h
      obtain ⟨object, hobject, h⟩ := ok_of_bind h
      obtain ⟨member, _, h⟩ := ok_of_bind h
      by_cases hkind : object.typeKind = .array
      · obtain ⟨a, hdetails, rfl⟩ := subscriptAction_array hkind h
        obtain ⟨t, b, _, _, _, rfl⟩ := getBaseTypeDetails_some hdetails
        exact .of_place kept_nonneg rfl
      · have hpointer : object.indirect ≠ 0 := fun hzero => (ok_of_ite h).1 ⟨hzero, hkind⟩
        obtain rfl := subscriptAction_pointer hkind h
        have hnonneg := (ih hobject).nonneg
        have hless : 0 ≤ object.indirect - 1 := by omega
        exact .of_place hless rfl
  | field _ _ _ _ _ _ =>
      intro n h
      obtain ⟨object, _, h⟩ := ok_of_bind h
      obtain ⟨a, start, hdetails, rfl⟩ := fieldAction_ok h
      obtain ⟨m, _, _, _, t, b, _, _, rfl, _⟩ := getFieldDetails_some P.tabled hdetails
      exact .of_place kept_nonneg rfl
  | arrow _ _ _ _ _ _ _ =>
      intro n h
      obtain ⟨object, _, h⟩ := ok_of_bind h
      obtain ⟨a, start, hdetails, rfl⟩ := arrowAction_ok h
      obtain ⟨m, _, _, _, t, b, _, _, rfl, _⟩ := getFieldDetails_some P.tabled hdetails
      exact .of_place kept_nonneg rfl
  | plus _ ih => exact ih
  | addr _ ih =>
      intro n h
      obtain ⟨object, hobject, h⟩ := ok_of_bind h
      obtain ⟨_, rfl⟩ := unaryAction_addr h
      have hnonneg := (ih hobject).nonneg
      have hmore : 0 < object.indirect + 1 := by omega
      exact .of_pointer hmore rfl
  | deref _ _ ih =>
      intro n h
      obtain ⟨object, hobject, h⟩ := ok_of_bind h
      have hpointer : object.indirect ≠ 0 := (ok_of_ite h).1
      obtain rfl := unaryAction_deref h
      have hnonneg := (ih hobject).nonneg
      have hless : 0 ≤ object.indirect - 1 := by omega
      exact .of_place hless rfl
  | cast htype hscalar =>
      intro n h
      obtain ⟨object, _, h⟩ := ok_of_bind h
      obtain ⟨rfl, hcast⟩ := castAction_ok h
      have hnonneg := typeName_nonneg htype
      rcases hcast with hpointer | hnumeric
      · exact .of_pointer (lt_of_le_of_ne hnonneg hpointer.symm) hscalar
      · refine ⟨hnonneg, fun harray => ?_, fun hkind _ => ?_⟩
        · rw [hscalar] at harray
          cases harray
        · have hkind' : AstNode.typeKind (.type _ object) = _ := hkind
          change TKind.isNumeric (AstNode.typeKind (.type _ object)) = true at hnumeric
          rw [hkind'] at hnumeric
          cases hnumeric
  | numeral hx =>
      intro n h
      exact typedNode_numeral hx rfl h
  | sum _ _ _ _ ih _ =>
      intro n h
      exact typedNode_binary ih rfl h
  | difference _ _ _ _ ih _ =>
      intro n h
      exact typedNode_binary ih rfl h
  | add _ _ ih =>
      intro n h
      exact typedNode_binary ih rfl h
  | sub _ _ _ _ ih _ =>
      intro n h
      exact typedNode_binary ih rfl h

end

/-! ## What is computed -/

section
variable {env : Env} {step : Nat} {a : Attrs} {s s' s₁ : Status} {t : CType}
  {object member : AstNode} {b v addr i : NodeValue} {flags : Flags}

theorem varValue_recorded (hs' : s'.error = none)
    (hvalue : varValue env a addr step s = some (v, s')) : ∃ mem, env.mem = some mem := by
  unfold varValue at hvalue
  cases hmem : env.mem with
  | none =>
      rw [hmem] at hvalue
      cases hvalue
      cases hs'
  | some mem => exact ⟨mem, rfl⟩

theorem lvalue_pointer (hpointer : a.indirect ≠ 0) (hs' : s'.error = none)
    (hrun : lvalue env a addr step .noFlags s = some (v, s')) :
    v = storedPointer env a.size addr step ∧ s' = s := by
  have hvalue : varValue env a addr step s = some (v, s') := hrun
  obtain ⟨mem, hmem⟩ := varValue_recorded hs' hvalue
  unfold varValue at hvalue
  rw [hmem] at hvalue
  dsimp only at hvalue
  rw [if_pos hpointer] at hvalue
  obtain ⟨hv, hs⟩ := Prod.mk.inj (Option.some.inj hvalue)
  refine ⟨?_, hs.symm⟩
  rw [← hv, storedPointer, hmem]
  rfl

theorem lvalue_array (hkind : a.typeKind = .array) (hdirect : a.indirect = 0)
    (hrun : lvalue env a addr step .noFlags s = some (v, s')) : s'.error ≠ none := by
  intro hs'
  have hvalue : varValue env a addr step s = some (v, s') := hrun
  obtain ⟨mem, hmem⟩ := varValue_recorded hs' hvalue
  unfold varValue at hvalue
  rw [hmem] at hvalue
  dsimp only at hvalue
  rw [if_neg (not_not_intro hdirect), hkind] at hvalue
  cases hvalue
  cases hs'

/-- What the evaluator takes for the base, where C has another one. -/
def takenBase (env : Env) (step : Nat) (t : CType) (object : AstNode) (b : NodeValue) : NodeValue :=
  if t.isArray ∧ object.indirect ≠ 0 then storedPointer env object.size b step else b

theorem takenBase_run (hnode : TypedNode t object)
    (hsubscript : object.indirect = 0 → object.typeKind = .array)
    (hbase : evaluateNode env step object (baseFlags t) s = some (b, s₁)) (hs₁ : s₁.error = none)
    (hrun : evaluateNode env step object (if object.indirect ≠ 0 then .noFlags else .addr) s =
      some (addr, s')) (hs' : s'.error = none) :
    addr = takenBase env step t object b ∧ s' = s₁ := by
  unfold takenBase
  by_cases harray : t.isArray
  · have hflags : baseFlags t = .addr := if_pos harray
    rw [hflags] at hbase
    by_cases hpointer : object.indirect ≠ 0
    · rw [if_pos hpointer] at hrun
      rw [if_pos ⟨harray, hpointer⟩]
      obtain ⟨place, s₂, hplace, hread⟩ :=
        (readsPlace_node (hnode.place harray) .noFlags s addr s' hs').mp hrun
      cases hbase.symm.trans hplace
      exact lvalue_pointer hpointer hs' hread
    · rw [if_neg hpointer] at hrun
      rw [if_neg fun h => hpointer h.2]
      cases hbase.symm.trans hrun
      exact ⟨rfl, rfl⟩
  · have hflags : baseFlags t = .noFlags := if_neg harray
    rw [hflags] at hbase
    rw [if_neg fun h => harray h.1]
    by_cases hpointer : object.indirect ≠ 0
    · rw [if_pos hpointer] at hrun
      cases hbase.symm.trans hrun
      exact ⟨rfl, rfl⟩
    · -- a pointer that is taken for an array has no value
      have hzero : object.indirect = 0 := not_not.mp hpointer
      obtain ⟨place, s₂, _, hread⟩ := (readsPlace_node (hnode.arrayPlace (hsubscript hzero) hzero)
        .noFlags s b s₁ hs₁).mp hbase
      exact absurd hs₁ (lvalue_array (hsubscript hzero) hzero hread)

theorem item_run (hs' : s'.error = none)
    (hrun : evaluateNode env step (.item a object member) .addr s = some (v, s')) :
    ∃ addr i s₁ s₂, evaluateNode env step object
        (if object.indirect ≠ 0 then .noFlags else .addr) s = some (addr, s₁) ∧
      s₁.error = none ∧ evaluateNode env step member .noFlags s₁ = some (i, s₂) ∧
      v = addr + i * BitVec.ofNat 64 a.size := by
  simp only [evaluateNode] at hrun
  obtain ⟨addr, s₁, hobject, hchecked⟩ := bind_run.mp hrun
  obtain ⟨hs₁, hmember⟩ := (check_some hs').mp hchecked
  obtain ⟨i, s₂, hindex, hitem⟩ := bind_run.mp hmember
  obtain ⟨_, s₃, _, hread⟩ := bind_run.mp hitem
  refine ⟨addr, i, s₁, s₂, hobject, hs₁, hindex, ?_⟩
  cases hread
  rfl

theorem sum_run (hpointer : object.indirect ≠ 0) (hsigned : member.typeKind = .signed)
    (hs' : s'.error = none)
    (hrun : evaluateNode env step (.binaryOp a .add object member) flags s = some (v, s')) :
    ∃ addr i s₁, evaluateNode env step object .noFlags s = some (addr, s₁) ∧ s₁.error = none ∧
      evaluateNode env step member .noFlags s₁ = some (i, s') ∧
      v = addr + i * BitVec.ofNat 64 object.size := by
  have hdispatch : dispatch a .add object.attrs member.attrs = .pointer := if_pos hpointer
  have hsigned' : member.attrs.typeKind = .signed := hsigned
  simp only [evaluateNode, evaluateBinary, hdispatch, pointerOp] at hrun
  rw [if_neg (fun hguard => hguard.1 ⟨trivial, hsigned'⟩)] at hrun
  obtain ⟨addr, s₁, hleft, hchecked⟩ := bind_run.mp hrun
  obtain ⟨hs₁, hright⟩ := (check_some hs').mp hchecked
  rw [if_pos hsigned'] at hright
  obtain ⟨i, s₂, hoffset, hsum⟩ := bind_run.mp hright
  obtain ⟨hs₂, hsum⟩ := (check_some hs').mp hsum
  cases hsum
  exact ⟨addr, i, s₁, hleft, hs₁, hoffset, rfl⟩

end

/-! ## When the items are where they should be -/

section
variable {P : Program} {scope : Nat} {env : Env} {step : Nat} {s s' : Status}
  {b i v : NodeValue} {index n : AstNode} {k : Expr}

theorem fits_iff (x : P.Operand scope) {size : Nat} :
    takenBase env step x.type x.node b + i * BitVec.ofNat 64 size =
      b + i * BitVec.ofNat 64 x.size ↔ x.Fits env step size b i := by
  unfold takenBase Program.Operand.Fits
  split
  · rw [mul_sub]
    constructor
    · intro h
      rw [← add_sub_assoc, ← h, add_sub_cancel_right]
    · intro h
      rw [h, add_assoc, sub_add_cancel]
  · exact BitVec.add_right_inj b

theorem item_size (x : P.Operand scope) (hk : k.ast P.tables scope = .ok index)
    (hn : (Expr.item x.expr k).ast P.tables scope = .ok n) :
    ∃ a, n = .item a x.node index ∧ P.ItemSize x.node.attrs a.size ∧
      (x.node.indirect = 0 → x.node.typeKind = .array) := by
  obtain ⟨object, hobject, hn⟩ := ok_of_bind hn
  obtain ⟨member, hmember, hn⟩ := ok_of_bind hn
  cases hobject.symm.trans x.accepted
  cases hmember.symm.trans hk
  have hsubscript : x.node.indirect = 0 → x.node.typeKind = .array := fun hzero =>
    by_contra fun hkind => (ok_of_ite hn).1 ⟨hzero, hkind⟩
  by_cases hkind : x.node.typeKind = .array
  · obtain ⟨a, hdetails, rfl⟩ := subscriptAction_array hkind hn
    obtain ⟨t, b, hoffset, ht, hb, rfl⟩ := getBaseTypeDetails_some hdetails
    exact ⟨_, rfl, .array hkind ht hoffset.symm hb, hsubscript⟩
  · obtain rfl := subscriptAction_pointer hkind hn
    exact ⟨_, rfl, .pointer hkind, hsubscript⟩

theorem item_address (x : P.Operand scope) {a : Attrs}
    (hsubscript : x.node.indirect = 0 → x.node.typeKind = .array)
    (hoperands : Operands env step x.type x.node index s b i) (hs' : s'.error = none)
    (hrun : evaluateNode env step (.item a x.node index) .addr s = some (v, s')) :
    v = takenBase env step x.type x.node b + i * BitVec.ofNat 64 a.size := by
  obtain ⟨s₁, s₂, hbase, hs₁, hindex, _⟩ := hoperands
  obtain ⟨addr, i', t₁, t₂, hobject, ht₁, hindex', rfl⟩ := item_run hs' hrun
  obtain ⟨rfl, rfl⟩ := takenBase_run (typedNode x.typed x.accepted) hsubscript hbase hs₁ hobject ht₁
  cases hindex.symm.trans hindex'
  rfl

theorem sum_value (x : P.Operand scope) (hpointer : x.node.indirect ≠ 0)
    (hk : k.ast P.tables scope = .ok index)
    (hn : (Expr.binaryOp .add x.expr k).ast P.tables scope = .ok n)
    (hoperands : Operands env step x.type x.node index s b i) (hs' : s'.error = none)
    (hrun : evaluateNode env step n .noFlags s = some (v, s')) :
    v = takenBase env step x.type x.node b + i * BitVec.ofNat 64 x.node.size := by
  obtain ⟨object, hobject, hn⟩ := ok_of_bind hn
  obtain ⟨member, hmember, hn⟩ := ok_of_bind hn
  cases hobject.symm.trans x.accepted
  cases hmember.symm.trans hk
  obtain ⟨hdirect, hinteger, rfl⟩ := additionAction_pointer hpointer hn
  obtain ⟨s₁, s₂, hbase, hs₁, hindex, hs₂⟩ := hoperands
  obtain ⟨addr, i', t₁, hvalue, ht₁, hindex', rfl⟩ :=
    sum_run hpointer pointerOffset_signed hs' hrun
  have hflags : (if x.node.indirect ≠ 0 then Flags.noFlags else .addr) = .noFlags :=
    if_pos hpointer
  obtain ⟨rfl, rfl⟩ := takenBase_run (typedNode x.typed x.accepted)
    (fun hzero => absurd hzero hpointer) hbase hs₁ (hflags ▸ hvalue) ht₁
  cases (pointerOffset_succeeds hinteger hdirect _ i s₂ hs₂ hindex).symm.trans hindex'
  rfl

end

section
variable {P : Program} {scope : Nat} {x : P.Operand scope} {o k e z id : Nat} {t c : CType}
  {r b : StoredType} {name : String} {a : Attrs}

theorem die_of_cType {g : TypeGraph} (h : HasCType g o t) : ∃ d ∈ g.dies, d.offset = o := by
  cases h with
  | base hd | aggr hd | void hd | pointer hd | function hd | qualifiedVoid hd | named hd
    | array hd => exact ⟨_, hd, rfl⟩

theorem cType_ne_zero {g : TypeGraph} (h : HasCType g o t) : o ≠ 0 := by
  obtain ⟨d, hd, rfl⟩ := die_of_cType h
  exact g.nonzero d hd

theorem named_of_qualified {d : TypeDie} {tag : CustomTag} {size p : Nat}
    (hbody : d.body = .custom tag size (some p)) (htag : tag.qualifies) :
    d.body.named = some p := by
  rw [hbody, DieBody.named]
  exact if_pos (by cases tag <;> first | rfl | cases htag)

theorem cType_of_count (hcount : PointerCount P.graph o k e) (hend : HasCType P.graph e c) :
    HasCType P.graph o (c.pointers k) := by
  induction hcount with
  | ends => exact hend
  | void => exact absurd rfl (cType_ne_zero hend)
  | pointer hd hbody _ ih => exact .pointer hd hbody (ih hend)
  | qualified hd hbody htag _ ih => exact .named hd (named_of_qualified hbody htag) (ih hend)

theorem Program.indirect_zero {r' : StoredType} (hr : typeAt P.graph.rows o = some r)
    (hr' : typeAt P.rows o = some r') : r'.parent = r.parent ∧
      (r'.indirect = 0 ↔ r.flags = tkindAlias ∨
        (r.kind ≠ tkindPointer ∧ ¬ PointerBehind P.graph o)) := by
  obtain ⟨t, ht, hparent', _, hindirect⟩ := P.recorded_row hr'
  obtain ⟨q, hq, _, _, hparent, _⟩ := TypeGraph.indirect_row P.acyclic P.altered hr
  cases ht.symm.trans hq
  rw [← hindirect]
  exact ⟨hparent'.symm.trans hparent, TypeGraph.indirect_zero_iff P.acyclic P.altered hr ht⟩

theorem kind_of_pointers (h : r.pointers = 0) : r.kind ≠ tkindPointer := by
  intro hkind
  rw [StoredType.pointers, if_pos hkind] at h
  cases h

/-- The first type without indirections is the end of the pointers, or qualifies it. -/
theorem cType_firstDirect (hcount : PointerCount P.graph o k e) (hend : HasCType P.graph e c)
    (hbehind : ¬ PointerBehind P.graph e) (hfirst : FirstDirect P.rows o b) :
    HasCType P.graph b.offset c := by
  induction hcount with
  | @ends d hd hends =>
      cases hfirst with
      | here hr' _ => exact (mem_of_lookup hr').2.symm ▸ hend
      | behind hr' hne _ =>
          cases hrow : typeAt P.graph.rows d.offset with
          | none => cases (typeAt_none P.offsets hrow).symm.trans hr'
          | some r =>
              obtain ⟨_, hzero⟩ :=
                TypeGraph.pointers_of_ends hends ((TypeGraph.typeAt_die hd).symm.trans hrow)
              exact absurd ((Program.indirect_zero hrow hr').2.mpr
                (.inr ⟨kind_of_pointers hzero, hbehind⟩)) hne
  | void => exact absurd rfl (cType_ne_zero hend)
  | pointer hd hbody _ ih =>
      obtain ⟨r, hrow, hparent, hflags⟩ := TypeGraph.custom_row hd hbody
      cases hfirst with
      | here hr' hzero =>
          obtain ⟨halias, hone⟩ := TypeGraph.pointers_of_pointer hflags
          rcases (Program.indirect_zero hrow hr').2.mp hzero with h | ⟨h, _⟩
          · exact absurd h halias
          · rw [StoredType.pointers, if_neg h] at hone
            cases hone
      | behind hr' _ hrest =>
          rw [(Program.indirect_zero hrow hr').1, hparent] at hrest
          exact ih hend hbehind hrest
  | qualified hd hbody htag hcount ih =>
      obtain ⟨r, hrow, hparent, hflags⟩ := TypeGraph.custom_row hd hbody
      cases hfirst with
      | here hr' hzero =>
          obtain ⟨halias, hpointers⟩ := TypeGraph.pointers_of_qualified htag hflags
          have hnot : ¬ PointerBehind P.graph _ :=
            (((Program.indirect_zero hrow hr').2.mp hzero).resolve_left halias).2
          have hiff := ((TypeGraph.countOf (.qualified hd hbody htag hcount)).row r hrow).2.2
          have hk : _ = 0 := Nat.eq_zero_of_not_pos fun hpos =>
            hnot (hiff.mpr (.inl (hpointers.symm ▸ hpos)))
          have hc := cType_of_count hcount hend
          rw [hk] at hc
          exact (mem_of_lookup hr').2.symm ▸ .named hd (named_of_qualified hbody htag) hc
      | behind hr' _ hrest =>
          rw [(Program.indirect_zero hrow hr').1, hparent] at hrest
          exact ih hend hbehind hrest

theorem Program.row_size (hb : typeAt P.rows o = some b) (hc : HasCType P.graph o c)
    (hz : c.size = some z) : (typeRow b).size = z := by
  have hsize := sizeAt_cType P.pointers P.sizes hc hz
  rw [sizeAt, hb] at hsize
  exact hsize

theorem typeAt_firstDirect {rows : List StoredType} (h : FirstDirect rows o b) :
    typeAt rows b.offset = some b := by
  induction h with
  | here hr _ => exact (mem_of_lookup hr).2.symm ▸ hr
  | behind _ _ _ ih => exact ih

theorem variable_node (hname : x.expr = .identifier name)
    (hdetails : P.tables.varDetails name scope = some (id, a)) : x.node = .var a name id ∧
      ∃ r b, typeAt P.rows (P.symbols.typeOffset id) = some r ∧
        FirstDirect P.rows (P.symbols.typeOffset id) b ∧ a = kept b r.indirect := by
  obtain ⟨v, _, _, _, rfl, r, b, hr, hb, ha⟩ := getVarDetails_some P.tabled hdetails
  have hast := x.accepted
  rw [hname] at hast
  obtain ⟨id', a', hdetails', hnode⟩ := identifierAction_ok.mp hast
  cases hdetails.symm.trans hdetails'
  exact ⟨hnode, r, b, hr, hb, ha⟩

/-- **Pointers**: through one pointer items are where they should be; through more the
size is the one behind all of them, where that of a pointer is needed. -/
theorem declared_pointer_fits {env : Env} {step : Nat} {base i : NodeValue}
    (hname : x.expr = .identifier name)
    (hdetails : P.tables.varDetails name scope = some (id, a))
    (hcount : PointerCount P.graph (P.symbols.typeOffset id) (k + 1) e)
    (hend : HasCType P.graph e c) (hz : c.size = some z) (hbehind : ¬ PointerBehind P.graph e)
    (htype : x.type = c.pointers (k + 1)) : x.Fits env step x.node.size base i ↔
      i * BitVec.ofNat 64 z = i * BitVec.ofNat 64 (if k = 0 then z else 8) := by
  obtain ⟨hnode, r, b, _, hfirst, rfl⟩ := variable_node hname hdetails
  have hsize : x.node.size = z := by
    rw [hnode]
    exact Program.row_size (typeAt_firstDirect hfirst)
      (cType_firstDirect hcount hend hbehind hfirst) hz
  have hitem : x.size = if k = 0 then z else 8 := by
    have helement := x.indexed
    rw [htype] at helement
    have hsized := x.sized
    rw [← Option.some.inj helement] at hsized
    cases k with
    | zero => exact Option.some.inj (hsized.symm.trans hz)
    | succ k => exact (Option.some.inj hsized).symm
  have hpointer : ¬ (x.type.isArray ∧ x.node.indirect ≠ 0) := by
    rw [htype]
    rintro ⟨harray, _⟩
    cases harray
  unfold Program.Operand.Fits
  rw [if_neg hpointer, hsize, hitem]

theorem row_of_count {g : TypeGraph} {q : StoredType} (hcount : PointerCount g o k e)
    (hq : typeAt g.rows e = some q) : ∃ r, typeAt g.rows o = some r := by
  cases hcount with
  | ends => exact ⟨q, hq⟩
  | void hd hbody =>
      obtain ⟨r, hr, _⟩ := TypeGraph.void_row hd hbody
      exact ⟨r, hr⟩
  | pointer hd hbody _ | qualified hd hbody _ _ =>
      obtain ⟨r, hr, _⟩ := TypeGraph.custom_row hd hbody
      exact ⟨r, hr⟩

theorem lastBehind_of_custom {q : StoredType} {d : TypeDie} {tag : CustomTag} {size p : Nat}
    (hd : d ∈ P.graph.dies) (hbody : d.body = .custom tag size (some p))
    (hrest : PointerCount P.graph p k e) (hq : typeAt P.graph.rows e = some q)
    (h : LastBehind P.rows d.offset b) : LastBehind P.rows p b := by
  obtain ⟨r, hrow, hp, _⟩ := TypeGraph.custom_row hd hbody
  cases h with
  | here hr' hnone =>
      obtain ⟨r₁, hr₁⟩ := row_of_count hrest hq
      obtain ⟨r₂, hr₂⟩ := P.row_of_graph hr₁
      rw [(Program.indirect_zero hrow hr').1, hp, hr₂] at hnone
      cases hnone
  | behind hr' h =>
      rw [(Program.indirect_zero hrow hr').1, hp] at h
      exact h

/-- The last type is the end of the pointers, if that refers to no other type. -/
theorem lastBehind_end {q : StoredType} (hcount : PointerCount P.graph o k e)
    (hq : typeAt P.graph.rows e = some q) (hparent : q.parent = 0)
    (hlast : LastBehind P.rows o b) : typeAt P.rows e = some b := by
  induction hcount with
  | ends =>
      cases hlast with
      | here hr' _ => exact hr'
      | behind hr' h =>
          rw [(Program.indirect_zero hq hr').1, hparent] at h
          cases h with
          | here h _ | behind h _ => cases typeAt_zero.symm.trans h
  | void => cases TypeGraph.typeAt_zero.symm.trans hq
  | pointer hd hbody hrest ih => exact ih hq (lastBehind_of_custom hd hbody hrest hq hlast)
  | qualified hd hbody _ hrest ih => exact ih hq (lastBehind_of_custom hd hbody hrest hq hlast)

theorem Program.array_row {d : TypeDie} {elem : Nat} {bounds : List (Option Nat)}
    (hd : d ∈ P.graph.dies) (hbody : d.body = .array elem bounds) :
    ∃ r, typeAt P.rows d.offset = some r ∧ r.parent = elem ∧ (typeRow r).kind = .array ∧
      (r.indirect = 0 ↔ ¬ PointerBehind P.graph d.offset) := by
  have hrow := TypeGraph.array_row (d := d) hbody
  have hat : typeAt P.graph.rows d.offset = some (procArrayType d.offset elem bounds) :=
    (TypeGraph.typeAt_die hd).trans hrow
  have hmem := TypeGraph.mem_of_row hd hrow
  obtain ⟨q, hq, _, hparent, _, hkind, _⟩ := TypeGraph.final_row P.altered hmem
  obtain ⟨r, hr⟩ := P.row_of_graph hat
  obtain ⟨t, ht, hparent', hflags', _⟩ := P.recorded_row hr
  cases ht.symm.trans hq
  have hown : (procArrayType d.offset elem bounds).kind = tkindArray := rfl
  have hflags : (typeRow r).flags % 0x10000 = 7 :=
    (congrArg (· % 0x10000) hflags').symm.trans (hkind _ (.own hmem (hown ▸ by decide)))
  refine ⟨r, hr, hparent'.symm.trans hparent, ?_, ?_⟩
  · rw [TypeRow.kind, hflags]
    rfl
  · rw [(Program.indirect_zero hat hr).2]
    constructor
    · rintro (halias | ⟨_, h⟩)
      · cases halias
      · exact h
    · exact fun h => .inr ⟨hown ▸ by decide, h⟩

/-- **Arrays**: the items of an array of objects are where they should be if it has one
dimension; else the size is one of an object, where that of the inner array is needed. -/
theorem declared_array_fits {env : Env} {step size elem : Nat} {base i : NodeValue} {d : TypeDie}
    {q : StoredType} {bound : Option Nat} {inner : List (Option Nat)}
    (hname : x.expr = .identifier name) (hdetails : P.tables.varDetails name scope = some (id, a))
    (hd : d ∈ P.graph.dies) (hoffset : d.offset = P.symbols.typeOffset id)
    (hbody : d.body = .array elem (bound :: inner)) (hcount : PointerCount P.graph elem 0 e)
    (hend : HasCType P.graph e c) (hz : c.size = some z) (hq : typeAt P.graph.rows e = some q)
    (hparent : q.parent = 0) (htype : x.type = c.dimensions (bound :: inner))
    (hitem : P.ItemSize x.node.attrs size) : x.Fits env step size base i ↔
      i * BitVec.ofNat 64 z = i * BitVec.ofNat 64 ((inner.map itemCount).prod * z) := by
  obtain ⟨r, hr, helem, hkind, hdirect⟩ := Program.array_row hd hbody
  have hat : typeAt P.graph.rows d.offset = some (procArrayType d.offset elem (bound :: inner)) :=
    (TypeGraph.typeAt_die hd).trans (TypeGraph.array_row hbody)
  have hnone : ¬ PointerBehind P.graph d.offset := by
    rw [(TypeGraph.countOf hcount).child hat rfl]
    rintro (hlt | hend')
    · exact Nat.lt_irrefl 0 hlt
    · obtain ⟨q', hq', _⟩ := (TypeGraph.pointerBehind_iff hq).mp hend'
      rw [hparent] at hq'
      cases TypeGraph.typeAt_zero.symm.trans hq'
  obtain ⟨hnode, r', b, hr', hfirst, rfl⟩ := variable_node hname hdetails
  rw [← hoffset] at hr' hfirst
  cases hr.symm.trans hr'
  have hb : b = r := by
    cases hfirst with
    | here h _ => exact Option.some.inj (h.symm.trans hr)
    | behind h hne _ =>
        cases hr.symm.trans h
        exact absurd (hdirect.mpr hnone) hne
  cases hb
  have hsize : size = z := by
    rw [hnode] at hitem
    cases hitem with
    | pointer hne => exact absurd hkind hne
    | @array t b' _ ht htoffset hlast =>
        have hsame : t.offset = d.offset :=
          (Int.ofNat.inj htoffset).symm.trans (mem_of_lookup hr).2
        rw [hsame, hr] at ht
        cases ht
        rw [helem] at hlast
        exact Program.row_size (lastBehind_end hcount hq hparent hlast) hend hz
  have hitemSize : x.size = (inner.map itemCount).prod * z := by
    have helement := x.indexed
    rw [htype] at helement
    have hsized := x.sized
    have hinner : some (c.dimensions inner) = some x.element := helement
    rw [← Option.some.inj hinner, size_dimensions, hz] at hsized
    exact (Option.some.inj hsized).symm
  have hindirect : x.node.indirect = 0 := by
    rw [hnode]
    exact congrArg Int.ofNat (hdirect.mpr hnone)
  unfold Program.Operand.Fits
  rw [if_neg fun h => h.2 hindirect, hsize, hitemSize]

/-- **Arrays of pointers** are taken for pointers. -/
theorem declared_pointers_fits {env : Env} {step size elem : Nat} {base i : NodeValue}
    {d : TypeDie} {bounds : List (Option Nat)} (hname : x.expr = .identifier name)
    (hdetails : P.tables.varDetails name scope = some (id, a)) (hd : d ∈ P.graph.dies)
    (hoffset : d.offset = P.symbols.typeOffset id) (hbody : d.body = .array elem bounds)
    (hbehind : PointerBehind P.graph d.offset) (harray : x.type.isArray) :
    x.Fits env step size base i ↔ storedPointer env x.node.size base step =
      base + i * (BitVec.ofNat 64 x.size - BitVec.ofNat 64 size) := by
  obtain ⟨r, hr, _, _, hdirect⟩ := Program.array_row hd hbody
  obtain ⟨hnode, r', b, hr', _, rfl⟩ := variable_node hname hdetails
  rw [← hoffset] at hr'
  cases hr.symm.trans hr'
  have hindirect : x.node.indirect ≠ 0 := by
    rw [hnode]
    exact fun h => hdirect.mp (Int.ofNat.inj h) hbehind
  unfold Program.Operand.Fits
  rw [if_pos ⟨harray, hindirect⟩]

end

/-! ### Examples -/

theorem sizes_tower {rows : List StoredType}
    (h : alterTypes pointerTower.members pointerTower.rows = some rows) :
    AllSized pointerTower rows :=
  SizesRight.allSized h
    { named := by simp [pointerTower, DieBody.named, CustomTag.names]
      arrays := by simp [pointerTower] }

/-- A program with one variable `p`, whose type is `int`, `int *`, `int **` or `int ***`. -/
def tower (o : Nat) : Program where
  graph := pointerTower
  recorded := (alterTypes pointerTower.members pointerTower.rows).getD []
  rows := (alterTypes pointerTower.members pointerTower.rows).getD []
  symbols := { oneTower with typeOffset := fun _ => o, located := fun _ _ _ _ h => by cases h }
  acyclic := acyclic_pointerTower
  altered := rfl
  resized := rfl
  table := rfl
  sizes := sizes_tower rfl
  pointers := by simp [WidePointers, pointerTower]

theorem cType_pointer : HasCType pointerTower 2 (.pointer (.arithmetic 4)) :=
  .pointer (d := ⟨2, none, .custom .pointer 8 (some 1)⟩) (by decide) rfl
    (.base (d := ⟨1, "int", .base 4 .signed⟩) (by decide) rfl)

theorem details_int : (tower 2).tables.varDetails "p" 0 = some (1, ⟨1, .signed, 4, 1⟩) := by
  decide +kernel

theorem details_pointer : (tower 3).tables.varDetails "p" 0 = some (1, ⟨1, .signed, 4, 2⟩) := by
  decide +kernel

/-- `p` is an `int *`. -/
def onePointer : (tower 2).Operand 0 where
  expr := .identifier "p"
  type := .pointer (.arithmetic 4)
  element := .arithmetic 4
  size := 4
  node := .var ⟨1, .signed, 4, 1⟩ "p" 1
  typed := .identifier details_int cType_pointer
  indexed := rfl
  sized := rfl
  accepted := identifierAction_ok.mpr ⟨1, _, details_int, rfl⟩

/-- `p` is an `int **`. -/
def twoPointers : (tower 3).Operand 0 where
  expr := .identifier "p"
  type := .pointer (.pointer (.arithmetic 4))
  element := .pointer (.arithmetic 4)
  size := 8
  node := .var ⟨1, .signed, 4, 2⟩ "p" 1
  typed := .identifier details_pointer
    (.pointer (d := ⟨3, none, .custom .pointer 8 (some 2)⟩) (by decide) rfl cType_pointer)
  indexed := rfl
  sized := rfl
  accepted := identifierAction_ok.mpr ⟨1, _, details_pointer, rfl⟩

/-- `int` and `int [2][3]`. -/
def matrixGraph : TypeGraph where
  dies := [⟨1, "int", .base 4 .signed⟩, ⟨2, none, .array 1 [some 1, some 2]⟩]
  offsets := by decide
  nonzero := by decide
  sizes := by simp

/-- The table that `alter_db` leaves, but with the 24 bytes that the array has. -/
def matrixRows : List StoredType :=
  [⟨1, "int", some 4, 0, 0, 1, 0⟩, ⟨2, none, some 24, 2, 1, 7, 0⟩]

theorem size_matrixItem {n : Nat} (h : HasSize matrixGraph o n) (ho : o = 1) : n = 4 := by
  cases h with
  | own hd hown =>
      rcases List.mem_pair.mp hd with rfl | rfl
      · exact (Option.some.inj hown).symm
      · cases hown
  | named hd hnamed _ => rcases List.mem_pair.mp hd with rfl | rfl <;> cases hnamed
  | array hd hbody _ =>
      rcases List.mem_pair.mp hd with rfl | rfl
      · cases hbody
      · cases ho

theorem sizes_matrix : AllSized matrixGraph matrixRows := by
  intro o n h
  cases h with
  | own hd hown =>
      rcases List.mem_pair.mp hd with rfl | rfl
      · exact Option.some.inj hown
      · cases hown
  | named hd hnamed _ => rcases List.mem_pair.mp hd with rfl | rfl <;> cases hnamed
  | array hd hbody hitem =>
      rcases List.mem_pair.mp hd with rfl | rfl
      · cases hbody
      · cases hbody
        rw [size_matrixItem hitem rfl]
        rfl

theorem acyclic_matrix : Acyclic (parentAt matrixGraph.rows) := by
  have hless : ∀ r ∈ matrixGraph.rows, r.parent < r.offset := by decide
  refine acyclic_of_lt (f := id) fun o p hparent => ?_
  obtain ⟨r, hr, rfl⟩ := Option.map_eq_some_iff.mp hparent
  obtain ⟨hmem, rfl⟩ := mem_of_lookup hr
  exact hless r hmem

/-- A program with one variable `p`, of type `int [2][3]`. -/
def matrix : Program where
  graph := matrixGraph
  recorded := (alterTypes matrixGraph.members matrixGraph.rows).getD []
  rows := matrixRows
  symbols := { oneTower with
    types := typeTable matrixRows, typeOffset := fun _ => 2, offsets := by decide +kernel,
    located := fun _ _ _ _ h => by cases h }
  acyclic := acyclic_matrix
  altered := rfl
  resized := rfl
  table := rfl
  sizes := sizes_matrix
  pointers := by simp [WidePointers, matrixGraph]

theorem details_matrix : matrix.tables.varDetails "p" 0 = some (1, ⟨2, .array, 24, 0⟩) := by
  decide +kernel

theorem cType_matrix : HasCType matrixGraph 2 ((CType.arithmetic 4).dimensions [some 1, some 2]) :=
  .array (d := ⟨2, none, .array 1 [some 1, some 2]⟩) (by decide) rfl
    (.base (d := ⟨1, "int", .base 4 .signed⟩) (by decide) rfl)

/-- `p` is an `int [2][3]`, whose items have 12 bytes. -/
def matrixOperand : matrix.Operand 0 where
  expr := .identifier "p"
  type := (CType.arithmetic 4).dimensions [some 1, some 2]
  element := (CType.arithmetic 4).dimensions [some 2]
  size := 12
  node := .var ⟨2, .array, 24, 0⟩ "p" 1
  typed := .identifier details_matrix cType_matrix
  indexed := rfl
  sized := rfl
  accepted := identifierAction_ok.mpr ⟨1, _, details_matrix, rfl⟩

/-- They are taken to have 4. -/
example {env : Env} {step size : Nat} {base i : NodeValue}
    (h : matrix.ItemSize matrixOperand.node.attrs size) :
    matrixOperand.Fits env step size base i ↔
      i * BitVec.ofNat 64 4 = i * BitVec.ofNat 64 12 :=
  declared_array_fits rfl details_matrix (d := ⟨2, none, .array 1 [some 1, some 2]⟩) (by decide)
    rfl rfl (.ends (d := ⟨1, "int", .base 4 .signed⟩) (by decide) rfl)
    (.base (d := ⟨1, "int", .base 4 .signed⟩) (by decide) rfl) rfl rfl rfl rfl h

theorem operands_onePointer : Operands lvalueRecording 1 onePointer.type onePointer.node
    (.int ⟨0, .unsigned, 8, 0⟩ 1) {} 88 1 := ⟨{}, {}, by rfl, rfl, rfl, rfl⟩

end FlightRec.Agreement
