/-
# `FlightRec.Expressions.Members` — the members of a value that has no tag

`union node_value` does not say which of its members was written.  What a node writes
is fixed by its kind of node and by its type, what is read of it by the node above, and
that the two are the same member is left to the parser, which gives every node its type.

They are not the same where the evaluator asks for another type than the one that it
needs: unary minus negates `signed_value` of a `double` too, and the comparison of two
`double`s is a node of unsigned type, so that `unsigned_bin_op` gets it.
`exprParse_members_iff` lists all such places.
-/
import FlightRec.Expressions.Dispatch

namespace FlightRec.Expressions

open Hoare

/-! ## Members -/

/-- The members of `union node_value`. -/
inductive Member where
  | signed
  | unsigned
  | float
  | pointer
  deriving DecidableEq, Repr

/-- The member that a kind names; for what is no number there is an address at most. -/
def TKind.member : TKind → Member
  | .signed => .signed
  | .unsigned => .unsigned
  | .float => .float
  | _ => .pointer

/-- The member that a type names. -/
def Attrs.member (a : Attrs) : Member := if a.indirect ≠ 0 then .pointer else a.typeKind.member

/-- Whether the second member has what the first is to have: an address is kept in
`pointer_value` or in `unsigned_value`.  Without `sign` the two integers are one. -/
def Member.holds (sign : Bool) : Member → Member → Bool
  | .signed, .signed | .unsigned, .unsigned | .float, .float => true
  | .pointer, .pointer | .pointer, .unsigned => true
  | .signed, .unsigned | .unsigned, .signed => !sign
  | _, _ => false

/-- The nodes for which `evaluate_node` looks at its flags. -/
def AstNode.hasAddress : AstNode → Bool
  | .var .. | .field .. | .item .. | .unaryOp _ .deref _ => true
  | _ => false

/-- The member that is named for a node, asked for its value or for its address. -/
def AstNode.named (n : AstNode) (flags : Flags) : Member :=
  if flags = .addr ∧ n.hasAddress then .pointer else n.attrs.member

/-! ### What is written -/

/-- `var_value`; nothing for a type of which it has no value. -/
def varMember (a : Attrs) : Option Member :=
  if a.indirect ≠ 0 then some .unsigned
  else match a.typeKind with
    | .signed => some .signed
    | .unsigned => some .unsigned
    | .float => some .float
    | _ => none

def lvalueMember (a : Attrs) (flags : Flags) : Option Member :=
  if flags = .addr then some .unsigned else varMember a

/-- `float_bin_op` -/
def floatMember : BinaryOp → Option Member
  | .mul | .div | .add | .sub => some .float
  | .lt | .gt | .le | .ge | .eq | .neq => some .unsigned
  | _ => none

/-- `signed_bin_op` -/
def signedMember : BinaryOp → Option Member
  | .mul | .div | .add | .sub | .mod => some .signed
  | .lt | .gt | .le | .ge | .eq | .neq => some .unsigned
  | _ => none

/-- `unsigned_bin_op` -/
def unsignedMember : BinaryOp → Option Member
  | .sub => some .signed
  | .mul | .div | .add => some .unsigned
  | .lt | .gt | .le | .ge | .eq | .neq => some .unsigned
  | .bitAnd | .bitOr | .xor | .left | .right => some .unsigned
  | _ => none

/-- The guard of `pointerOp`. -/
def pointerRejects (op : BinaryOp) (ra : Attrs) : Prop :=
  ¬ (op = .add ∧ ra.typeKind = .signed) ∧
    (op = .sub ∧ (ra.typeKind = .signed ∨ ra.indirect ≠ 0))

instance (op : BinaryOp) (ra : Attrs) : Decidable (pointerRejects op ra) :=
  inferInstanceAs (Decidable (_ ∧ _))

def binaryMember (a : Attrs) (op : BinaryOp) (la ra : Attrs) : Option Member :=
  match dispatch a op la ra with
  | .pointer =>
      if pointerRejects op ra then none
      else if ra.typeKind = .signed then some .pointer else some .signed
  | .logical => some .unsigned
  | .float => floatMember op
  | .signed => signedMember op
  | .unsigned => unsignedMember op

/-- The member that `evaluate_node` writes for a node, unless it reports an error.  A cast
or an address that hands on the union of its operand has in it what it names. -/
def AstNode.written : AstNode → Flags → Option Member
  | .int a _, _ => if a.typeKind = .signed then some .signed else some .unsigned
  | .float _ _, _ => some .float
  | .string _ _, _ => some .pointer
  | .var a _ _, flags => lvalueMember a flags
  | .field a _ _ _, flags => lvalueMember a flags
  | .item a _ _, flags => lvalueMember a flags
  | .unaryOp a .addr _, _ => some a.member
  | .unaryOp a .deref _, flags => lvalueMember a flags
  | .unaryOp _ .neg _, _ => some .signed
  | .unaryOp _ .inv _, _ => some .unsigned
  | .unaryOp _ .not _, _ => some .unsigned
  | .binaryOp a op left right, _ => binaryMember a op left.attrs right.attrs
  | .type a _, _ => if a.indirect ≠ 0 ∨ a.typeKind.isNumeric then some a.member else none

/-! ### What is read -/

/-- A node that is evaluated for another one, and the member that is read of its value. -/
structure Read where
  node : AstNode
  flags : Flags
  member : Member
  deriving DecidableEq, Repr

/-- An operand of `&&` or `||`. -/
def truthMember (a : Attrs) : Member := if a.typeKind = .float then .float else .unsigned

def binaryReads (a : Attrs) (op : BinaryOp) (la ra : Attrs) : Option (Member × Member) :=
  match dispatch a op la ra with
  | .pointer =>
      if pointerRejects op ra then none
      else some (.pointer, if ra.typeKind = .signed then .signed else .pointer)
  | .logical => some (truthMember la, truthMember ra)
  | .float => some (.float, .float)
  | .signed => some (.signed, .signed)
  | .unsigned => some (.unsigned, .unsigned)

/-- What a cast reads of its operand; if it hands the union on, what it is cast to. -/
def castMember (a operand : Attrs) : Member :=
  if a.indirect ≠ 0 then
    if operand.indirect ≠ 0 then a.member else .unsigned
  else match a.typeKind with
    | .unsigned | .signed =>
        if operand.indirect ≠ 0 then .pointer
        else if operand.typeKind = .float then .float
        else a.member
    | .float =>
        if operand.typeKind = .unsigned then .unsigned
        else if operand.typeKind = .signed then .signed
        else a.member
    | _ => a.member

/-- What `evaluate_node` reads for a node of the values of the nodes below. -/
def AstNode.reads : AstNode → List Read
  | .int _ _ | .float _ _ | .string _ _ | .var _ _ _ => []
  | .field _ object _ _ => [⟨object, .addr, .unsigned⟩]
  | .item _ object member =>
      [⟨object, if object.indirect ≠ 0 then .noFlags else .addr, .unsigned⟩,
       ⟨member, .noFlags, .unsigned⟩]
  | .unaryOp a .addr left => [⟨left, .addr, a.member⟩]
  | .unaryOp _ .deref left => [⟨left, .noFlags, .unsigned⟩]
  | .unaryOp _ .neg left => [⟨left, .noFlags, .signed⟩]
  | .unaryOp _ .inv left => [⟨left, .noFlags, .unsigned⟩]
  | .unaryOp _ .not left => [⟨left, .noFlags, .unsigned⟩]
  | .binaryOp a op left right =>
      match binaryReads a op left.attrs right.attrs with
      | none => []
      | some (l, r) => [⟨left, .noFlags, l⟩, ⟨right, .noFlags, r⟩]
  | .type a operand =>
      [⟨operand, if isAggregate operand.typeKind then .addr else .noFlags,
        castMember a operand.attrs⟩]

/-- What `get_eval_result` reads of the value of the whole tree. -/
def AstNode.rootRead (n : AstNode) : Read :=
  if n.indirect = 0 ∧ n.typeKind.isNumeric then
    ⟨n, .noFlags, match n.typeKind with
      | .signed => .signed
      | .unsigned => .unsigned
      | _ => .float⟩
  else if n.indirect ≠ 0 then ⟨n, .noFlags, .unsigned⟩
  else ⟨n, .addr, .unsigned⟩

/-! ## What has to hold of a tree -/

/-- Something holds of a node and of all below. -/
def AstNode.Every (P : AstNode → Prop) : AstNode → Prop
  | .int a v => P (.int a v)
  | .float a v => P (.float a v)
  | .string a v => P (.string a v)
  | .var a name id => P (.var a name id)
  | .field a object member start => P (.field a object member start) ∧ object.Every P
  | .item a object member => P (.item a object member) ∧ object.Every P ∧ member.Every P
  | .unaryOp a op left => P (.unaryOp a op left) ∧ left.Every P
  | .binaryOp a op left right => P (.binaryOp a op left right) ∧ left.Every P ∧ right.Every P
  | .type a operand => P (.type a operand) ∧ operand.Every P

/-- The member that is read is the one that the type of the node names. -/
def Read.Sound (sign : Bool) (r : Read) : Prop := (r.node.named r.flags).holds sign r.member

/-- So is the member that is written for a node, and what it reads of those below. -/
def AstNode.NodeSound (sign : Bool) (n : AstNode) : Prop :=
  (∀ flags m, n.written flags = some m → (n.named flags).holds sign m) ∧
    ∀ r ∈ n.reads, r.Sound sign

/-- Whatever is written or read of the value of a node is the member that its type names. -/
def AstNode.MembersSound (sign : Bool) (n : AstNode) : Prop :=
  n.rootRead.Sound sign ∧ n.Every (·.NodeSound sign)

/-- The negative of a `double` has the other sign bit. -/
def negate (v : NodeValue) : NodeValue := v ^^^ BitVec.intMin 64

/-- Minus, the basic operations and the comparisons of `double`s have the arithmetic result. -/
def AstNode.FloatArithmetic : AstNode → Prop
  | .unaryOp a .neg left => left.typeKind = .float →
      ∀ env step flags s v s', evaluateNode env step left .noFlags s = some (v, s') →
        evaluateNode env step (.unaryOp a .neg left) flags s = some (negate v, s')
  | .binaryOp a op left right => left.typeKind = .float ∧ left.indirect = 0 →
      right.typeKind = .float ∧ right.indirect = 0 → ∀ f, floatCases op = some f →
      ∀ env step flags s v s₁ w s₂,
        evaluateNode env step left .noFlags s = some (v, s₁) → s₁.error = none →
        evaluateNode env step right .noFlags s₁ = some (w, s₂) → s₂.error = none →
        evaluateNode env step (.binaryOp a op left right) flags s = f env.floatOps v w s₂
  | _ => True

/-! ### Operators and the kinds of their operands -/

def BinaryOp.isComparison : BinaryOp → Bool
  | .lt | .gt | .le | .ge | .eq | .neq => true
  | _ => false

/-- `unsigned_value` can be read: no `double`, and if the sign matters nothing signed. -/
def Attrs.isWord (sign : Bool) (a : Attrs) : Bool :=
  a.indirect ≠ 0 || (a.typeKind ≠ .float && !(sign && a.typeKind = .signed))

/-- The operands for which a binary operator reads and writes the right members. -/
def BinaryFit (sign : Bool) (op : BinaryOp) (la ra : Attrs) : Prop :=
  if op = .and ∨ op = .or then
    if la.indirect ≠ 0 then sign = false ∧ ra.indirect ≠ 0 ∧ ra.typeKind ≠ .signed
    else (sign = true → la.typeKind ≠ .signed) ∧
      if ra.typeKind = .float then ra.indirect = 0 else ra.isWord sign
  else if op.isComparison then la.typeKind ≠ .float
  else if op.isBitwise then sign = true → la.typeKind = ra.typeKind
  else True

/-- The types to which a cast takes the member that is right for its operand. -/
def CastFit (sign : Bool) (a operand : Attrs) : Prop :=
  if a.indirect ≠ 0 then operand.isWord sign = true
  else if a.typeKind = .float then operand.indirect = 0 ∨ operand.typeKind = .unsigned
  else operand.indirect ≠ 0 ∨ operand.typeKind = .float ∨ operand.typeKind = a.typeKind ∨
    sign = false

/-- The operators and operands for which the members are the right ones. -/
def AstNode.OperandsFit (sign : Bool) : AstNode → Prop
  | .field _ object _ _ => object.hasAddress ∨ object.attrs.isWord sign
  | .item _ _ member => member.attrs.isWord sign
  | .unaryOp a .addr _ => a.isWord true
  | .unaryOp _ .neg left => left.typeKind = .signed ∨ (sign = false ∧ left.typeKind = .unsigned)
  | .unaryOp _ .inv left => left.attrs.isWord sign
  | .unaryOp _ .not left => left.attrs.isWord sign
  | .binaryOp _ op left right => BinaryFit sign op left.attrs right.attrs
  | .type a operand => CastFit sign a operand.attrs
  | _ => True

/-! ## What the parser builds -/

/-- A number of this kind. -/
def Attrs.IsNumber (k : TKind) (a : Attrs) : Prop := a.indirect = 0 ∧ a.typeKind = k

def BinaryOp.isArithmetic : BinaryOp → Bool
  | .mul | .div | .add | .sub => true
  | _ => false

/-- The kind of an arithmetic result; unsigned numbers have a signed difference. -/
def resultKind (op : BinaryOp) (k : TKind) : TKind :=
  if op = .sub ∧ k = .unsigned then .signed else k

/-- How the actions give a binary operator its type. -/
inductive BinaryBuilt (a : Attrs) : BinaryOp → Attrs → Attrs → Prop where
  | offset {op : BinaryOp} {ra : Attrs} : op = .add ∨ op = .sub → a.indirect ≠ 0 →
      ra.IsNumber .signed → BinaryBuilt a op a ra
  | difference {la ra : Attrs} : la.indirect ≠ 0 → ra.indirect ≠ 0 → a.IsNumber .signed →
      BinaryBuilt a .sub la ra
  | arithmetic {op : BinaryOp} {la ra : Attrs} (k : TKind) : op.isArithmetic → k.isNumeric →
      la.IsNumber k → ra.IsNumber k → a.IsNumber (resultKind op k) → BinaryBuilt a op la ra
  | modulo {la ra : Attrs} : la.IsNumber .signed → ra.IsNumber .signed → a.IsNumber .signed →
      BinaryBuilt a .mod la ra
  | comparison {op : BinaryOp} {la ra : Attrs} (k : TKind) : op.isComparison → k.isNumeric →
      la.IsNumber k → ra.IsNumber k → a.IsNumber .unsigned → BinaryBuilt a op la ra
  | bitwise {op : BinaryOp} {la ra : Attrs} (k k' : TKind) : op.isBitwise → k.isInteger →
      k'.isInteger → la.IsNumber k → ra.IsNumber k' → a.IsNumber .unsigned →
      BinaryBuilt a op la ra
  | logical {op : BinaryOp} {la ra : Attrs} : op = .and ∨ op = .or →
      la.typeKind.isNumeric ∨ la.indirect ≠ 0 → ra.typeKind.isNumeric ∨ ra.indirect ≠ 0 →
      a.IsNumber .unsigned → BinaryBuilt a op la ra

/-- What the actions see to when they build a node. -/
def AstNode.Built : AstNode → Prop
  | .int a _ => a.IsNumber .unsigned
  | .float a _ => a.IsNumber .float
  | .string a _ => a.indirect ≠ 0
  | .var _ _ _ => True
  | .field _ _ _ _ => True
  | .item _ object member =>
      (object.indirect ≠ 0 ∨ object.typeKind = .array) ∧ member.typeKind.isInteger
  | .unaryOp _ .addr left => isLvalue left
  | .unaryOp _ .deref left => left.indirect ≠ 0
  | .unaryOp a .neg left => left.indirect = 0 ∧ left.typeKind.isNumeric ∧
      a.IsNumber (if left.typeKind = .float then .float else .signed)
  | .unaryOp a .inv left => left.indirect = 0 ∧ left.typeKind.isInteger ∧ a.IsNumber .unsigned
  | .unaryOp a .not left =>
      (left.typeKind.isInteger ∨ left.indirect ≠ 0) ∧ a.IsNumber .unsigned
  | .binaryOp a op left right => BinaryBuilt a op left.attrs right.attrs
  | .type a operand =>
      (a.indirect ≠ 0 ∧
          (operand.indirect ≠ 0 ∨ operand.typeKind = .array ∨ operand.typeKind.isNumeric)) ∨
        (a.indirect = 0 ∧ a.typeKind.isInteger ∧ operand.indirect ≠ 0) ∨
        (a.indirect = 0 ∧ a.typeKind.isNumeric ∧ operand.typeKind.isNumeric)

section
variable {T : Tables} {scope : Nat} {left right n m : AstNode} {a : Attrs} {op : BinaryOp}
  {msg : String} {k : TKind}

theorem isNumeric_iff {k : TKind} :
    k.isNumeric = true ↔ k = .signed ∨ k = .unsigned ∨ k = .float := by
  simp [TKind.isNumeric, or_assoc]

theorem isNumeric_of_isInteger {k : TKind} (h : k.isInteger) : k.isNumeric := by
  obtain rfl | rfl := isInteger_iff.mp h <;> rfl

theorem bothNumeric_iff : bothNumeric left right = true ↔ left.typeKind.isNumeric ∧
    right.typeKind.isNumeric ∧ left.indirect = 0 ∧ right.indirect = 0 := by
  simp [bothNumeric, and_assoc]

theorem bothNumeric_of_guard (hdirect : ¬ left.indirect ≠ 0)
    (hnumbers : ¬ (!left.typeKind.isNumeric || !right.typeKind.isNumeric ||
      right.indirect ≠ 0) = true) : bothNumeric left right := by
  simp only [Bool.not_eq_true', Bool.or_eq_true, not_or, Bool.not_eq_false,
    decide_eq_true_eq, not_not] at hnumbers hdirect
  exact bothNumeric_iff.mpr ⟨hnumbers.1.1, hnumbers.1.2, hdirect, hnumbers.2⟩

theorem built_castTo {k : TKind} (hk : k.isNumeric) (hn : n.typeKind.isNumeric)
    (h : n.Every AstNode.Built) :
    (AstNode.type { typeKind := k, size := 8 } n).Every AstNode.Built :=
  ⟨.inr (.inr ⟨rfl, hk, hn⟩), h⟩

theorem built_castToSigned (hn : n.typeKind.isNumeric) (h : n.Every AstNode.Built) :
    (castToSigned n).Every AstNode.Built := built_castTo rfl hn h

/-- What is cast to one kind if one operand is of it is of that kind then. -/
theorem built_promote {k : TKind} (hk : k.isNumeric) (hone : left.typeKind = k ∨ right.typeKind = k)
    (hnumbers : bothNumeric left right) (hleft : left.Every AstNode.Built)
    (hright : right.Every AstNode.Built) {p : AstNode × AstNode}
    (hp : p = if left.typeKind ≠ k then (.type { typeKind := k, size := 8 } left, right)
      else if right.typeKind ≠ k then (left, .type { typeKind := k, size := 8 } right)
      else (left, right)) :
    (p.1.Every AstNode.Built ∧ p.2.Every AstNode.Built) ∧
      p.1.attrs.IsNumber k ∧ p.2.attrs.IsNumber k := by
  obtain ⟨hl, hr, hdl, hdr⟩ := bothNumeric_iff.mp hnumbers
  subst hp
  by_cases h : left.typeKind = k
  · rw [if_neg (not_not_intro h)]
    by_cases h' : right.typeKind = k
    · rw [if_neg (not_not_intro h')]
      exact ⟨⟨hleft, hright⟩, ⟨hdl, h⟩, hdr, h'⟩
    · rw [if_pos h']
      exact ⟨⟨hleft, built_castTo hk hr hright⟩, ⟨hdl, h⟩, rfl, rfl⟩
  · rw [if_pos h]
    exact ⟨⟨built_castTo hk hl hleft, hright⟩, ⟨rfl, rfl⟩, hdr, hone.resolve_left h⟩

theorem built_promoteToDouble (hone : left.typeKind = .float ∨ right.typeKind = .float)
    (hnumbers : bothNumeric left right) (hleft : left.Every AstNode.Built)
    (hright : right.Every AstNode.Built) :
    ((promoteOperandsToDouble left right).1.Every AstNode.Built ∧
        (promoteOperandsToDouble left right).2.Every AstNode.Built) ∧
      (promoteOperandsToDouble left right).1.attrs.IsNumber .float ∧
        (promoteOperandsToDouble left right).2.attrs.IsNumber .float :=
  built_promote rfl hone hnumbers hleft hright rfl

theorem built_promoteToSigned (hone : left.typeKind = .signed ∨ right.typeKind = .signed)
    (hnumbers : bothNumeric left right) (hleft : left.Every AstNode.Built)
    (hright : right.Every AstNode.Built) :
    ((promoteOperandsToSigned left right).1.Every AstNode.Built ∧
        (promoteOperandsToSigned left right).2.Every AstNode.Built) ∧
      (promoteOperandsToSigned left right).1.attrs.IsNumber .signed ∧
        (promoteOperandsToSigned left right).2.attrs.IsNumber .signed :=
  built_promote rfl hone hnumbers hleft hright rfl

theorem both_unsigned (hnumbers : bothNumeric left right)
    (hfloat : ¬ (left.typeKind = .float ∨ right.typeKind = .float))
    (hsigned : ¬ (left.typeKind = .signed ∨ right.typeKind = .signed)) :
    left.attrs.IsNumber .unsigned ∧ right.attrs.IsNumber .unsigned := by
  obtain ⟨hl, hr, hdl, hdr⟩ := bothNumeric_iff.mp hnumbers
  obtain ⟨hfl, hfr⟩ := not_or.mp hfloat
  obtain ⟨hsl, hsr⟩ := not_or.mp hsigned
  have hunsigned {k : TKind} (hk : k.isNumeric) (hs : k ≠ .signed) (hf : k ≠ .float) :
      k = .unsigned := ((isNumeric_iff.mp hk).resolve_left hs).resolve_right hf
  exact ⟨⟨hdl, hunsigned hl hsl hfl⟩, hdr, hunsigned hr hsr hfr⟩

theorem built_promoted (hop : op.isArithmetic) (hnumbers : bothNumeric left right)
    (hleft : left.Every AstNode.Built) (hright : right.Every AstNode.Built) :
    (binaryOp left right op).Every AstNode.Built := by
  unfold binaryOp
  split
  next hfloat =>
    obtain ⟨hbuilt, hl, hr⟩ := built_promoteToDouble hfloat hnumbers hleft hright
    refine ⟨BinaryBuilt.arithmetic .float hop rfl hl hr ⟨rfl, ?_⟩, hbuilt⟩
    exact (if_neg fun h => (by cases h.2)).symm
  next hfloat =>
    split
    next hsigned =>
      obtain ⟨hbuilt, hl, hr⟩ := built_promoteToSigned hsigned hnumbers hleft hright
      refine ⟨BinaryBuilt.arithmetic .signed hop rfl hl hr ⟨rfl, ?_⟩, hbuilt⟩
      exact (if_neg fun h => (by cases h.2)).symm
    next hsigned =>
      obtain ⟨hl, hr⟩ := both_unsigned hnumbers hfloat hsigned
      refine ⟨BinaryBuilt.arithmetic .unsigned hop rfl hl hr ⟨rfl, ?_⟩, hleft, hright⟩
      unfold resultKind
      simp

theorem built_multiplicativeAction (hop : op.isArithmetic) (hleft : left.Every AstNode.Built)
    (hright : right.Every AstNode.Built) (h : multiplicativeAction op msg left right = .ok n) :
    n.Every AstNode.Built := by
  obtain ⟨hnumbers, hn⟩ := ok_of_ite h
  cases hn
  exact built_promoted hop (by simpa using hnumbers) hleft hright

theorem built_signedOperand (hn : n.typeKind.isInteger) (hdirect : n.indirect = 0)
    (h : n.Every AstNode.Built) {c : Prop} [Decidable c] (hc : ¬ c → n.typeKind = .signed) :
    (if c then castToSigned n else n).Every AstNode.Built ∧
      (if c then castToSigned n else n).attrs.IsNumber .signed := by
  split
  next => exact ⟨built_castToSigned (isNumeric_of_isInteger hn) h, rfl, rfl⟩
  next hnot => exact ⟨h, hdirect, hc hnot⟩

theorem built_moduloAction (hleft : left.Every AstNode.Built) (hright : right.Every AstNode.Built)
    (h : moduloAction left right = .ok n) : n.Every AstNode.Built := by
  obtain ⟨hint, hn⟩ := ok_of_ite h
  cases hn
  obtain ⟨hl, hr, hdl, hdr⟩ := bothInteger_iff.mp (by simpa using hint)
  have hsigned {m : AstNode} (hm : m.typeKind.isInteger) (hunsigned : ¬ m.typeKind = .unsigned) :
      m.typeKind = .signed := (isInteger_iff.mp hm).resolve_right hunsigned
  obtain ⟨hbl, hsl⟩ := built_signedOperand hl hdl hleft (hsigned hl)
  obtain ⟨hbr, hsr⟩ := built_signedOperand hr hdr hright (hsigned hr)
  exact ⟨BinaryBuilt.modulo hsl hsr ⟨rfl, rfl⟩, hbl, hbr⟩

theorem built_offset (hop : op = .add ∨ op = .sub) (hpointer : left.indirect ≠ 0)
    (hr : right.typeKind.isInteger) (hdr : right.indirect = 0) (hleft : left.Every AstNode.Built)
    (hright : right.Every AstNode.Built) :
    (AstNode.binaryOp left.attrs op left (pointerOffset right)).Every AstNode.Built := by
  obtain ⟨hbuilt, hsigned⟩ := built_signedOperand hr hdr hright
    (fun h : ¬ right.typeKind ≠ .signed => not_not.mp h)
  exact ⟨BinaryBuilt.offset hop hpointer hsigned, hleft, hbuilt⟩

theorem built_additionAction (hleft : left.Every AstNode.Built)
    (hright : right.Every AstNode.Built) (h : additionAction left right = .ok n) :
    n.Every AstNode.Built := by
  unfold additionAction at h
  split at h
  next hpointer =>
    obtain ⟨hoffset, hn⟩ := ok_of_ite h
    cases hn
    obtain ⟨hdr, hr⟩ := not_or.mp hoffset
    exact built_offset (.inl rfl) hpointer (by simpa using hr) (not_not.mp hdr) hleft hright
  next hdirect =>
    obtain ⟨hnumbers, hn⟩ := ok_of_ite h
    cases hn
    exact built_promoted rfl (bothNumeric_of_guard hdirect hnumbers) hleft hright

theorem built_subtractionAction (hleft : left.Every AstNode.Built)
    (hright : right.Every AstNode.Built) (h : subtractionAction left right = .ok n) :
    n.Every AstNode.Built := by
  unfold subtractionAction at h
  split at h
  next hpointer =>
    split at h
    next hpointer' =>
      obtain ⟨_, hn⟩ := ok_of_ite h
      cases hn
      exact ⟨BinaryBuilt.difference hpointer hpointer' ⟨rfl, rfl⟩, hleft, hright⟩
    next hdirect' =>
      split at h
      next hr =>
        cases h
        exact built_offset (.inr rfl) hpointer hr (not_not.mp hdirect') hleft hright
      next => cases h
  next hdirect =>
    obtain ⟨hnumbers, hn⟩ := ok_of_ite h
    cases hn
    exact built_promoted rfl (bothNumeric_of_guard hdirect hnumbers) hleft hright

theorem built_bitwiseAction (hop : op.isBitwise) (hleft : left.Every AstNode.Built)
    (hright : right.Every AstNode.Built) (h : bitwiseAction op msg left right = .ok n) :
    n.Every AstNode.Built := by
  obtain ⟨hint, hn⟩ := ok_of_ite h
  cases hn
  obtain ⟨hl, hr, hdl, hdr⟩ := bothInteger_iff.mp (by simpa using hint)
  exact ⟨BinaryBuilt.bitwise _ _ hop hl hr ⟨hdl, rfl⟩ ⟨hdr, rfl⟩ ⟨rfl, rfl⟩, hleft, hright⟩

theorem built_comparisonAction (hop : op.isComparison) (hleft : left.Every AstNode.Built)
    (hright : right.Every AstNode.Built) (h : comparisonAction op left right = .ok n) :
    n.Every AstNode.Built := by
  obtain ⟨hnumbers, hn⟩ := ok_of_ite h
  cases hn
  have hboth : bothNumeric left right := by simpa using hnumbers
  split
  next hfloat =>
    obtain ⟨hbuilt, hl, hr⟩ := built_promoteToDouble hfloat hboth hleft hright
    exact ⟨BinaryBuilt.comparison .float hop rfl hl hr ⟨rfl, rfl⟩, hbuilt⟩
  next hfloat =>
    split
    next hsigned =>
      obtain ⟨hbuilt, hl, hr⟩ := built_promoteToSigned hsigned hboth hleft hright
      exact ⟨BinaryBuilt.comparison .signed hop rfl hl hr ⟨rfl, rfl⟩, hbuilt⟩
    next hsigned =>
      obtain ⟨hl, hr⟩ := both_unsigned hboth hfloat hsigned
      exact ⟨BinaryBuilt.comparison .unsigned hop rfl hl hr ⟨rfl, rfl⟩, hleft, hright⟩

theorem built_logicalAction (hop : op = .and ∨ op = .or) (hleft : left.Every AstNode.Built)
    (hright : right.Every AstNode.Built) (h : logicalAction op left right = .ok n) :
    n.Every AstNode.Built := by
  obtain ⟨hoperands, hn⟩ := ok_of_ite h
  cases hn
  have htruth {m : AstNode} (hm : ¬ (!m.typeKind.isNumeric && m.indirect = 0) = true) :
      m.typeKind.isNumeric ∨ m.indirect ≠ 0 := by
    by_cases hk : m.typeKind.isNumeric
    · exact .inl hk
    · exact .inr (by simpa [hk] using hm)
  rw [Bool.or_eq_true, not_or] at hoperands
  exact ⟨BinaryBuilt.logical hop (htruth hoperands.1) (htruth hoperands.2) ⟨rfl, rfl⟩,
    hleft, hright⟩

theorem built_binaryAction (hleft : left.Every AstNode.Built) (hright : right.Every AstNode.Built)
    (h : binaryAction op left right = .ok n) : n.Every AstNode.Built := by
  cases op with
  | mul => exact built_multiplicativeAction rfl hleft hright h
  | div => exact built_multiplicativeAction rfl hleft hright h
  | mod => exact built_moduloAction hleft hright h
  | add => exact built_additionAction hleft hright h
  | sub => exact built_subtractionAction hleft hright h
  | bitAnd => exact built_bitwiseAction rfl hleft hright h
  | xor => exact built_bitwiseAction rfl hleft hright h
  | bitOr => exact built_bitwiseAction rfl hleft hright h
  | left => exact built_bitwiseAction rfl hleft hright h
  | right => exact built_bitwiseAction rfl hleft hright h
  | and => exact built_logicalAction (.inl rfl) hleft hright h
  | or => exact built_logicalAction (.inr rfl) hleft hright h
  | lt => exact built_comparisonAction rfl hleft hright h
  | gt => exact built_comparisonAction rfl hleft hright h
  | le => exact built_comparisonAction rfl hleft hright h
  | ge => exact built_comparisonAction rfl hleft hright h
  | eq => exact built_comparisonAction rfl hleft hright h
  | neq => exact built_comparisonAction rfl hleft hright h

theorem built_subscriptAction (hleft : left.Every AstNode.Built)
    (hright : right.Every AstNode.Built) (h : subscriptAction T left right = .ok n) :
    n.Every AstNode.Built := by
  obtain ⟨hobject, h⟩ := ok_of_ite h
  obtain ⟨hindex, h⟩ := ok_of_ite h
  have hbuilt {a : Attrs} : (AstNode.item a left right).Every AstNode.Built := by
    refine ⟨⟨?_, by simpa using hindex⟩, hleft, hright⟩
    by_cases hdirect : left.indirect = 0
    · exact .inr (not_not.mp fun hk => hobject ⟨hdirect, hk⟩)
    · exact .inl hdirect
  split at h
  · split at h
    · cases h
      exact hbuilt
    · cases h
  · cases h
    exact hbuilt

theorem built_fieldAction {name : String} (hleft : left.Every AstNode.Built)
    (h : fieldAction T left name = .ok n) : n.Every AstNode.Built := by
  unfold fieldAction at h
  split at h
  · cases h
    exact ⟨trivial, hleft⟩
  · cases h

theorem built_arrowAction {name : String} (hleft : left.Every AstNode.Built)
    (h : arrowAction T left name = .ok n) : n.Every AstNode.Built := by
  obtain ⟨hpointer, h⟩ := ok_of_ite h
  obtain ⟨_, h⟩ := ok_of_ite h
  have hderef : (AstNode.unaryOp { left.attrs with indirect := 0 } .deref left).Every
      AstNode.Built := ⟨hpointer, hleft⟩
  exact built_fieldAction hderef h

theorem built_unaryAction {op : UnaryOp} (hleft : left.Every AstNode.Built)
    (h : unaryAction op left = .ok n) : n.Every AstNode.Built := by
  cases op with
  | addr =>
      obtain ⟨hlvalue, hn⟩ := ok_of_ite h
      cases hn
      have hleftValue : isLvalue left = true := by simpa using hlvalue
      exact ⟨hleftValue, hleft⟩
  | deref =>
      obtain ⟨hpointer, hn⟩ := ok_of_ite h
      cases hn
      exact ⟨hpointer, hleft⟩
  | neg =>
      obtain ⟨hnumber, h⟩ := ok_of_ite h
      simp only [Bool.or_eq_true, Bool.not_eq_true', not_or, Bool.not_eq_false,
        decide_eq_true_eq, not_not] at hnumber
      split at h
      next hfloat =>
        cases h
        exact ⟨⟨hnumber.2, hnumber.1, rfl, (if_pos hfloat).symm⟩, hleft⟩
      next hfloat =>
        cases h
        exact ⟨⟨hnumber.2, hnumber.1, rfl, (if_neg hfloat).symm⟩, hleft⟩
  | inv =>
      obtain ⟨hnumber, hn⟩ := ok_of_ite h
      cases hn
      simp only [Bool.or_eq_true, Bool.not_eq_true', not_or, Bool.not_eq_false,
        decide_eq_true_eq, not_not] at hnumber
      exact ⟨⟨hnumber.2, hnumber.1, rfl, rfl⟩, hleft⟩
  | not =>
      obtain ⟨hoperand, hn⟩ := ok_of_ite h
      cases hn
      refine ⟨⟨?_, rfl, rfl⟩, hleft⟩
      by_cases hk : left.typeKind.isInteger
      · exact .inl hk
      · exact .inr (by simpa [hk] using hoperand)

theorem built_castAction (hleft : left.Every AstNode.Built) (h : castAction a left = .ok n) :
    n.Every AstNode.Built := by
  unfold castAction at h
  split at h
  next hcast =>
    cases h
    refine ⟨?_, hleft⟩
    by_cases hdirect : a.indirect = 0
    · obtain h | h | h | h | h := hcast
      · exact absurd hdirect h.1
      · exact absurd hdirect h.1
      · exact absurd hdirect h.1
      · exact .inr (.inl ⟨hdirect, h.2.1, h.1⟩)
      · exact .inr (.inr ⟨hdirect, h.1, h.2⟩)
    · refine .inl ⟨hdirect, ?_⟩
      obtain h | h | h | h | h := hcast
      · exact .inl h.2
      · exact .inr (.inl h.2)
      · exact .inr (.inr h.2)
      · exact .inl h.1
      · exact .inr (.inr h.2)
  next => cases h

/-- **What the actions build**: the operands are built, and the action sees to the rest. -/
theorem built_ast : ∀ (e : Expr) {n : AstNode}, e.ast T scope = .ok n → n.Every AstNode.Built
  | .identifier name, n, h => by
      have hn : identifierAction T scope name = .ok n := h
      unfold identifierAction at hn
      split at hn <;> cases hn
      trivial
  | .constant c, n, h => by
      cases h
      cases c with
      | integer v => exact ⟨rfl, rfl⟩
      | floating v => exact ⟨rfl, rfl⟩
      | null => exact ⟨rfl, rfl⟩
      | string s => exact Int.one_ne_zero
  | .item object index, n, h => by
      obtain ⟨x, hx, h⟩ := ok_of_bind h
      obtain ⟨y, hy, h⟩ := ok_of_bind h
      exact built_subscriptAction (built_ast object hx) (built_ast index hy) h
  | .field object name, n, h => by
      obtain ⟨x, hx, h⟩ := ok_of_bind h
      exact built_fieldAction (built_ast object hx) h
  | .arrow object name, n, h => by
      obtain ⟨x, hx, h⟩ := ok_of_bind h
      exact built_arrowAction (built_ast object hx) h
  | .plus operand, n, h => built_ast operand h
  | .unaryOp op operand, n, h => by
      obtain ⟨x, hx, h⟩ := ok_of_bind h
      exact built_unaryAction (built_ast operand hx) h
  | .sizeofExpr operand, n, h => by
      obtain ⟨x, _, h⟩ := ok_of_bind h
      cases h
      exact ⟨rfl, rfl⟩
  | .sizeofType type, n, h => by
      cases h
      exact ⟨rfl, rfl⟩
  | .cast type operand, n, h => by
      obtain ⟨x, hx, h⟩ := ok_of_bind h
      exact built_castAction (built_ast operand hx) h
  | .binaryOp op left right, n, h => by
      obtain ⟨x, hx, h⟩ := ok_of_bind h
      obtain ⟨y, hy, h⟩ := ok_of_bind h
      exact built_binaryAction (built_ast left hx) (built_ast right hy) h

end

/-! ## One node -/

section
variable {sign : Bool} {n left right : AstNode} {a la ra : Attrs} {op : BinaryOp} {k : TKind}
  {flags : Flags}

theorem member_of_indirect (h : a.indirect ≠ 0) : a.member = .pointer := if_pos h

theorem member_of_direct (h : a.indirect = 0) : a.member = a.typeKind.member :=
  if_neg (not_not_intro h)

theorem Attrs.IsNumber.member_eq (h : a.IsNumber k) : a.member = k.member := by
  rw [member_of_direct h.1, h.2]

@[simp] theorem named_noFlags : n.named .noFlags = n.attrs.member := by
  simp [AstNode.named]

theorem named_plain (h : n.hasAddress = false) : n.named flags = n.attrs.member := by
  simp [AstNode.named, h]

theorem holds_unsigned_iff : a.member.holds sign .unsigned ↔ a.isWord sign := by
  unfold Attrs.isWord
  by_cases h : a.indirect = 0
  · rw [member_of_direct h, h]
    cases a.typeKind <;> simp [TKind.member, Member.holds]
  · rw [member_of_indirect h]
    simp [Member.holds, h]

theorem holds_named_addr :
    (n.named .addr).holds sign .unsigned ↔ n.hasAddress = true ∨ n.attrs.isWord sign := by
  by_cases h : n.hasAddress
  · simp [AstNode.named, h, Member.holds]
  · rw [named_plain (by simpa using h), holds_unsigned_iff]
    simp [h]

theorem holds_lvalueMember (hn : n.hasAddress) {m : Member}
    (h : lvalueMember n.attrs flags = some m) : (n.named flags).holds sign m := by
  cases flags with
  | addr =>
      cases h
      simp [AstNode.named, hn, Member.holds]
  | noFlags =>
      have hvar : varMember n.attrs = some m := h
      rw [named_noFlags]
      unfold varMember at hvar
      by_cases hdirect : n.attrs.indirect = 0
      · rw [if_neg (not_not_intro hdirect)] at hvar
        rw [member_of_direct hdirect]
        cases hk : n.attrs.typeKind <;> rw [hk] at hvar <;> cases hvar <;> rfl
      · rw [if_pos hdirect] at hvar
        cases hvar
        rw [member_of_indirect hdirect]
        rfl

theorem nodeSound_plain {w : Option Member} (hplain : n.hasAddress = false)
    (hwritten : ∀ flags, n.written flags = w) : n.NodeSound sign ↔
      (∀ m, w = some m → n.attrs.member.holds sign m) ∧ ∀ r ∈ n.reads, r.Sound sign := by
  simp only [AstNode.NodeSound, hwritten, named_plain hplain]
  exact ⟨fun h => ⟨h.1 .noFlags, h.2⟩, fun h => ⟨fun _ => h.1, h.2⟩⟩

theorem nodeSound_lvalue (hn : n.hasAddress)
    (hwritten : ∀ flags, n.written flags = lvalueMember n.attrs flags) :
    n.NodeSound sign ↔ ∀ r ∈ n.reads, r.Sound sign := by
  refine and_iff_right ?_
  intro flags m hm
  exact holds_lvalueMember hn ((hwritten flags).symm.trans hm)

theorem hasAddress_of_isLvalue (h : isLvalue n) : n.hasAddress := by
  cases n <;> first | rfl | cases h

@[simp] theorem holds_self {m : Member} : m.holds sign m := by
  cases m <;> rfl

theorem holds_pointer_iff : Member.pointer.holds sign a.member ↔ a.isWord true := by
  unfold Attrs.isWord
  by_cases h : a.indirect = 0
  · rw [member_of_direct h, h]
    cases a.typeKind <;> simp [TKind.member, Member.holds]
  · rw [member_of_indirect h]
    simp [Member.holds, h]

theorem sound_single {flags : Flags} {m : Member} :
    (∀ r ∈ [(⟨left, flags, m⟩ : Read)], r.Sound sign) ↔ (left.named flags).holds sign m :=
  List.forall_mem_singleton

theorem forall_some {P : Member → Prop} {m : Member} : (∀ m', some m = some m' → P m') ↔ P m := by
  simp

theorem nodeSound_unaryOp {op : UnaryOp} (h : (AstNode.unaryOp a op left).Built) :
    (AstNode.unaryOp a op left).NodeSound sign ↔ (AstNode.unaryOp a op left).OperandsFit sign := by
  cases op with
  | addr =>
      have hpointer : left.named .addr = .pointer := if_pos ⟨rfl, hasAddress_of_isLvalue h⟩
      rw [nodeSound_plain rfl fun _ => rfl, forall_some, AstNode.reads, sound_single, hpointer]
      exact (and_iff_right holds_self).trans holds_pointer_iff
  | deref =>
      rw [nodeSound_lvalue rfl fun _ => rfl, AstNode.reads, sound_single, named_noFlags,
        member_of_indirect h]
      exact iff_of_true rfl trivial
  | neg =>
      obtain ⟨hdirect, hnumber, ha⟩ := h
      have hleft : left.attrs.IsNumber left.typeKind := ⟨hdirect, rfl⟩
      rw [nodeSound_plain rfl fun _ => rfl, forall_some, AstNode.reads, sound_single,
        named_noFlags, hleft.member_eq, AstNode.attrs, ha.member_eq, AstNode.OperandsFit]
      obtain hk | hk | hk := isNumeric_iff.mp hnumber <;> rw [hk] <;>
        simp [TKind.member, Member.holds]
  | inv =>
      obtain ⟨hdirect, hinteger, ha⟩ := h
      have hown : a.member = .unsigned := ha.member_eq
      rw [nodeSound_plain rfl fun _ => rfl, forall_some, AstNode.reads, sound_single, named_noFlags]
      exact (and_iff_right (by rw [AstNode.attrs, hown]; rfl)).trans holds_unsigned_iff
  | not =>
      obtain ⟨_, ha⟩ := h
      have hown : a.member = .unsigned := ha.member_eq
      rw [nodeSound_plain rfl fun _ => rfl, forall_some, AstNode.reads, sound_single, named_noFlags]
      exact (and_iff_right (by rw [AstNode.attrs, hown]; rfl)).trans holds_unsigned_iff

theorem nodeSound_binary : (AstNode.binaryOp a op left right).NodeSound sign ↔
    (∀ m, binaryMember a op left.attrs right.attrs = some m → a.member.holds sign m) ∧
      ∀ l r, binaryReads a op left.attrs right.attrs = some (l, r) →
        left.attrs.member.holds sign l ∧ right.attrs.member.holds sign r := by
  rw [@nodeSound_plain sign (.binaryOp a op left right) _ rfl fun _ => rfl]
  refine and_congr_right fun _ => ?_
  rw [AstNode.reads]
  cases binaryReads a op left.attrs right.attrs with
  | none => simp
  | some reads =>
      simp only [List.forall_mem_cons, Read.Sound, named_noFlags, List.not_mem_nil, false_imp_iff,
        implies_true, and_true, Option.some.injEq]
      constructor
      · rintro h l r ⟨⟩
        exact h
      · intro h
        exact h _ _ rfl

theorem not_logical_of_isArithmetic (h : op.isArithmetic) : ¬ (op = .and ∨ op = .or) := by
  rintro (rfl | rfl) <;> cases h

theorem not_logical_of_isComparison (h : op.isComparison) : ¬ (op = .and ∨ op = .or) := by
  rintro (rfl | rfl) <;> cases h

theorem not_logical_of_isBitwise (h : op.isBitwise) : ¬ (op = .and ∨ op = .or) := by
  rintro (rfl | rfl) <;> cases h

theorem dispatch_logical (h : la.indirect = 0) (hop : op = .and ∨ op = .or) :
    dispatch a op la ra = .logical := by
  unfold dispatch
  rw [if_neg (not_not_intro h), if_pos hop]

theorem dispatch_same (hl : la.IsNumber k) (hr : ra.IsNumber k) (hop : ¬ (op = .and ∨ op = .or)) :
    dispatch a op la ra = if a.typeKind = .float then .float
      else if k = .signed then .signed else .unsigned := by
  unfold dispatch
  rw [if_neg (not_not_intro hl.1), if_neg hop, hl.2, hr.2]
  simp only [or_self]

theorem holds_truthMember : a.member.holds sign (truthMember a) ↔
    if a.typeKind = .float then a.indirect = 0 else (a.isWord sign : Prop) := by
  unfold truthMember
  split
  next hk =>
    by_cases hdirect : a.indirect = 0
    · simp [member_of_direct hdirect, hk, hdirect, TKind.member]
    · simp [member_of_indirect hdirect, hdirect, Member.holds]
  next => exact holds_unsigned_iff

theorem logical_members_iff (hop : op = .and ∨ op = .or)
    (hl : la.typeKind.isNumeric ∨ la.indirect ≠ 0) (hdirect : la.indirect = 0)
    (ha : a.IsNumber .unsigned) :
    ((∀ m, binaryMember a op la ra = some m → a.member.holds sign m) ∧
        ∀ l r, binaryReads a op la ra = some (l, r) →
          la.member.holds sign l ∧ ra.member.holds sign r) ↔
      BinaryFit sign op la ra := by
  have hreads : binaryReads a op la ra = some (truthMember la, truthMember ra) := by
    unfold binaryReads
    rw [dispatch_logical hdirect hop]
  have hwritten : binaryMember a op la ra = some .unsigned := by
    unfold binaryMember
    rw [dispatch_logical hdirect hop]
  have hleft : (if la.typeKind = .float then la.indirect = 0 else (la.isWord sign : Prop)) ↔
      (sign = true → la.typeKind ≠ .signed) := by
    obtain hk | hk | hk := isNumeric_iff.mp (hl.resolve_right (not_not_intro hdirect)) <;>
      simp [hk, hdirect, Attrs.isWord]
  rw [hreads, hwritten, forall_some, ha.member_eq, BinaryFit, if_pos hop,
    if_neg (not_not_intro hdirect), ← hleft, ← holds_truthMember, ← holds_truthMember]
  constructor
  · rintro ⟨_, h⟩
    exact h _ _ rfl
  · intro h
    refine ⟨holds_self, ?_⟩
    rintro l r ⟨⟩
    exact h

/-- With a pointer on the left they are taken for pointer math. -/
theorem pointer_logical_members_iff (hop : op = .and ∨ op = .or) (hpointer : la.indirect ≠ 0)
    (hr : ra.typeKind.isNumeric ∨ ra.indirect ≠ 0) (ha : a.IsNumber .unsigned) :
    ((∀ m, binaryMember a op la ra = some m → a.member.holds sign m) ∧
        ∀ l r, binaryReads a op la ra = some (l, r) →
          la.member.holds sign l ∧ ra.member.holds sign r) ↔
      BinaryFit sign op la ra := by
  have hfun : dispatch a op la ra = .pointer := if_pos hpointer
  have haccepts : ¬ pointerRejects op ra := by
    rintro ⟨_, rfl, _⟩
    rcases hop with hop | hop <;> cases hop
  unfold binaryMember binaryReads BinaryFit
  rw [hfun, if_pos hop, if_pos hpointer, ha.member_eq, member_of_indirect hpointer]
  simp only [if_neg haccepts]
  by_cases hk : ra.typeKind = .signed
  · simp [hk, TKind.member, Member.holds]
  · have hright : ra.member.holds sign .pointer ↔ ra.indirect ≠ 0 := by
      by_cases hi : ra.indirect = 0
      · rw [member_of_direct hi]
        obtain h | h | h := isNumeric_iff.mp (hr.resolve_right (not_not_intro hi)) <;>
          simp [h, hi, TKind.member, Member.holds]
      · simp [member_of_indirect hi, hi]
    have hdifference : Member.unsigned.holds sign .signed ↔ sign = false := by
      cases sign <;> simp [Member.holds]
    rw [if_neg hk, if_neg hk, forall_some]
    constructor
    · rintro ⟨hown, h⟩
      exact ⟨hdifference.mp hown, hright.mp (h _ _ rfl).2, hk⟩
    · rintro ⟨hsign, hi, _⟩
      refine ⟨hdifference.mpr hsign, ?_⟩
      rintro l r ⟨⟩
      exact ⟨holds_self, hright.mpr hi⟩

/-- **A binary operator**: which operands it does not suit, of those it is built for. -/
theorem binary_members_iff (h : BinaryBuilt a op la ra) :
    ((∀ m, binaryMember a op la ra = some m → a.member.holds sign m) ∧
        ∀ l r, binaryReads a op la ra = some (l, r) →
          la.member.holds sign l ∧ ra.member.holds sign r) ↔
      BinaryFit sign op la ra := by
  cases h with
  | @offset op ra hop hpointer hr =>
      have hfun : dispatch a op a ra = .pointer := if_pos hpointer
      unfold binaryMember binaryReads BinaryFit
      rw [hfun, hr.member_eq, member_of_indirect hpointer]
      rcases hop with rfl | rfl <;>
        simp [pointerRejects, hr.2, TKind.member, Member.holds, BinaryOp.isComparison,
          BinaryOp.isBitwise]
  | difference hl hr ha =>
      have hfun : dispatch a .sub la ra = .pointer := if_pos hl
      unfold binaryMember binaryReads BinaryFit
      rw [hfun]
      simp [pointerRejects, hr, BinaryOp.isComparison, BinaryOp.isBitwise]
  | arithmetic k hop hk hl hr ha =>
      have hlogical := not_logical_of_isArithmetic hop
      unfold binaryMember binaryReads BinaryFit
      rw [dispatch_same hl hr hlogical, hl.member_eq, hr.member_eq, ha.member_eq, ha.2]
      obtain rfl | rfl | rfl := isNumeric_iff.mp hk <;> cases op <;> cases hop <;>
        simp [resultKind, TKind.member, Member.holds, floatMember, signedMember, unsignedMember,
          BinaryOp.isComparison, BinaryOp.isBitwise]
  | modulo hl hr ha =>
      unfold binaryMember binaryReads BinaryFit
      rw [dispatch_same hl hr (by simp), hl.member_eq, hr.member_eq, ha.member_eq, ha.2]
      simp [TKind.member, Member.holds, signedMember, BinaryOp.isComparison, BinaryOp.isBitwise]
  | comparison k hop hk hl hr ha =>
      have hlogical := not_logical_of_isComparison hop
      unfold binaryMember binaryReads BinaryFit
      rw [dispatch_same hl hr hlogical, if_neg hlogical, if_pos hop, hl.member_eq, hr.member_eq,
        ha.member_eq, ha.2, hl.2]
      obtain rfl | rfl | rfl := isNumeric_iff.mp hk <;> cases op <;> cases hop <;>
        simp [TKind.member, Member.holds, signedMember, unsignedMember]
  | bitwise k k' hop hk hk' hl hr ha =>
      have hlogical := not_logical_of_isBitwise hop
      have hplain : ¬ op.isComparison := by
        cases op <;> first | exact Bool.false_ne_true | cases hop
      have hfun : dispatch a op la ra =
          if k = .signed ∨ k' = .signed then .signed else .unsigned := by
        unfold dispatch
        rw [if_neg (not_not_intro hl.1), if_neg hlogical, if_neg (by rw [ha.2]; decide), hl.2, hr.2]
      unfold binaryMember binaryReads BinaryFit
      rw [hfun, if_neg hlogical, if_neg hplain, if_pos hop, hl.member_eq, hr.member_eq,
        ha.member_eq, hl.2, hr.2]
      obtain rfl | rfl := isInteger_iff.mp hk <;> obtain rfl | rfl := isInteger_iff.mp hk' <;>
        cases op <;> cases hop <;>
          simp [TKind.member, Member.holds, signedMember, unsignedMember]
  | logical hop hl hr ha =>
      by_cases hpointer : la.indirect = 0
      · exact logical_members_iff hop hl hpointer ha
      · exact pointer_logical_members_iff hop hpointer hr ha

theorem named_castOperand : n.named (if isAggregate n.typeKind then .addr else .noFlags) =
    n.attrs.member := by
  by_cases h : isAggregate n.typeKind
  · have hmember : n.attrs.member = .pointer := by
      by_cases hdirect : n.attrs.indirect = 0
      · have haggregate : isAggregate n.attrs.typeKind := h
        have hk : n.attrs.typeKind = .array ∨ n.attrs.typeKind = .struct ∨
            n.attrs.typeKind = .union := by
          simpa [isAggregate, or_assoc] using haggregate
        rw [member_of_direct hdirect]
        rcases hk with hk | hk | hk <;> rw [hk] <;> rfl
      · exact member_of_indirect hdirect
    rw [if_pos h, AstNode.named, hmember, ite_self]
  · rw [if_neg h, named_noFlags]

theorem castMember_iff {operand : Attrs}
    (h : (a.indirect ≠ 0 ∧
        (operand.indirect ≠ 0 ∨ operand.typeKind = .array ∨ operand.typeKind.isNumeric)) ∨
      (a.indirect = 0 ∧ a.typeKind.isInteger ∧ operand.indirect ≠ 0) ∨
      (a.indirect = 0 ∧ a.typeKind.isNumeric ∧ operand.typeKind.isNumeric)) :
    operand.member.holds sign (castMember a operand) ↔ CastFit sign a operand := by
  unfold castMember CastFit
  rcases h with ⟨ha, _⟩ | ⟨ha, hk, hpointer⟩ | ⟨ha, hk, hoperand⟩
  · rw [if_pos ha, if_pos ha]
    by_cases hpointer : operand.indirect = 0
    · rw [if_neg (not_not_intro hpointer)]
      exact holds_unsigned_iff
    · rw [if_pos hpointer, member_of_indirect ha, member_of_indirect hpointer]
      simp [Member.holds, Attrs.isWord, hpointer]
  · rw [if_neg (not_not_intro ha), if_neg (not_not_intro ha), member_of_indirect hpointer]
    obtain hk | hk := isInteger_iff.mp hk <;> simp [hk, hpointer, Member.holds]
  · rw [if_neg (not_not_intro ha), if_neg (not_not_intro ha), member_of_direct ha]
    by_cases hpointer : operand.indirect = 0
    · rw [member_of_direct hpointer]
      obtain hk | hk | hk := isNumeric_iff.mp hk <;>
        obtain ho | ho | ho := isNumeric_iff.mp hoperand <;>
          simp [hk, ho, hpointer, TKind.member, Member.holds]
    · rw [member_of_indirect hpointer]
      obtain hk | hk | hk := isNumeric_iff.mp hk <;>
        obtain ho | ho | ho := isNumeric_iff.mp hoperand <;>
          simp [hk, ho, hpointer, TKind.member, Member.holds]

theorem nodeSound_type (h : (AstNode.type a n).Built) :
    (AstNode.type a n).NodeSound sign ↔ (AstNode.type a n).OperandsFit sign := by
  have hwritten : ∀ m, (if a.indirect ≠ 0 ∨ a.typeKind.isNumeric then some a.member else none) =
      some m → (AstNode.type a n).attrs.member.holds sign m := by
    intro m hm
    split at hm
    · cases hm
      exact holds_self
    · cases hm
  rw [nodeSound_plain rfl fun _ => rfl, AstNode.reads, sound_single, named_castOperand]
  exact (and_iff_right hwritten).trans (castMember_iff h)

/-- **One node**: what is read and written for it are the right members exactly if its
operands suit it. -/
theorem nodeSound_iff (h : n.Built) : n.NodeSound sign ↔ n.OperandsFit sign := by
  have hleaf {m : AstNode} (hreads : m.reads = []) : ∀ r ∈ m.reads, r.Sound sign := by
    rw [hreads]
    exact List.forall_mem_nil _
  cases n with
  | int a v =>
      have hk : ¬ a.typeKind = .signed := by
        rw [h.2]
        decide
      have hwritten : ∀ flags, (AstNode.int a v).written flags = some .unsigned :=
        fun _ => if_neg hk
      rw [nodeSound_plain rfl hwritten, forall_some, AstNode.attrs, h.member_eq]
      exact iff_of_true ⟨rfl, hleaf rfl⟩ trivial
  | float a v =>
      rw [nodeSound_plain rfl fun _ => rfl, forall_some, AstNode.attrs, h.member_eq]
      exact iff_of_true ⟨rfl, hleaf rfl⟩ trivial
  | string a v =>
      rw [nodeSound_plain rfl fun _ => rfl, forall_some, AstNode.attrs, member_of_indirect h]
      exact iff_of_true ⟨rfl, hleaf rfl⟩ trivial
  | var a name id =>
      rw [nodeSound_lvalue rfl fun _ => rfl]
      exact iff_of_true (hleaf rfl) trivial
  | field a object member start =>
      rw [nodeSound_lvalue rfl fun _ => rfl, AstNode.reads, sound_single]
      exact holds_named_addr
  | item a object member =>
      obtain ⟨hobject, hinteger⟩ := h
      have hplace : (object.named (if object.indirect ≠ 0 then .noFlags else .addr)).holds sign
          .unsigned := by
        by_cases hdirect : object.indirect = 0
        · rw [if_neg (not_not_intro hdirect), holds_named_addr]
          refine .inr (holds_unsigned_iff.mp ?_)
          have hk : object.attrs.typeKind = .array := hobject.resolve_left (not_not_intro hdirect)
          rw [member_of_direct hdirect, hk]
          rfl
        · rw [if_pos hdirect, named_noFlags, member_of_indirect hdirect]
          rfl
      rw [nodeSound_lvalue rfl fun _ => rfl, AstNode.reads, List.forall_mem_cons, sound_single,
        named_noFlags]
      exact (and_iff_right hplace).trans holds_unsigned_iff
  | unaryOp a op left => exact nodeSound_unaryOp h
  | binaryOp a op left right => exact nodeSound_binary.trans (binary_members_iff h)
  | type a operand => exact nodeSound_type h

theorem evaluateNode_float {env : Env} {step : Nat} {s s₁ s₂ : Status} {v w : NodeValue}
    {f : FloatOps → NodeValue → NodeValue → Eval NodeValue}
    (hfun : dispatch a op left.attrs right.attrs = .float) (hf : floatCases op = some f)
    (hleft : evaluateNode env step left .noFlags s = some (v, s₁)) (h₁ : s₁.error = none)
    (hright : evaluateNode env step right .noFlags s₁ = some (w, s₂)) (h₂ : s₂.error = none) :
    evaluateNode env step (.binaryOp a op left right) flags s = f env.floatOps v w s₂ := by
  rw [evaluateNode, evaluateBinary, hfun]
  change binOp ((floatCases op).map fun f => f env.floatOps) _ _ s = _
  rw [hf, Option.map_some, binOp, bind_eq hleft, check_eq h₁, bind_eq hright, check_eq h₂]

/-- Where the members are the right ones, `double`s are computed with and compared. -/
theorem floatArithmetic_of_operandsFit (h : n.Built) (hfit : n.OperandsFit sign) :
    n.FloatArithmetic := by
  cases n with
  | unaryOp a op left =>
      cases op with
      | neg =>
          intro hfloat
          have hk : left.typeKind = .signed ∨ (sign = false ∧ left.typeKind = .unsigned) := hfit
          rw [hfloat] at hk
          rcases hk with hk | ⟨_, hk⟩ <;> cases hk
      | _ => trivial
  | binaryOp a op left right =>
      rintro ⟨hl, hdirect⟩ ⟨hr, hdirect'⟩ f hf env step flags s v s₁ w s₂ hleft h₁ hright h₂
      have hl' : left.attrs.IsNumber .float := ⟨hdirect, hl⟩
      have hr' : right.attrs.IsNumber .float := ⟨hdirect', hr⟩
      have hlogical : ¬ (op = .and ∨ op = .or) := by
        rintro (rfl | rfl) <;> cases hf
      refine evaluateNode_float ?_ hf hleft h₁ hright h₂
      have hbuilt : BinaryBuilt a op left.attrs right.attrs := h
      have hsuits : BinaryFit sign op left.attrs right.attrs := hfit
      rw [dispatch_same hl' hr' hlogical]
      refine if_pos ?_
      generalize left.attrs = la at hbuilt hsuits hl'
      generalize right.attrs = ra at hbuilt hr'
      cases hbuilt with
      | offset _ hpointer _ => exact absurd hl'.1 hpointer
      | difference hpointer _ _ => exact absurd hl'.1 hpointer
      | arithmetic k hop hk hk' _ ha =>
          cases hk'.2.symm.trans hl'.2
          refine ha.2.trans (if_neg ?_)
          rintro ⟨_, hunsigned⟩
          cases hunsigned
      | modulo hsigned _ _ => cases hsigned.2.symm.trans hl'.2
      | comparison k hop _ hk' _ _ =>
          rw [BinaryFit, if_neg hlogical, if_pos hop] at hsuits
          exact absurd hl'.2 hsuits
      | bitwise k k' hop hk _ hk' _ _ =>
          cases hk'.2.symm.trans hl'.2
          cases hk
      | logical hop _ _ _ => exact absurd hop hlogical
  | _ => trivial

end

/-! ## Whole trees -/

theorem AstNode.every_congr {P Q R : AstNode → Prop} {n : AstNode} (h : n.Every P)
    (hiff : ∀ n, P n → (Q n ↔ R n)) : n.Every Q ↔ n.Every R := by
  induction n with
  | int a v => exact hiff _ h
  | float a v => exact hiff _ h
  | string a v => exact hiff _ h
  | var a name id => exact hiff _ h
  | field a object member start ih => exact and_congr (hiff _ h.1) (ih h.2)
  | item a object member ihobject ihmember =>
      exact and_congr (hiff _ h.1) (and_congr (ihobject h.2.1) (ihmember h.2.2))
  | unaryOp a op left ih => exact and_congr (hiff _ h.1) (ih h.2)
  | binaryOp a op left right ihleft ihright =>
      exact and_congr (hiff _ h.1) (and_congr (ihleft h.2.1) (ihright h.2.2))
  | type a operand ih => exact and_congr (hiff _ h.1) (ih h.2)

theorem AstNode.every_and {P Q : AstNode → Prop} {n : AstNode} :
    (n.Every fun n => P n ∧ Q n) ↔ n.Every P ∧ n.Every Q := by
  induction n with
  | int a v => exact Iff.rfl
  | float a v => exact Iff.rfl
  | string a v => exact Iff.rfl
  | var a name id => exact Iff.rfl
  | field a object member start ih => simp only [AstNode.Every, ih, and_and_and_comm]
  | item a object member ihobject ihmember =>
      simp only [AstNode.Every, ihobject, ihmember, and_and_and_comm]
  | unaryOp a op left ih => simp only [AstNode.Every, ih, and_and_and_comm]
  | binaryOp a op left right ihleft ihright =>
      simp only [AstNode.Every, ihleft, ihright, and_and_and_comm]
  | type a operand ih => simp only [AstNode.Every, ih, and_and_and_comm]

theorem sound_rootRead (sign : Bool) (n : AstNode) : n.rootRead.Sound sign := by
  unfold AstNode.rootRead
  by_cases hnumber : n.indirect = 0 ∧ n.typeKind.isNumeric
  · rw [if_pos hnumber]
    have hn : n.attrs.IsNumber n.typeKind := ⟨hnumber.1, rfl⟩
    unfold Read.Sound
    rw [named_noFlags, hn.member_eq]
    obtain hk | hk | hk := isNumeric_iff.mp hnumber.2 <;> rw [hk] <;> rfl
  · rw [if_neg hnumber]
    by_cases hdirect : n.indirect = 0
    · rw [if_neg (not_not_intro hdirect)]
      have hk : ¬ n.attrs.typeKind.isNumeric := fun hk => hnumber ⟨hdirect, hk⟩
      refine holds_named_addr.mpr (.inr ?_)
      unfold Attrs.isWord
      have hfloat : n.attrs.typeKind ≠ .float := fun h => hk (by rw [h]; rfl)
      have hsigned : n.attrs.typeKind ≠ .signed := fun h => hk (by rw [h]; rfl)
      simp [hfloat, hsigned]
    · rw [if_pos hdirect]
      unfold Read.Sound
      rw [named_noFlags, member_of_indirect hdirect]
      rfl

/-- **The members of `union node_value`**: in an accepted expression every node is written
and read as the member that its type names, and `double`s are computed with, exactly if
all its operators and casts suit their operands. -/
theorem exprParse_members_iff (sign : Bool) {T : Tables} {scope : Nat} {text : List Lexeme}
    {ast : AstNode} (h : ExprParse T scope text ast) :
    ast.MembersSound sign ∧ ast.Every AstNode.FloatArithmetic ↔
      ast.Every (AstNode.OperandsFit sign) := by
  obtain ⟨tokens, e, _, _, hast⟩ := h
  have hbuilt : ast.Every AstNode.Built := built_ast e hast
  rw [AstNode.MembersSound, and_assoc, and_iff_right (sound_rootRead sign ast),
    ← AstNode.every_and]
  refine AstNode.every_congr hbuilt ?_
  intro n hn
  rw [nodeSound_iff hn]
  exact and_iff_left_of_imp (floatArithmetic_of_operandsFit hn)

/-- The text `0.5 + 2`. -/
def sumText : List Lexeme :=
  [.constant (.floating 0x3FE0000000000000), .symbol .plus, .constant (.integer 2)]

def sumAst : AstNode :=
  .binaryOp { typeKind := .float, size := 8 } .add (Constant.floating 0x3FE0000000000000).node
    (castToDouble (Constant.integer 2).node)

theorem exprParse_sumText : ExprParse noTables 0 sumText sumAst := by
  have hadd : Derives .additiveExpression
      [.constant (.floating 0x3FE0000000000000), .symbol .plus, .constant (.integer 2)]
      (.binaryOp .add (.constant (.floating 0x3FE0000000000000)) (.constant (.integer 2))) :=
    Derives.binaryOp .add rfl ((Derives.constant _).ofPrimary _) ((Derives.constant _).ofPrimary _)
  exact ⟨_, _, rfl, hadd.loosen 9 rfl, rfl⟩

theorem exprParse_members_iff_sum :
    ExprParse noTables 0 sumText sumAst ∧ sumAst.MembersSound true ∧
      sumAst.Every AstNode.FloatArithmetic := by
  have hcast : (castToDouble (Constant.integer 2).node).OperandsFit true := by
    change CastFit true { typeKind := .float, size := 8 } (Constant.integer 2).node.attrs
    exact Or.inl rfl
  have hfit : sumAst.Every (AstNode.OperandsFit true) := ⟨trivial, trivial, hcast, trivial⟩
  exact ⟨exprParse_sumText, (exprParse_members_iff true exprParse_sumText).mpr hfit⟩

/-! ### Unary minus of a `double` -/

theorem xor_intMin_of_msb {v : NodeValue} (h : v.msb = false) :
    v ^^^ BitVec.intMin 64 = v + BitVec.intMin 64 := by
  have hand : v &&& BitVec.intMin 64 = 0#64 := by
    refine BitVec.eq_of_getLsbD_eq fun i hi => ?_
    rw [BitVec.getLsbD_and, BitVec.getLsbD_intMin, BitVec.getLsbD_zero]
    by_cases hlast : i + 1 = 64
    · have hi : i = 63 := by omega
      subst hi
      rw [BitVec.msb_eq_getLsbD_last] at h
      rw [h, Bool.false_and]
    · simp [hlast]
  rw [BitVec.add_eq_or_of_and_eq_zero _ _ hand]
  refine BitVec.eq_of_getLsbD_eq fun i hi => ?_
  have hbit := congrArg (fun x => BitVec.getLsbD x i) hand
  simp only [BitVec.getLsbD_and, BitVec.getLsbD_zero] at hbit
  rw [BitVec.getLsbD_xor, BitVec.getLsbD_or]
  cases hv : v.getLsbD i with
  | false => rw [Bool.false_xor, Bool.false_or]
  | true =>
      rw [hv, Bool.true_and] at hbit
      rw [hbit]
      rfl

theorem negate_eq_add (v : NodeValue) : negate v = v + BitVec.intMin 64 := by
  unfold negate
  cases h : v.msb with
  | false => exact xor_intMin_of_msb h
  | true =>
      have hother : (v ^^^ BitVec.intMin 64).msb = false := by
        rw [BitVec.msb_xor, h, BitVec.msb_intMin]
        rfl
      have hv := xor_intMin_of_msb hother
      rw [BitVec.xor_assoc, BitVec.xor_self, BitVec.xor_zero] at hv
      have htwice : BitVec.intMin 64 + BitVec.intMin 64 = 0#64 := by decide
      have hadd := congrArg (· + BitVec.intMin 64) hv
      simp only [BitVec.add_assoc, htwice, BitVec.add_zero] at hadd
      exact hadd.symm

theorem neg_eq_negate_iff {v : NodeValue} :
    -v = negate v ↔ v = 0x4000000000000000#64 ∨ v = 0xC000000000000000#64 := by
  rw [negate_eq_add]
  constructor
  · intro h
    have hnat := congrArg BitVec.toNat h
    rw [BitVec.toNat_neg, BitVec.toNat_add, BitVec.toNat_intMin] at hnat
    have hlt := v.isLt
    simp only [← BitVec.toNat_inj, BitVec.toNat_ofNat]
    omega
  · rintro (rfl | rfl) <;> decide

/-- Unary minus of a `double` is right for 2.0 and for -2.0. -/
theorem evaluateNode_neg_iff {env : Env} {step : Nat} {flags : Flags} {left : AstNode} {a : Attrs}
    {s s' : Status} {v : NodeValue}
    (hleft : evaluateNode env step left .noFlags s = some (v, s')) :
    evaluateNode env step (.unaryOp a .neg left) flags s = some (negate v, s') ↔
      v = 0x4000000000000000#64 ∨ v = 0xC000000000000000#64 := by
  have hrun : evaluateNode env step (.unaryOp a .neg left) flags s = some (-v, s') := by
    rw [evaluateNode, bind_eq hleft]
    rfl
  rw [hrun, Option.some.injEq, Prod.mk.injEq, and_iff_left rfl]
  exact neg_eq_negate_iff

/-- The text `-1.0`. -/
def minusOneText : List Lexeme :=
  [.symbol .minus, .constant (.floating 0x3FF0000000000000)]

def minusOneAst : AstNode :=
  .unaryOp { typeKind := .float, size := 8 } .neg (Constant.floating 0x3FF0000000000000).node

theorem exprParse_minusOneText : ExprParse noTables 0 minusOneText minusOneAst := by
  have hneg : Derives .unaryExpression
      [.symbol .minus, .constant (.floating 0x3FF0000000000000)]
      (.unaryOp .neg (.constant (.floating 0x3FF0000000000000))) :=
    Derives.unaryOp .neg ((Derives.constant _).ofPrimary _)
  exact ⟨_, _, rfl, hneg.loosen 12 rfl, rfl⟩

/-- `-1.0` is accepted, its `double` is read as a signed integer, and -4.0 is shown. -/
theorem minus_one_shown_as_minus_four :
    (¬ ∃ sign, ∀ T scope text ast, ExprParse T scope text ast →
        ast.MembersSound sign ∧ ast.Every AstNode.FloatArithmetic) ∧
      (¬ ∀ T scope text ast, ExprParse T scope text ast → ast.Every AstNode.FloatArithmetic) ∧
      getEvalResult noRecording 1 minusOneAst 1 {} =
        some (some { result := some (.float 0xC010000000000000) }, {}) := by
  have hleft : evaluateNode noRecording 1 (Constant.floating 0x3FF0000000000000).node .noFlags {} =
      some (0x3FF0000000000000, {}) := by rfl
  refine ⟨?_, ?_, by rfl⟩
  · rintro ⟨sign, h⟩
    obtain ⟨⟨_, hsound⟩, _⟩ := h _ _ _ _ exprParse_minusOneText
    have hread := hsound.1.2 ⟨(Constant.floating 0x3FF0000000000000).node, .noFlags, .signed⟩
      List.mem_cons_self
    cases hread
  · intro h
    have harithmetic := (h _ _ _ _ exprParse_minusOneText).1 rfl noRecording 1 .noFlags {} _ _ hleft
    have hvalue := (evaluateNode_neg_iff hleft).mp harithmetic
    exact absurd hvalue (by decide)

end FlightRec.Expressions
