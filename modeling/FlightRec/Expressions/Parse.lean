/-
# `FlightRec.Expressions.Parse` — the parser of the evaluate request

The rules of examine/expressions/expr.l that look something up, the grammar of
examine/expressions/expr.y, and its actions.

Flex and Bison generate the parser, so what it does with a text is given by the
grammar: `Derives` is a derivation, one constructor for each production (those of
one form are one), and `Expr` what is left of it when parentheses and unit
productions are forgotten, which is all the actions see of it.  An action that
calls `parse_error` makes the whole text rejected, with the first such message.
-/
import FlightRec.Expressions.Ast

namespace FlightRec.Expressions

/-! ## The lexer -/

/-- The type names that the lexer knows. -/
inductive BasicType where
  | float
  | double
  | longDouble
  | unsignedLongLong
  | unsignedLong
  | unsignedShort
  | unsignedChar
  | unsignedInt
  | uint64
  | uint32
  | uint16
  | uint8
  | signedLongLong
  | signedLong
  | signedInt
  | signedShort
  | signedChar
  | int64
  | int32
  | int16
  | int8
  deriving DecidableEq, Repr

/-- `set_basic_type`: built-in types have no row in the table of types. -/
def setBasicType (type : TKind) (code size : Nat) : Attrs :=
  ⟨-1 * ((size * 256 + code : Nat) : Int), type, size, 0⟩

def BasicType.attrs : BasicType → Attrs
  | .float => setBasicType .float 3 4
  | .double => setBasicType .float 3 8
  | .longDouble => setBasicType .float 3 16
  | .unsignedLongLong => setBasicType .unsigned 2 8
  | .unsignedLong => setBasicType .unsigned 2 8
  | .unsignedShort => setBasicType .unsigned 2 2
  | .unsignedChar => setBasicType .unsigned 2 1
  | .unsignedInt => setBasicType .unsigned 2 4
  | .uint64 => setBasicType .unsigned 2 8
  | .uint32 => setBasicType .unsigned 2 4
  | .uint16 => setBasicType .unsigned 2 2
  | .uint8 => setBasicType .unsigned 2 1
  | .signedLongLong => setBasicType .signed 1 8
  | .signedLong => setBasicType .signed 1 8
  | .signedInt => setBasicType .signed 1 4
  | .signedShort => setBasicType .signed 1 2
  | .signedChar => setBasicType .signed 1 1
  | .int64 => setBasicType .signed 1 8
  | .int32 => setBasicType .signed 1 4
  | .int16 => setBasicType .signed 1 2
  | .int8 => setBasicType .signed 1 1

/-- The tokens that carry no node. -/
inductive Symbol where
  | sizeof
  | ptrOp
  | leftOp
  | rightOp
  | leOp
  | geOp
  | eqOp
  | neOp
  | andOp
  | orOp
  | lparen
  | rparen
  | lbracket
  | rbracket
  | dot
  | amp
  | bang
  | tilde
  | minus
  | plus
  | star
  | slash
  | percent
  | lt
  | gt
  | caret
  | bar
  deriving DecidableEq, Repr

/-- A constant, decoded. -/
inductive Constant where
  | integer (value : BitVec 64)
  | floating (value : BitVec 64)
  | null
  | string (value : String)
  deriving DecidableEq, Repr

/-- The node that the lexer makes of a constant. -/
def Constant.node : Constant → AstNode
  | .integer v => .int ⟨0, .unsigned, 8, 0⟩ v
  | .floating v => .float ⟨0, .float, 8, 0⟩ v
  | .null => .int ⟨0, .unsigned, 1, 0⟩ 0
  | .string s => .string ⟨0, .signed, 1, 1⟩ s

/-- What the patterns of the lexer match. -/
inductive Lexeme where
  | symbol (s : Symbol)
  | void
  | basicType (t : BasicType)
  | structOrUnion (name : String)
  | constant (c : Constant)
  | word (name : String)
  deriving DecidableEq, Repr

inductive Token where
  | symbol (s : Symbol)
  | void
  | type (attrs : Attrs)
  | constant (c : Constant)
  | identifier (name : String)
  deriving DecidableEq, Repr

/-- `find_struct_or_union`. -/
def findStructOrUnion (T : Tables) (name : String) : Except String Token :=
  match T.structDetails name with
  | some (offset, kind, size) => .ok (.type ⟨offset, kind, size, 0⟩)
  | none => .error "Invalid struct/union name"

/-- `find_var_or_type`: C has to be told apart here, a type name comes first. -/
def findVarOrType (T : Tables) (name : String) : Token :=
  match T.typeDetails name with
  | some (offset, kind, size) => .type ⟨offset, kind, size, 0⟩
  | none => .identifier name

def yylex (T : Tables) : Lexeme → Except String Token
  | .symbol s => .ok (.symbol s)
  | .void => .ok .void
  | .basicType t => .ok (.type t.attrs)
  | .structOrUnion name => findStructOrUnion T name
  | .constant c => .ok (.constant c)
  | .word name => .ok (findVarOrType T name)

/-! ## The grammar -/

/-- A derivation without its parentheses and unit productions; types are resolved. -/
inductive Expr where
  | identifier (name : String)
  | constant (c : Constant)
  | item (object index : Expr)
  | field (object : Expr) (name : String)
  | arrow (object : Expr) (name : String)
  | plus (operand : Expr)
  | unaryOp (op : UnaryOp) (operand : Expr)
  | sizeofExpr (operand : Expr)
  | sizeofType (type : Attrs)
  | cast (type : Attrs) (operand : Expr)
  | binaryOp (op : BinaryOp) (left right : Expr)
  deriving DecidableEq, Repr

inductive Nonterminal where
  | primaryExpression
  | postfixExpression
  | unaryExpression
  | castExpression
  | multiplicativeExpression
  | additiveExpression
  | shiftExpression
  | relationalExpression
  | equalityExpression
  | andExpression
  | exclusiveOrExpression
  | inclusiveOrExpression
  | logicalAndExpression
  | logicalOrExpression
  | expression
  deriving DecidableEq, Repr

/-- The right side of the unit production of a nonterminal. -/
def Nonterminal.unit : Nonterminal → Option Nonterminal
  | .primaryExpression => none
  | .postfixExpression => some .primaryExpression
  | .unaryExpression => some .postfixExpression
  | .castExpression => some .unaryExpression
  | .multiplicativeExpression => some .castExpression
  | .additiveExpression => some .multiplicativeExpression
  | .shiftExpression => some .additiveExpression
  | .relationalExpression => some .shiftExpression
  | .equalityExpression => some .relationalExpression
  | .andExpression => some .equalityExpression
  | .exclusiveOrExpression => some .andExpression
  | .inclusiveOrExpression => some .exclusiveOrExpression
  | .logicalAndExpression => some .inclusiveOrExpression
  | .logicalOrExpression => some .logicalAndExpression
  | .expression => some .logicalOrExpression

def UnaryOp.symbol : UnaryOp → Symbol
  | .addr => .amp
  | .deref => .star
  | .neg => .minus
  | .inv => .tilde
  | .not => .bang

def BinaryOp.symbol : BinaryOp → Symbol
  | .mul => .star
  | .div => .slash
  | .mod => .percent
  | .add => .plus
  | .sub => .minus
  | .bitAnd => .amp
  | .xor => .caret
  | .bitOr => .bar
  | .left => .leftOp
  | .right => .rightOp
  | .and => .andOp
  | .or => .orOp
  | .lt => .lt
  | .gt => .gt
  | .le => .leOp
  | .ge => .geOp
  | .eq => .eqOp
  | .neq => .neOp

/-- The nonterminal that has a production for the operator. -/
def BinaryOp.nonterminal : BinaryOp → Nonterminal
  | .mul | .div | .mod => .multiplicativeExpression
  | .add | .sub => .additiveExpression
  | .left | .right => .shiftExpression
  | .lt | .gt | .le | .ge => .relationalExpression
  | .eq | .neq => .equalityExpression
  | .bitAnd => .andExpression
  | .xor => .exclusiveOrExpression
  | .bitOr => .inclusiveOrExpression
  | .and => .logicalAndExpression
  | .or => .logicalOrExpression

/-- `type`, with its action. -/
inductive DerivesType : List Token → Attrs → Prop where
  | void : DerivesType [.void] {}
  | type (a : Attrs) : DerivesType [.type a] a
  | pointer {ts : List Token} {a : Attrs} : DerivesType ts a →
      DerivesType (ts ++ [.symbol .star]) { a with indirect := a.indirect + 1 }

inductive Derives : Nonterminal → List Token → Expr → Prop where
  | unit {n m : Nonterminal} {ts : List Token} {e : Expr} : n.unit = some m →
      Derives m ts e → Derives n ts e
  | identifier (name : String) : Derives .primaryExpression [.identifier name] (.identifier name)
  | constant (c : Constant) : Derives .primaryExpression [.constant c] (.constant c)
  | paren {ts : List Token} {e : Expr} : Derives .expression ts e →
      Derives .primaryExpression (.symbol .lparen :: ts ++ [.symbol .rparen]) e
  | item {ts us : List Token} {object index : Expr} : Derives .postfixExpression ts object →
      Derives .expression us index →
      Derives .postfixExpression (ts ++ .symbol .lbracket :: us ++ [.symbol .rbracket])
        (.item object index)
  | field {ts : List Token} {object : Expr} (name : String) : Derives .postfixExpression ts object →
      Derives .postfixExpression (ts ++ [.symbol .dot, .identifier name]) (.field object name)
  | arrow {ts : List Token} {object : Expr} (name : String) : Derives .postfixExpression ts object →
      Derives .postfixExpression (ts ++ [.symbol .ptrOp, .identifier name]) (.arrow object name)
  | plus {ts : List Token} {e : Expr} : Derives .castExpression ts e →
      Derives .unaryExpression (.symbol .plus :: ts) (.plus e)
  | unaryOp {ts : List Token} {e : Expr} (op : UnaryOp) : Derives .castExpression ts e →
      Derives .unaryExpression (.symbol op.symbol :: ts) (.unaryOp op e)
  | sizeofExpr {ts : List Token} {e : Expr} : Derives .unaryExpression ts e →
      Derives .unaryExpression (.symbol .sizeof :: ts) (.sizeofExpr e)
  | sizeofType {ts : List Token} {a : Attrs} : DerivesType ts a →
      Derives .unaryExpression (.symbol .sizeof :: .symbol .lparen :: ts ++ [.symbol .rparen])
        (.sizeofType a)
  | cast {ts us : List Token} {a : Attrs} {e : Expr} : DerivesType ts a →
      Derives .castExpression us e →
      Derives .castExpression (.symbol .lparen :: ts ++ .symbol .rparen :: us) (.cast a e)
  | binaryOp {m : Nonterminal} {ts us : List Token} {left right : Expr} (op : BinaryOp) :
      op.nonterminal.unit = some m → Derives op.nonterminal ts left → Derives m us right →
      Derives op.nonterminal (ts ++ .symbol op.symbol :: us) (.binaryOp op left right)

/-! ### A text of one token -/

theorem Derives.ne_nil {n : Nonterminal} {ts : List Token} {e : Expr} (h : Derives n ts e) :
    ts ≠ [] := by
  induction h with
  | unit _ _ ih => exact ih
  | binaryOp op _ _ _ ihleft _ => exact List.append_ne_nil_of_left_ne_nil ihleft _
  | _ => simp

theorem Derives.of_single {n : Nonterminal} {tok : Token} {e : Expr} (h : Derives n [tok] e) :
    (∃ name, tok = .identifier name ∧ e = .identifier name) ∨
      ∃ c, tok = .constant c ∧ e = .constant c := by
  generalize hts : [tok] = ts at h
  have hlen : ts.length = 1 := hts ▸ rfl
  induction h with
  | unit _ _ ih => exact ih hts hlen
  | identifier name =>
      cases hts
      exact .inl ⟨name, rfl, rfl⟩
  | constant c =>
      cases hts
      exact .inr ⟨c, rfl, rfl⟩
  | plus h => exact absurd (List.length_eq_zero_iff.mp (Nat.succ.inj hlen)) h.ne_nil
  | unaryOp op h => exact absurd (List.length_eq_zero_iff.mp (Nat.succ.inj hlen)) h.ne_nil
  | sizeofExpr h => exact absurd (List.length_eq_zero_iff.mp (Nat.succ.inj hlen)) h.ne_nil
  | binaryOp op _ hleft =>
      have hpos := List.length_pos_of_ne_nil hleft.ne_nil
      simp only [List.length_append, List.length_cons] at hlen
      omega
  | _ =>
      simp only [List.length_append, List.length_cons, List.length_nil] at hlen
      omega

/-! ### Looser places -/

/-- How many unit productions lead from a nonterminal to a primary expression. -/
def Nonterminal.rank : Nonterminal → Nat
  | .primaryExpression => 0
  | .postfixExpression => 1
  | .unaryExpression => 2
  | .castExpression => 3
  | .multiplicativeExpression => 4
  | .additiveExpression => 5
  | .shiftExpression => 6
  | .relationalExpression => 7
  | .equalityExpression => 8
  | .andExpression => 9
  | .exclusiveOrExpression => 10
  | .inclusiveOrExpression => 11
  | .logicalAndExpression => 12
  | .logicalOrExpression => 13
  | .expression => 14

theorem Nonterminal.rank_injective {m n : Nonterminal} (h : m.rank = n.rank) : m = n := by
  cases m <;> cases n <;> first | rfl | cases h

theorem Nonterminal.unit_of_rank {n : Nonterminal} {k : Nat} (h : n.rank = k + 1) :
    ∃ m, n.unit = some m ∧ m.rank = k := by
  cases n <;> first | cases h; exact ⟨_, rfl, rfl⟩ | cases h

theorem Derives.loosen {m : Nonterminal} {ts : List Token} {e : Expr} (h : Derives m ts e) :
    ∀ (k : Nat) {n : Nonterminal}, n.rank = m.rank + k → Derives n ts e
  | 0, _, hk => Nonterminal.rank_injective hk ▸ h
  | k + 1, _, hk => by
      obtain ⟨n', hunit, hrank⟩ := Nonterminal.unit_of_rank hk
      exact .unit hunit (loosen h k hrank)

theorem Derives.ofPrimary {ts : List Token} {e : Expr} (h : Derives .primaryExpression ts e)
    (n : Nonterminal) : Derives n ts e :=
  h.loosen n.rank (Nat.zero_add _).symm

theorem Derives.inParens {m : Nonterminal} {ts : List Token} {e : Expr} (h : Derives m ts e)
    (n : Nonterminal) : Derives n (.symbol .lparen :: ts ++ [.symbol .rparen]) e := by
  have hexpression : Derives .expression ts e :=
    h.loosen (Nonterminal.expression.rank - m.rank) (by cases m <;> rfl)
  exact (Derives.paren hexpression).ofPrimary n

/-! ## The actions -/

def castToDouble (n : AstNode) : AstNode := .type { typeKind := .float, size := 8 } n

def castToSigned (n : AstNode) : AstNode := .type { typeKind := .signed, size := 8 } n

/-- `promote_operands_to_double`. -/
def promoteOperandsToDouble (left right : AstNode) : AstNode × AstNode :=
  if left.typeKind ≠ .float then (castToDouble left, right)
  else if right.typeKind ≠ .float then (left, castToDouble right)
  else (left, right)

/-- `promote_operands_to_signed`. -/
def promoteOperandsToSigned (left right : AstNode) : AstNode × AstNode :=
  if left.typeKind ≠ .signed then (castToSigned left, right)
  else if right.typeKind ≠ .signed then (left, castToSigned right)
  else (left, right)

/-- `binary_op`. -/
def binaryOp (left right : AstNode) (op : BinaryOp) : AstNode :=
  if left.typeKind = .float ∨ right.typeKind = .float then
    let operands := promoteOperandsToDouble left right
    .binaryOp { typeKind := .float, size := 8 } op operands.1 operands.2
  else if left.typeKind = .signed ∨ right.typeKind = .signed then
    let operands := promoteOperandsToSigned left right
    .binaryOp { typeKind := .signed, size := 8 } op operands.1 operands.2
  else
    -- subtraction may result in negative value even for unsigned values
    .binaryOp { typeKind := if op = .sub then .signed else .unsigned, size := 8 } op left right

/-- The check that the actions on numbers make. -/
def bothNumeric (left right : AstNode) : Bool :=
  left.typeKind.isNumeric && right.typeKind.isNumeric && left.indirect = 0 && right.indirect = 0

def bothInteger (left right : AstNode) : Bool :=
  left.typeKind.isInteger && right.typeKind.isInteger && left.indirect = 0 && right.indirect = 0

def identifierAction (T : Tables) (scope : Nat) (name : String) : Except String AstNode :=
  match T.varDetails name scope with
  | some (id, a) => .ok (.var a name id)
  | none => .error ("Unknown variable '" ++ name ++ "'")

/-- `postfix_expression '[' expression ']'`. -/
def subscriptAction (T : Tables) (object member : AstNode) : Except String AstNode :=
  if object.indirect = 0 ∧ object.typeKind ≠ .array then .error "Object is non-subscriptable"
  else if !member.typeKind.isInteger then .error "Array/pointer subscript isn't countable"
  else if object.typeKind = .array then
    match T.baseTypeDetails object.typeOffset with
    | some a => .ok (.item a object member)
    | none => .error "Cannot find array/pointer base type"
  else .ok (.item { object.attrs with indirect := object.indirect - 1 } object member)

/-- `postfix_expression '.' IDENTIFIER`. -/
def fieldAction (T : Tables) (object : AstNode) (name : String) : Except String AstNode :=
  match T.fieldDetails name object.typeOffset with
  | some (a, start) => .ok (.field a object name start)
  | none => .error ("Cannot find field '" ++ name ++ "' in struct/union")

/-- `postfix_expression PTR_OP IDENTIFIER`: a field of the dereferenced pointer. -/
def arrowAction (T : Tables) (object : AstNode) (name : String) : Except String AstNode :=
  if object.indirect = 0 then .error "Cannot dereference non-pointer"
  else if object.indirect > 1 then .error "Not enough dereferences"
  else fieldAction T (.unaryOp { object.attrs with indirect := 0 } .deref object) name

def isLvalue : AstNode → Bool
  | .var .. | .field .. | .item .. => true
  | _ => false

/-- The actions of the unary operators. -/
def unaryAction (op : UnaryOp) (operand : AstNode) : Except String AstNode :=
  match op with
  | .addr =>
      if !isLvalue operand then .error "Cannot take an address on non-lvalue"
      else .ok (.unaryOp { operand.attrs with indirect := operand.indirect + 1 } .addr operand)
  | .deref =>
      if operand.indirect = 0 then .error "Cannot dereference non-pointer"
      else .ok (.unaryOp { operand.attrs with indirect := operand.indirect - 1 } .deref operand)
  | .neg =>
      if !operand.typeKind.isNumeric || operand.indirect ≠ 0 then
        .error "Cannot apply unary minus to non-number"
      else if operand.typeKind = .float then
        .ok (.unaryOp { typeKind := .float, size := 8 } .neg operand)
      else .ok (.unaryOp { typeKind := .signed, size := 8 } .neg operand)
  | .inv =>
      if !operand.typeKind.isInteger || operand.indirect ≠ 0 then .error "Cannot invert non-number"
      else .ok (.unaryOp { typeKind := .unsigned, size := 8 } .inv operand)
  | .not =>
      if !operand.typeKind.isInteger && operand.indirect = 0 then
        .error "Cannot negate non-number/non-pointer"
      else .ok (.unaryOp { typeKind := .unsigned, size := 8 } .not operand)

/-- `SIZEOF`: the value is known when the text is parsed. -/
def sizeofAction (size : Nat) : AstNode :=
  .int { typeKind := .unsigned, size := 8 } (BitVec.ofNat 64 size)

/-- `'(' type ')' cast_expression`. -/
def castAction (type : Attrs) (operand : AstNode) : Except String AstNode :=
  if (type.indirect ≠ 0 ∧ operand.indirect ≠ 0) ∨
      (type.indirect ≠ 0 ∧ operand.typeKind = .array) ∨
      (type.indirect ≠ 0 ∧ operand.typeKind.isNumeric) ∨
      (operand.indirect ≠ 0 ∧ type.typeKind.isInteger ∧ type.size = 8) ∨
      (type.typeKind.isNumeric ∧ operand.typeKind.isNumeric) then
    .ok (.type type operand)
  else .error "Unsupported types for cast"

/-- The actions of `'*'` and `'/'`. -/
def multiplicativeAction (op : BinaryOp) (msg : String) (left right : AstNode) :
    Except String AstNode :=
  if !bothNumeric left right then .error msg else .ok (binaryOp left right op)

/-- An operand that is cast if it is unsigned. -/
def modOperand (n : AstNode) : AstNode :=
  if n.typeKind = .unsigned then castToSigned n else n

/-- The action of `'%'`. -/
def moduloAction (left right : AstNode) : Except String AstNode :=
  if !bothInteger left right then .error "Cannot perform modulo on non-integers"
  else .ok (.binaryOp { typeKind := .signed, size := 8 } .mod (modOperand left) (modOperand right))

/-- The integer that is added to a pointer or taken from it. -/
def pointerOffset (n : AstNode) : AstNode := if n.typeKind ≠ .signed then castToSigned n else n

/-- The action of `'+'`. -/
def additionAction (left right : AstNode) : Except String AstNode :=
  if left.indirect ≠ 0 then
    if right.indirect ≠ 0 ∨ !right.typeKind.isInteger then
      .error "Second operand for pointer addition must be integer"
    else .ok (.binaryOp left.attrs .add left (pointerOffset right))
  else if !left.typeKind.isNumeric || !right.typeKind.isNumeric || right.indirect ≠ 0 then
    .error "Cannot perform addition on non-numbers"
  else .ok (binaryOp left right .add)

/-- The action of `'-'`. -/
def subtractionAction (left right : AstNode) : Except String AstNode :=
  if left.indirect ≠ 0 then
    if right.indirect ≠ 0 then
      if left.indirect ≠ right.indirect ∨ left.size ≠ right.size then
        .error "Pointer subtraction operands must be of the matching types"
      else .ok (.binaryOp { typeKind := .signed, size := 8 } .sub left right)
    else if right.typeKind.isInteger then
      .ok (.binaryOp left.attrs .sub left (pointerOffset right))
    else .error "Second operand for pointer subtraction must be pointer or integer"
  else if !left.typeKind.isNumeric || !right.typeKind.isNumeric || right.indirect ≠ 0 then
    .error "Cannot perform subtraction on non-numbers"
  else .ok (binaryOp left right .sub)

/-- The actions of the shifts and of `'&'`, `'^'` and `'|'`: the operands stay as they are. -/
def bitwiseAction (op : BinaryOp) (msg : String) (left right : AstNode) : Except String AstNode :=
  if !bothInteger left right then .error msg
  else .ok (.binaryOp { typeKind := .unsigned, size := 8 } op left right)

/-- The actions of the comparisons. -/
def comparisonAction (op : BinaryOp) (left right : AstNode) : Except String AstNode :=
  if !bothNumeric left right then .error "Cannot perform comparison of non-numbers"
  else
    let operands :=
      if left.typeKind = .float ∨ right.typeKind = .float then promoteOperandsToDouble left right
      else if left.typeKind = .signed ∨ right.typeKind = .signed then
        promoteOperandsToSigned left right
      else (left, right)
    .ok (.binaryOp { typeKind := .unsigned, size := 8 } op operands.1 operands.2)

/-- The actions of `AND_OP` and `OR_OP`. -/
def logicalAction (op : BinaryOp) (left right : AstNode) : Except String AstNode :=
  if (!left.typeKind.isNumeric && left.indirect = 0) ||
      (!right.typeKind.isNumeric && right.indirect = 0) then
    .error "Cannot perform logical operation of non-numbers/non-pointers"
  else .ok (.binaryOp { typeKind := .unsigned, size := 8 } op left right)

/-- The action of a binary operator. -/
def binaryAction : BinaryOp → AstNode → AstNode → Except String AstNode
  | .mul => multiplicativeAction .mul "Cannot perform multiplication on non-numbers"
  | .div => multiplicativeAction .div "Cannot perform division on non-numbers"
  | .mod => moduloAction
  | .add => additionAction
  | .sub => subtractionAction
  | .left => bitwiseAction .left "Cannot perform shift on non-integers"
  | .right => bitwiseAction .right "Cannot perform shift on non-integers"
  | .bitAnd => bitwiseAction .bitAnd "Cannot perform bitwise logical op of non-numbers"
  | .xor => bitwiseAction .xor "Cannot perform bitwise logical op of non-numbers"
  | .bitOr => bitwiseAction .bitOr "Cannot perform bitwise logical op of non-numbers"
  | .lt => comparisonAction .lt
  | .gt => comparisonAction .gt
  | .le => comparisonAction .le
  | .ge => comparisonAction .ge
  | .eq => comparisonAction .eq
  | .neq => comparisonAction .neq
  | .and => logicalAction .and
  | .or => logicalAction .or

/-- The node that the actions build for a derivation, operands first. -/
def Expr.ast (T : Tables) (scope : Nat) : Expr → Except String AstNode
  | .identifier name => identifierAction T scope name
  | .constant c => .ok c.node
  | .item object index => do
      let object ← object.ast T scope
      let index ← index.ast T scope
      subscriptAction T object index
  | .field object name => do fieldAction T (← object.ast T scope) name
  | .arrow object name => do arrowAction T (← object.ast T scope) name
  | .plus operand => operand.ast T scope
  | .unaryOp op operand => do unaryAction op (← operand.ast T scope)
  | .sizeofExpr operand => do return sizeofAction (← operand.ast T scope).size
  | .sizeofType type => .ok (sizeofAction type.size)
  | .cast type operand => do castAction type (← operand.ast T scope)
  | .binaryOp op left right => do
      let left ← left.ast T scope
      let right ← right.ast T scope
      binaryAction op left right

/-- `expr_parse` accepts a text and returns a tree. -/
def ExprParse (T : Tables) (scope : Nat) (text : List Lexeme) (ast : AstNode) : Prop :=
  ∃ tokens e, text.mapM (yylex T) = .ok tokens ∧ Derives .expression tokens e ∧
    e.ast T scope = .ok ast

end FlightRec.Expressions
