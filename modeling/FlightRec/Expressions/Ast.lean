/-
# `FlightRec.Expressions.Ast` — the tree between the parser and the evaluator

`struct ast_node` of examine/expressions/expr_internal.h.  What it keeps for every
node (the type of its value) is `Attrs`; the members of its union are the fields of
the constructors, one constructor for each `NODE_TYPE`.

Parser and evaluator know the client's types through a handful of queries; the
parser's are `Tables`.
-/
import Mathlib.Data.List.Basic

namespace FlightRec.Expressions

/-! ## Kinds of types -/

/-- The `TKIND` constants of flightrec.h.  `none` is the 0 of a node that no action
has given a kind, `other` a value that flightrec.h has no name for. -/
inductive TKind where
  | none
  | signed
  | unsigned
  | float
  | pointer
  | struct
  | union
  | array
  | func
  | klass
  | enum
  | alias
  | other (flags : Nat)
  deriving DecidableEq, Repr

/-- `IS_INTEGER`. -/
def TKind.isInteger (k : TKind) : Bool := k = .signed || k = .unsigned

/-- `IS_NUMERIC`. -/
def TKind.isNumeric (k : TKind) : Bool := k = .signed || k = .unsigned || k = .float

/-- The type of a node's value: `indirect` is how many dereferences lead to the
type that the other fields are about. -/
structure Attrs where
  typeOffset : Int := 0
  typeKind : TKind := .none
  size : Nat := 0
  indirect : Int := 0
  deriving DecidableEq, Repr

/-! ## Operators -/

inductive UnaryOp where
  | addr
  | deref
  | neg
  | inv
  | not
  deriving DecidableEq, Repr

inductive BinaryOp where
  | mul
  | div
  | mod
  | add
  | sub
  | bitAnd
  | xor
  | bitOr
  | left
  | right
  | and
  | or
  | lt
  | gt
  | le
  | ge
  | eq
  | neq
  deriving DecidableEq, Repr

/-- The operators between `OP_BIT_MIN` and `OP_BIT_MAX`. -/
def BinaryOp.isBitwise : BinaryOp → Bool
  | .bitAnd | .xor | .bitOr | .left | .right => true
  | _ => false

/-! ## Nodes -/

/-- `struct ast_node`.  Numbers are the 64 bits of the union they are kept in. -/
inductive AstNode where
  | int (attrs : Attrs) (value : BitVec 64)
  | float (attrs : Attrs) (value : BitVec 64)
  | string (attrs : Attrs) (value : String)
  | var (attrs : Attrs) (name : String) (id : Nat)
  | field (attrs : Attrs) (object : AstNode) (member : String) (start : Nat)
  | item (attrs : Attrs) (object member : AstNode)
  | unaryOp (attrs : Attrs) (op : UnaryOp) (left : AstNode)
  | binaryOp (attrs : Attrs) (op : BinaryOp) (left right : AstNode)
  | type (attrs : Attrs) (operand : AstNode)
  deriving DecidableEq, Repr

namespace AstNode

def attrs : AstNode → Attrs
  | .int a _ => a
  | .float a _ => a
  | .string a _ => a
  | .var a _ _ => a
  | .field a _ _ _ => a
  | .item a _ _ => a
  | .unaryOp a _ _ => a
  | .binaryOp a _ _ _ => a
  | .type a _ => a

def typeKind (n : AstNode) : TKind := n.attrs.typeKind

def indirect (n : AstNode) : Int := n.attrs.indirect

def size (n : AstNode) : Nat := n.attrs.size

def typeOffset (n : AstNode) : Int := n.attrs.typeOffset

/-- What a condition on operators and one on casts come to over a whole tree. -/
def All (onBinary : Attrs → BinaryOp → Attrs → Attrs → Prop) (onType : Attrs → Prop) :
    AstNode → Prop
  | .int _ _ | .float _ _ | .string _ _ | .var _ _ _ => True
  | .field _ object _ _ => object.All onBinary onType
  | .item _ object member => object.All onBinary onType ∧ member.All onBinary onType
  | .unaryOp _ _ left => left.All onBinary onType
  | .binaryOp a op left right =>
      onBinary a op left.attrs right.attrs ∧ left.All onBinary onType ∧ right.All onBinary onType
  | .type a operand => onType a ∧ operand.All onBinary onType

end AstNode

/-! ## The client's types -/

/-- What the queries of examine/expressions/expression.c find in the tables of types,
variables and members; `none` where they fail. -/
structure Tables where
  /-- `get_var_details`, with the id of the variable. -/
  varDetails : String → Nat → Option (Nat × Attrs)
  /-- `get_field_details`, with the offset of the field in its struct. -/
  fieldDetails : String → Int → Option (Attrs × Nat)
  /-- `get_base_type_details`. -/
  baseTypeDetails : Int → Option Attrs
  /-- `get_struct_details`: offset, kind and size. -/
  structDetails : String → Option (Int × TKind × Nat)
  /-- `get_type_details`: offset, kind and size. -/
  typeDetails : String → Option (Int × TKind × Nat)

end FlightRec.Expressions
