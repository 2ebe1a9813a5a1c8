/-
# `FlightRec.Expressions.Evaluate` — the value of a tree at a step

`evaluate_node` of examine/expressions/expression.c and what it calls, up to
`get_eval_result`, which answers the evaluate request.

Values are the 64 bits of `union node_value`: a member that is written and another
that is read are two readings of the same bits.  `*error` is a state, because not
every caller looks at it before it goes on.  An integer division that the processor
refuses ends the debugger (`crash`).

What double arithmetic does to bits is a parameter, as are the queries and the DWARF
lookups (`Env`).
-/
import FlightRec.Examine.Value
import FlightRec.Expressions.Ast

namespace FlightRec.Expressions

/-! ## Values and what they are found from -/

/-- `union node_value`. -/
abbrev NodeValue := BitVec 64

/-- A C truth value. -/
def ofBool (b : Bool) : NodeValue := if b then 1 else 0

/-- Arithmetic, comparisons and conversions of `double`, on its bits. -/
structure FloatOps where
  mul : NodeValue → NodeValue → NodeValue
  div : NodeValue → NodeValue → NodeValue
  add : NodeValue → NodeValue → NodeValue
  sub : NodeValue → NodeValue → NodeValue
  lt : NodeValue → NodeValue → Bool
  le : NodeValue → NodeValue → Bool
  eq : NodeValue → NodeValue → Bool
  ofUnsigned : NodeValue → NodeValue
  ofSigned : NodeValue → NodeValue
  toUnsigned : NodeValue → NodeValue
  toSigned : NodeValue → NodeValue
  ofFloat : BitVec 32 → NodeValue
  ofLongDouble : BitVec 128 → NodeValue

/-- What `get_pointer_size` returns. -/
inductive PointerSize where
  | size (bytes : NodeValue)
  | released
  | notFound
  | failure
  deriving DecidableEq, Repr

/-- Where the evaluator looks things up.  `mem` is the table of that name, if it can be
read, and `heap` what the heap of the debugger holds behind the buffer of a variable;
`dim` and `underKind` are what stands in locals that nothing is stored to. -/
structure Env where
  floatOps : FloatOps
  mem : Option (List MemMsg)
  heap : Nat → UInt8
  curStep : Nat
  /-- `get_var_address`: variable id and step. -/
  varAddress : Nat → Nat → Option NodeValue
  pointerSize : NodeValue → PointerSize
  /-- `get_type_size`: size and dimension. -/
  typeSize : Int → Option (NodeValue × NodeValue)
  /-- `type_details`: dimension, and the kind of the parent type or else the size. -/
  typeDetails : Int → Option (NodeValue × Nat)
  typeName : Int → Int → String
  /-- `get_var_ref` for an expression: its id, address, type and indirections. -/
  varRef : Nat → NodeValue → Int → Int → Option Nat
  /-- Where the decoded string of a literal lies. -/
  literal : String → NodeValue
  dim : NodeValue
  underKind : Nat

/-! ## Errors -/

/-- `*error`; whether "Internal error" was logged, and whether a value was shifted by its
size or more, which C leaves undefined and the processor does modulo 64. -/
structure Status where
  error : Option String := none
  internal : Bool := false
  overshift : Bool := false
  deriving DecidableEq, Repr

abbrev Eval := StateT Status Option

def fail (msg : String) : Eval NodeValue := do
  modify fun s => { s with error := some msg }
  return 0

/-- Where the source says "should never get here". -/
def internalError : Eval NodeValue := do
  modify fun s => { s with error := some "internal error", internal := true }
  return 0

/-- The division by zero trap. -/
def crash {α : Type} : Eval α := fun _ => none

def failed : Eval Bool := do return (← get).error.isSome

/-- `if (*error) return 0` before what follows. -/
def check (next : Eval NodeValue) : Eval NodeValue := do
  if ← failed then return 0 else next

/-! ## Binary operators -/

/-- Signed division traps on the one quotient that does not fit as well. -/
def signedDivision (f : NodeValue → NodeValue → NodeValue) (a b : NodeValue) : Eval NodeValue :=
  if b = 0 ∨ (a = BitVec.intMin 64 ∧ b = -1) then crash else return f a b

def unsignedDivision (f : NodeValue → NodeValue → NodeValue) (a b : NodeValue) : Eval NodeValue :=
  if b = 0 then crash else return f a b

def shift (f : NodeValue → Nat → NodeValue) (a b : NodeValue) : Eval NodeValue := do
  if 64 ≤ b.toNat then modify fun s => { s with overshift := true }
  return f a (b.toNat % 64)

/-- The cases of the switch in `float_bin_op`. -/
def floatCases : BinaryOp → Option (FloatOps → NodeValue → NodeValue → Eval NodeValue)
  | .mul => some fun F a b => return F.mul a b
  | .div => some fun F a b => return F.div a b
  | .add => some fun F a b => return F.add a b
  | .sub => some fun F a b => return F.sub a b
  | .lt => some fun F a b => return ofBool (F.lt a b)
  | .gt => some fun F a b => return ofBool (F.lt b a)
  | .le => some fun F a b => return ofBool (F.le a b)
  | .ge => some fun F a b => return ofBool (F.le b a)
  | .eq => some fun F a b => return ofBool (F.eq a b)
  | .neq => some fun F a b => return ofBool (!F.eq a b)
  | _ => none

/-- The cases of the switch in `signed_bin_op`. -/
def signedCases : BinaryOp → Option (NodeValue → NodeValue → Eval NodeValue)
  | .mul => some fun a b => return a * b
  | .div => some (signedDivision BitVec.sdiv)
  | .add => some fun a b => return a + b
  | .sub => some fun a b => return a - b
  | .mod => some (signedDivision BitVec.srem)
  | .lt => some fun a b => return ofBool (BitVec.slt a b)
  | .gt => some fun a b => return ofBool (BitVec.slt b a)
  | .le => some fun a b => return ofBool (BitVec.sle a b)
  | .ge => some fun a b => return ofBool (BitVec.sle b a)
  | .eq => some fun a b => return ofBool (a == b)
  | .neq => some fun a b => return ofBool (a != b)
  | _ => none

/-- The cases of the switch in `unsigned_bin_op`. -/
def unsignedCases : BinaryOp → Option (NodeValue → NodeValue → Eval NodeValue)
  | .mul => some fun a b => return a * b
  | .div => some (unsignedDivision BitVec.udiv)
  | .add => some fun a b => return a + b
  | .sub => some fun a b => return a - b
  | .lt => some fun a b => return ofBool (BitVec.ult a b)
  | .gt => some fun a b => return ofBool (BitVec.ult b a)
  | .le => some fun a b => return ofBool (BitVec.ule a b)
  | .ge => some fun a b => return ofBool (BitVec.ule b a)
  | .eq => some fun a b => return ofBool (a == b)
  | .neq => some fun a b => return ofBool (a != b)
  | .bitAnd => some fun a b => return a &&& b
  | .bitOr => some fun a b => return a ||| b
  | .xor => some fun a b => return a ^^^ b
  | .left => some (shift BitVec.shiftLeft)
  | .right => some (shift BitVec.ushiftRight)
  | _ => none

/-- What the three functions do around their switches. -/
def binOp (case : Option (NodeValue → NodeValue → Eval NodeValue)) (left right : Eval NodeValue) :
    Eval NodeValue := do
  let operand1 ← left
  check do
    let operand2 ← right
    check (match case with
      | some f => f operand1 operand2
      | none => internalError)

def floatBinOp (F : FloatOps) (op : BinaryOp) : Eval NodeValue → Eval NodeValue → Eval NodeValue :=
  binOp ((floatCases op).map fun f => f F)

def signedBinOp (op : BinaryOp) : Eval NodeValue → Eval NodeValue → Eval NodeValue :=
  binOp (signedCases op)

def unsignedBinOp (op : BinaryOp) : Eval NodeValue → Eval NodeValue → Eval NodeValue :=
  binOp (unsignedCases op)

/-- The guard is meant to reject what the parser does not build. -/
def pointerOp (op : BinaryOp) (la ra : Attrs) (left right : Eval NodeValue) : Eval NodeValue :=
  if ¬ (op = .add ∧ ra.typeKind = .signed) ∧
      (op = .sub ∧ (ra.typeKind = .signed ∨ ra.indirect ≠ 0)) then
    fail "Invalid operator or second operand type for pointer math"
  else do
    let size := BitVec.ofNat 64 la.size
    let left ← left
    check (
      if ra.typeKind = .signed then do
        let offset ← right
        check (return if op = .add then left + offset * size else left - offset * size)
      else do
        let right ← right
        check (
          let diff := left - right
          if size = 0 then crash
          else if diff % size ≠ 0 then fail "Pointer difference isn't divisible by pointer size"
          else return diff / size))

/-- Whether an operand of `&&` or `||` is not zero. -/
def truth (F : FloatOps) (a : Attrs) (v : NodeValue) : Bool :=
  if a.typeKind = .float then !F.eq 0 v else v != 0

/-- `&&` and `||`: the right operand is evaluated if the left one does not decide. -/
def logicalOp (F : FloatOps) (op : BinaryOp) (la ra : Attrs) (left right : Eval NodeValue) :
    Eval NodeValue := do
  let left := truth F la (← left)
  check (
    if op = .and ∧ left = false then return 0
    else if op = .or ∧ left = true then return 1
    else do
      let right := truth F ra (← right)
      check (return ofBool right))

/-- Who evaluates a binary operator. -/
inductive BinaryFun where
  | pointer
  | logical
  | float
  | signed
  | unsigned
  deriving DecidableEq, Repr

/-- The order in which `evaluate_node` asks. -/
def dispatch (a : Attrs) (op : BinaryOp) (la ra : Attrs) : BinaryFun :=
  if la.indirect ≠ 0 then .pointer
  else if op = .and ∨ op = .or then .logical
  else if a.typeKind = .float then .float
  else if la.typeKind = .signed ∨ ra.typeKind = .signed then .signed
  else .unsigned

def evaluateBinary (F : FloatOps) (a : Attrs) (op : BinaryOp) (la ra : Attrs)
    (left right : Eval NodeValue) : Eval NodeValue :=
  match dispatch a op la ra with
  | .pointer => pointerOp op la ra left right
  | .logical => logicalOp F op la ra left right
  | .float => floatBinOp F op left right
  | .signed => signedBinOp op left right
  | .unsigned => unsignedBinOp op left right

/-! ## Casts -/

/-- The value of a cast node, from that of its operand. -/
def castValue (F : FloatOps) (a operand : Attrs) (value : NodeValue) : Eval NodeValue :=
  if a.indirect ≠ 0 then return value
  else match a.typeKind with
    | .unsigned =>
        if operand.indirect ≠ 0 then return value
        else if operand.typeKind = .float then return F.toUnsigned value
        else return value
    | .signed =>
        if operand.indirect ≠ 0 then return value
        else if operand.typeKind = .float then return F.toSigned value
        else return value
    | .float =>
        if operand.typeKind = .unsigned then return F.ofUnsigned value
        else if operand.typeKind = .signed then return F.ofSigned value
        else return value
    | _ => internalError

/-! ## Variables -/

/-- The first bytes of a buffer as a number, the lowest first. -/
def load (buffer : Nat → UInt8) (size : Nat) : Nat :=
  (List.range size).foldr (fun i acc => (buffer i).toNat + 256 * acc) 0

/-- A value that has been read; `var_value` forgets it if there is an error by now. -/
def loaded (v : NodeValue) : Eval NodeValue := check (return v)

/-- `var_value`. -/
def varValue (env : Env) (a : Attrs) (addr : NodeValue) (step : Nat) : Eval NodeValue :=
  match env.mem with
  | none => fail "Cannot get variable value"
  | some mem =>
      let value := getVarValue mem addr.toNat a.size step
      let buffer := fun i => value.getD i (env.heap i)
      if a.indirect ≠ 0 then return BitVec.ofNat 64 (load buffer 8)
      else match a.typeKind with
        | .signed =>
            if a.size = 1 ∨ a.size = 2 ∨ a.size = 4 ∨ a.size = 8 then
              loaded ((BitVec.ofNat (8 * a.size) (load buffer a.size)).signExtend 64)
            else fail "Unsupported size for signed type"
        | .unsigned =>
            if a.size = 1 ∨ a.size = 2 ∨ a.size = 4 ∨ a.size = 8 then
              loaded (BitVec.ofNat 64 (load buffer a.size))
            else fail "Unsupported size for unsigned type"
        | .float =>
            if a.size = 4 then loaded (env.floatOps.ofFloat (BitVec.ofNat 32 (load buffer 4)))
            else if a.size = 8 then loaded (BitVec.ofNat 64 (load buffer 8))
            else if a.size = 16 then
              loaded (env.floatOps.ofLongDouble (BitVec.ofNat 128 (load buffer 16)))
            else fail "Unsupported size for float type"
        | _ => fail "Unsupported type for variable"

/-! ## `evaluate_node` -/

/-- Whether a node is asked for its value or for its address. -/
inductive Flags where
  | noFlags
  | addr
  deriving DecidableEq, Repr

/-- What is at an address, or the address if the parent node needs only that. -/
def lvalue (env : Env) (a : Attrs) (addr : NodeValue) (step : Nat) (flags : Flags) :
    Eval NodeValue :=
  if flags = .addr then return addr else varValue env a addr step

/-- The check of a subscript; it sets `*error`, and the evaluation goes on. -/
def itemBounds (env : Env) (object : Attrs) (addr index : NodeValue) : Eval NodeValue :=
  match env.typeSize object.typeOffset with
  | none => fail "Error getting array size"
  | some (size, dim) =>
      if dim = 0 ∨ object.indirect ≠ 0 then
        match env.pointerSize addr with
        | .size bytes =>
            if bytes = 0 then return 0
            else if size = 0 then crash
            else if bytes / size ≤ index then fail "Pointer access out of bounds"
            else return 0
        | .released => fail "Memory has been already released"
        | _ => return 0
      else if dim ≤ index then fail "Array access out of bounds"
      else return 0

/-- The kinds of which a cast takes the address. -/
def isAggregate (k : TKind) : Bool := k = .array || k = .struct || k = .union

def evaluateNode (env : Env) (step : Nat) : AstNode → Flags → Eval NodeValue
  | .int _ value, _ => return value
  | .float _ value, _ => return value
  | .string _ value, _ => return env.literal value
  | .var a _ id, flags =>
      match env.varAddress id step with
      | none => fail "Cannot get variable address"
      | some addr => lvalue env a addr step flags
  | .field a object _ start, flags => do
      let addr ← evaluateNode env step object .addr
      check (lvalue env a (addr + BitVec.ofNat 64 start) step flags)
  | .item a object member, flags => do
      let addr ← evaluateNode env step object (if object.indirect ≠ 0 then .noFlags else .addr)
      check do
        let index ← evaluateNode env step member .noFlags
        let _ ← itemBounds env object.attrs addr index
        lvalue env a (addr + index * BitVec.ofNat 64 a.size) step flags
  | .unaryOp _ .addr left, _ => evaluateNode env step left .addr
  | .unaryOp a .deref left, flags => do
      let addr ← evaluateNode env step left .noFlags
      lvalue env a addr step flags
  | .unaryOp _ .neg left, _ => do return -(← evaluateNode env step left .noFlags)
  | .unaryOp _ .inv left, _ => do return ~~~(← evaluateNode env step left .noFlags)
  | .unaryOp _ .not left, _ => do return ofBool ((← evaluateNode env step left .noFlags) == 0)
  | .binaryOp a op left right, _ =>
      evaluateBinary env.floatOps a op left.attrs right.attrs
        (evaluateNode env step left .noFlags) (evaluateNode env step right .noFlags)
  | .type a operand, _ => do
      let value ← evaluateNode env step operand
        (if isAggregate operand.typeKind then .addr else .noFlags)
      check (castValue env.floatOps a operand.attrs value)

/-! ## `get_eval_result` -/

/-- The text of a result, before it is formatted. -/
inductive Printed where
  | signed (value : Int) (char : Option UInt8)
  | unsigned (value : Nat) (char : Option UInt8)
  | float (bits : NodeValue)
  | typeName (name : String)
  | null
  | pointer (typeName : String) (addr : NodeValue) (note : String)
  | string (addr : NodeValue) (bytes : List UInt8) (terminated : Bool)
  deriving DecidableEq, Repr

/-- The fields of the response; a field that is added twice has the last value. -/
structure EvalResult where
  result : Option Printed := none
  variablesReference : Option Nat := none
  namedVariables : Option NodeValue := none
  indexedVariables : Option NodeValue := none
  deriving DecidableEq, Repr

/-- The character that is shown with a number of one byte. -/
def charOf (a : Attrs) (v : NodeValue) : Option UInt8 :=
  if a.size = 1 then some (UInt8.ofNat v.toNat) else none

/-- The kinds from `TKIND_BASIC_MIN` to `TKIND_BASIC_MAX`. -/
def printBasic (a : Attrs) (v : NodeValue) : Option Printed :=
  match a.typeKind with
  | .signed => some (.signed v.toInt (charOf a v))
  | .unsigned => some (.unsigned v.toNat (charOf a v))
  | .float => some (.float v)
  | _ => none

/-- What pointers and arrays have in common: `char` is shown as a string, for anything
else a reference is made.  The kind `underKind` is compared as a number. -/
def evalItems (env : Env) (id : Nat) (a : Attrs) (addr dim pointerSize : NodeValue)
    (underKind : Nat) (value : Printed) : Option EvalResult :=
  if a.size = 1 ∧ (underKind = 1 ∨ underKind = 2) then
    let dim := if pointerSize = 0 then 32 else dim.toNat
    match env.mem with
    | none => none
    | some mem =>
        let bytes := (getVarValue mem addr.toNat dim env.curStep).take dim
        let text := bytes.takeWhile (· ≠ 0)
        some ⟨some (.string addr text (text.length < dim)), some 0, none, none⟩
  else match env.varRef id addr a.typeOffset a.indirect with
    | none => none
    | some ref =>
        some { result := some value, variablesReference := some ref, indexedVariables := some dim }

/-- What is shown for a pointer that is not `NULL`.  A failed lookup leaves the inner of
two variables `ret` with the failure, and the function succeeds. -/
def evalPointer (env : Env) (id : Nat) (a : Attrs) (addr : NodeValue) (underKind : Nat) :
    Eval (Option EvalResult) :=
  let shown := Printed.pointer (env.typeName a.typeOffset a.indirect) addr
  match env.pointerSize addr with
  | .released => return some { result := some (shown "dangling"), variablesReference := some 0 }
  | .notFound => return some { result := some (shown "invalid"), variablesReference := some 0 }
  | .failure => return some {}
  | .size bytes =>
      if bytes = 0 then return evalItems env id a addr 1 bytes underKind (shown "")
      else if a.size = 0 then crash
      else
        return evalItems env id a addr (bytes / BitVec.ofNat 64 a.size) bytes underKind (shown "")

/-- `get_eval_result`; `none` is `FAILURE`. -/
def getEvalResult (env : Env) (id : Nat) (ast : AstNode) (step : Nat) :
    Eval (Option EvalResult) :=
  let evaluate := evaluateNode env step ast
  let details := if ast.typeOffset = 0 then some (env.dim, env.underKind)
    else env.typeDetails ast.typeOffset
  if ast.indirect = 0 ∧ ast.typeKind.isNumeric then do
    let res ← evaluate .noFlags
    if ← failed then return none
    return some { result := printBasic ast.attrs res }
  else match details with
    | none => do
        let _ ← fail "Cannot get type details"
        return none
    | some (dim, underKind) =>
        if ast.indirect = 0 ∧ ast.typeKind = .struct then do
          let addr ← evaluate .addr
          if ← failed then return none
          match env.varRef id addr ast.typeOffset 0 with
          | none => return none
          | some ref =>
              return some ⟨some (.typeName (env.typeName ast.typeOffset ast.indirect)), some ref,
                some dim, none⟩
        else if ast.indirect ≠ 0 then do
          let addr ← evaluate .noFlags
          if ← failed then return none
          if addr = 0 then return some { result := some .null }
          evalPointer env id ast.attrs addr underKind
        else do
          let addr ← evaluate .addr
          if ← failed then return none
          return evalItems env id ast.attrs addr dim 0 underKind
            (.typeName (env.typeName ast.typeOffset ast.indirect))

end FlightRec.Expressions
