/-
# `FlightRec.Stingray.Strings` — managed strings

stingray/stingray.c: a managed string is a buffer with its size and the length of the
text in it.  The text is copied, appended to and formatted with the functions of C, and
the buffer grows before that if it has to.

A call ends in one of three ways: with a string, with the end of the program, because
memory is not granted (`exited`), or with something that C leaves undefined, such as an
access outside a buffer (`undefined`).
-/
import FlightRec.Lib.CString
import FlightRec.Lib.Printf
import Mathlib.Logic.Function.Basic

namespace FlightRec.Stingray

open CString Printf

/-! ## Strings -/

/-- How a call ends without a result. -/
inductive Stop where
  | exited
  | undefined
  deriving DecidableEq, Repr

abbrev Result := Except Stop

/-- What C leaves undefined ends everything. -/
def defined {α : Type} : Option α → Result α
  | some a => .ok a
  | none => .error .undefined

/-- `struct sr` -/
structure Sr where
  val : Block
  size : Nat
  len : Nat
  deriving DecidableEq, Repr

/-- The managed strings, by the variables that they are in. -/
abbrev Store := Nat → Option Sr

/-- `EXTEND` -/
def extend : Nat := 64

/-- `SIZE_MAX` -/
def sizeMax : Nat := 2 ^ 64 - 1

/-- `PTRDIFF_MAX`: no object is larger. -/
def ptrdiffMax : Nat := 2 ^ 63 - 1

/-- `INT_MAX` -/
def intMax : Nat := 2 ^ 31 - 1

/-- Arithmetic in a `size_t`. -/
def word (n : Nat) : Nat := n % 2 ^ 64

/-- `malloc` and `realloc`; whether memory is granted depends on the system. -/
def allocate (granted : Bool) (size : Nat) : Result Unit :=
  if granted = true ∧ size ≤ ptrdiffMax then .ok () else .error .exited

/-- Memory behind a `char *`, up to the end of the object. -/
structure Native where
  bytes : List UInt8
  bounded : bytes.length ≤ ptrdiffMax
  deriving DecidableEq, Repr

def Native.block (s : Native) : Block := s.bytes.map some

/-- `sr_new` -/
def srNew (granted : Bool) (initval : Native) (initsize : Nat) : Result Sr := do
  let s ← defined (stringAt initval.block)
  let len := s.length
  let initsize := if initsize ≤ len then len + 1 else initsize
  let initsize := if initsize < extend then extend else initsize
  allocate granted initsize
  let val ← defined (write (alloc initsize) 0 (s ++ [0]))
  return ⟨val, initsize, len⟩

/-- `sr_ensure_size` -/
def srEnsureSize (granted : Bool) (str : Sr) (minsize extend : Nat) : Result Sr :=
  if str.size < minsize then do
    let minsize := if minsize < word (str.size + extend) then word (str.size + extend) else minsize
    allocate granted minsize
    return { str with val := realloc str.val minsize, size := minsize }
  else return str

/-- The source of a copy: `STR_NATIVE` or `STR_SR`. -/
inductive Source where
  | native (s : Native)
  | managed (i : Nat)
  deriving DecidableEq, Repr

/-- `src` and `len` -/
def Source.read (st : Store) (max : Nat) : Source → Result (Block × Nat)
  | .native s =>
      if max = sizeMax then do return (s.block, (← defined (stringAt s.block)).length)
      else return (s.block, max)
  | .managed i => do
      let sr ← defined (st i)
      return (sr.val, if max < sr.len then max else sr.len)

/-- `sr_copy`; `strncpy` must not copy a buffer to itself. -/
def srCopy (granted : Bool) (st : Store) (i : Nat) (source : Source) (max : Nat) :
    Result Store := do
  let dest ← defined (st i)
  let (src, len) ← source.read st max
  let dest ← srEnsureSize granted dest (word (len + 1)) extend
  if source = .managed i ∧ len ≠ 0 then throw .undefined
  let val ← defined (write dest.val 0 (← defined (strncpyBytes src len)))
  let val ← defined (store val len 0)
  return Function.update st i (some { dest with val, len })

/-- `sr_cat`; what is appended to itself must not be moved by then. -/
def srCat (granted : Bool) (st : Store) (i : Nat) (source : Source) (max : Nat) :
    Result Store := do
  let dest ← defined (st i)
  let (src, len) ← source.read st max
  let minsize := word (dest.len + len + 1)
  if source = .managed i ∧ dest.size < minsize then throw .undefined
  let dest ← srEnsureSize granted dest minsize extend
  let val ← defined (write dest.val dest.len (← defined (strncpyBytes src len)))
  let len := word (dest.len + len)
  let val ← defined (store val len 0)
  return Function.update st i (some { dest with val, len })

/-! ## `sr_concat` -/

/-- The arguments of `CONCAT`; `char` and `unsigned char`, `char *` and `unsigned char *`,
and `float` and `double` are treated alike. -/
inductive Arg where
  | int (v : BitVec 32)
  | shrt (v : BitVec 16)
  | chr (c : UInt8)
  | uint (v : BitVec 32)
  | ushrt (v : BitVec 16)
  | lng (v : BitVec 64)
  | ulng (v : BitVec 64)
  | llng (v : BitVec 64)
  | ullng (v : BitVec 64)
  | str (s : Native)
  | sr (i : Nat)
  | dbl (bits : BitVec 64)
  deriving DecidableEq, Repr

/-- `SIZE(A)`: the macro `A` as it is spelled by the compiler, with a terminator. -/
def sizeOf (spelling : String) : Nat := spelling.utf8ByteSize + 1

/-- What is added to `len` for an argument. -/
def Arg.reserve (st : Store) : Arg → Result Nat
  | .int _ => return sizeOf "0x7fffffff"
  | .shrt _ => return sizeOf "0x7fff"
  | .chr _ => return 1
  | .uint _ => return sizeOf "(0x7fffffff * 2U + 1U)"
  | .ushrt _ => return sizeOf "(0x7fff * 2 + 1)"
  | .lng _ => return sizeOf "0x7fffffffffffffffL"
  | .ulng _ => return sizeOf "(0x7fffffffffffffffL * 2UL + 1UL)"
  | .llng _ => return sizeOf "0x7fffffffffffffffLL"
  | .ullng _ => return sizeOf "(0x7fffffffffffffffLL * 2ULL + 1ULL)"
  | .str s => do return (← defined (stringAt s.block)).length
  | .sr i => do return (← defined (st i)).len
  | .dbl bits => return (fixed (ieee 11 52 bits.toNat)).length

/-- What is appended to `format` for an argument. -/
def Arg.format : Arg → String
  | .int _ | .shrt _ => "%.0s%d"
  | .chr _ => "%.0s%c"
  | .uint _ | .ushrt _ => "%.0s%u"
  | .lng _ => "%.0s%ld"
  | .ulng _ => "%.0s%lu"
  | .llng _ => "%.0s%lld"
  | .ullng _ => "%.0s%llu"
  | .str _ => "%.0s%s"
  | .sr _ => "%.0s%S"
  | .dbl _ => "%.0s%lf"

/-- A text that is printed, with its length. -/
def counted (text : List UInt8) : List UInt8 × Nat := (text, text.length)

/-- What `vsprintf` prints for an argument, and what it counts; for managed strings this is
`print_sr`. -/
def Arg.print (st : Store) : Arg → Result (List UInt8 × Nat)
  | .int v => return counted (signed v.toInt)
  | .shrt v => return counted (signed v.toInt)
  | .chr c => return counted [c]
  | .uint v => return counted (unsigned v.toNat)
  | .ushrt v => return counted (unsigned v.toNat)
  | .lng v => return counted (signed v.toInt)
  | .ulng v => return counted (unsigned v.toNat)
  | .llng v => return counted (signed v.toInt)
  | .ullng v => return counted (unsigned v.toNat)
  | .str s => do return counted (← defined (stringAt s.block))
  | .sr i => do
      let sr ← defined (st i)
      if sr.len = 0 then return ([], 0)
      else return (← defined (stringAt sr.val), sr.len)
  | .dbl bits => return counted (fixed (ieee 11 52 bits.toNat))

/-- `sr_concat`; `vsprintf` must not print a buffer to itself, and returns -1 if it would
return more than `INT_MAX`. -/
def srConcat (granted : Bool) (st : Store) (i : Nat) (args : List Arg) : Result Store := do
  let dest ← defined (st i)
  let len := word (← args.mapM (Arg.reserve st)).sum
  let dest ← srEnsureSize granted dest (word (dest.len + len + 1)) extend
  if .sr i ∈ args ∧ dest.len ≠ 0 then throw .undefined
  let printed ← args.mapM (Arg.print (Function.update st i (some dest)))
  let count := (printed.map (·.2)).sum
  if intMax < count then
    let val := dest.val.take dest.len ++ alloc (dest.size - dest.len)
    return Function.update st i (some { dest with val, len := word (dest.len + sizeMax) })
  else
    let val ← defined (write dest.val dest.len (printed.flatMap (·.1) ++ [0]))
    return Function.update st i (some { dest with val, len := word (dest.len + count) })

/-! ## Calls -/

/-- A call; `CONCAT` takes at most 15 arguments. -/
inductive Op where
  | new (i : Nat) (initval : Native) (initsize : BitVec 64)
  | copy (i : Nat) (source : Source) (max : BitVec 64)
  | cat (i : Nat) (source : Source) (max : BitVec 64)
  | concat (i : Nat) (args : List Arg) (few : args.length ≤ 15)
  | ensureSize (i : Nat) (minsize extend : BitVec 64)
  deriving DecidableEq, Repr

/-- A call, and whether the system grants memory for it. -/
structure Call where
  op : Op
  granted : Bool
  deriving DecidableEq, Repr

def step (st : Store) (c : Call) : Result Store :=
  match c.op with
  | .new i initval initsize => do
      let sr ← srNew c.granted initval initsize.toNat
      return Function.update st i (some sr)
  | .copy i source max => srCopy c.granted st i source max.toNat
  | .cat i source max => srCat c.granted st i source max.toNat
  | .concat i args _ => srConcat c.granted st i args
  | .ensureSize i minsize extend => do
      let sr ← srEnsureSize c.granted (← defined (st i)) minsize.toNat extend.toNat
      return Function.update st i (some sr)

/-- No managed strings yet. -/
def init : Store := fun _ => none

/-- The calls of a program. -/
def run (st : Store) (calls : List Call) : Result Store := calls.foldlM step st

theorem length_format_le (a : Arg) : a.format.utf8ByteSize ≤ 8 := by
  cases a <;> exact Nat.le_of_ble_eq_true rfl

theorem format_fits {args : List Arg} (few : args.length ≤ 15) :
    (args.map fun a => a.format.utf8ByteSize).sum + 1 ≤ 128 := by
  have hsum : (args.map fun a => a.format.utf8ByteSize).sum ≤ args.length * 8 := by
    induction args with
    | nil => exact Nat.zero_le _
    | cons a args ih =>
        rw [List.length_cons] at few
        have hrest := ih (Nat.le_of_succ_le few)
        have ha := length_format_le a
        rw [List.map_cons, List.sum_cons, List.length_cons]
        omega
  omega

end FlightRec.Stingray
