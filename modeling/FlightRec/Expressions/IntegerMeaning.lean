/-
# `FlightRec.Expressions.IntegerMeaning` — what integer expressions mean

A specification of the operators on integers, over the integers of mathematics, and the
proof that the parser and the evaluator meet it.

    operands   are taken to one type: signed if one of them is, or for `%`   (`operandSign`)
    operator   is applied to integers, if it is defined for them             (`arith`)
    result     is left in a type of 64 bits                                  (`resultSign`)

How an integer is left in a type is a parameter.  With `wrapped`, which takes it modulo
`2 ^ 64`, the meaning is what the evaluator calculates, and it has a value exactly if the
evaluator has one; with `fitting`, which demands that it fits, nothing is lost on the way,
so the value shown is that of the expression read as mathematics (`integers_evaluate`).
-/
import FlightRec.Examine.Agreement
import FlightRec.Expressions.Traps
import FlightRec.Lib.Integers

namespace FlightRec.Expressions

open Hoare Integers

/-! ## The specification -/

/-- Operators on integers, over expressions of any form that have integer values. -/
inductive IntExpr where
  | atom (e : Expr)
  | plus (operand : IntExpr)
  | neg (operand : IntExpr)
  | inv (operand : IntExpr)
  | not (operand : IntExpr)
  | cast (type : { a : Attrs // a.IsIntegerType }) (operand : IntExpr)
  | binaryOp (op : BinaryOp) (left right : IntExpr)

/-- The expression as it is written. -/
def IntExpr.expr : IntExpr → Expr
  | .atom e => e
  | .plus operand => .plus operand.expr
  | .neg operand => .unaryOp .neg operand.expr
  | .inv operand => .unaryOp .inv operand.expr
  | .not operand => .unaryOp .not operand.expr
  | .cast type operand => .cast type.1 operand.expr
  | .binaryOp op left right => .binaryOp op left.expr right.expr

def IntExpr.atoms : IntExpr → List Expr
  | .atom e => [e]
  | .plus operand | .neg operand | .inv operand | .not operand | .cast _ operand => operand.atoms
  | .binaryOp _ left right => left.atoms ++ right.atoms

/-- The type and the value of an atom. -/
structure Atom where
  sign : Sign
  value : NodeValue

def kindOf : Sign → TKind
  | .signed => .signed
  | .unsigned => .unsigned

def Attrs.sign (a : Attrs) : Sign := if a.typeKind = .signed then .signed else .unsigned

def commonSign (left right : Sign) : Sign :=
  if left = .signed ∨ right = .signed then .signed else .unsigned

/-- The type that both operands are taken to. -/
def operandSign (op : BinaryOp) (left right : Sign) : Sign :=
  if op = .mod then .signed else commonSign left right

def resultSign (op : BinaryOp) (left right : Sign) : Sign :=
  match op with
  | .mul | .div | .add => commonSign left right
  | .sub | .mod => .signed
  | _ => .unsigned

def IntExpr.sign (A : Expr → Atom) : IntExpr → Sign
  | .atom e => (A e).sign
  | .plus operand => operand.sign A
  | .neg _ => .signed
  | .inv _ | .not _ => .unsigned
  | .cast type _ => type.1.sign
  | .binaryOp op left right => resultSign op (left.sign A) (right.sign A)

/-- The quotient that the processor refuses. -/
def Traps (s : Sign) (x y : Int) : Prop := y = 0 ∨ (s = .signed ∧ x = -2 ^ 63 ∧ y = -1)

instance (s : Sign) (x y : Int) : Decidable (Traps s x y) := inferInstanceAs (Decidable (_ ∨ _))

/-- A C truth value as an integer. -/
def truthOf (p : Prop) [Decidable p] : Int := if p then 1 else 0

/-- An operator on integers of one type.  The operators on bits are defined for unsigned
numbers only. -/
def arith (op : BinaryOp) (s : Sign) (x y : Int) : Option Int :=
  match op with
  | .mul => some (x * y)
  | .add => some (x + y)
  | .sub => some (x - y)
  | .div => if Traps s x y then none else some (x.tdiv y)
  | .mod => if Traps s x y then none else some (x.tmod y)
  | .lt => some (truthOf (x < y))
  | .gt => some (truthOf (y < x))
  | .le => some (truthOf (x ≤ y))
  | .ge => some (truthOf (y ≤ x))
  | .eq => some (truthOf (x = y))
  | .neq => some (truthOf (x ≠ y))
  | .bitAnd => if s = .signed then none else some (x.toNat &&& y.toNat : Nat)
  | .bitOr => if s = .signed then none else some (x.toNat ||| y.toNat : Nat)
  | .xor => if s = .signed then none else some (x.toNat ^^^ y.toNat : Nat)
  | .left => if s = .signed ∨ 64 ≤ y then none else some (x * (2 ^ y.toNat : Nat))
  | .right => if s = .signed ∨ 64 ≤ y then none else some (x.toNat / 2 ^ y.toNat : Nat)
  | .and | .or => none

/-- How an integer is left in a type of so many bits. -/
abbrev Rounding := Sign → Nat → Int → Option Int

/-- Modulo `2 ^ 64`, in any type. -/
def wrapped : Rounding := fun s _ x => some (s.wrap 64 x)

/-- Only where nothing is lost. -/
def fitting : Rounding := fun s w x => if s.Fits w x then some x else none

/-- An operator, from the values of its operands; `&&` and `||` need not ask for the second. -/
def binaryMeaning (round : Rounding) (op : BinaryOp) (left right : Sign) (x y : Option Int) :
    Option Int :=
  if op = .and then do
    if (← x) = 0 then return 0 else return truthOf ((← y) ≠ 0)
  else if op = .or then do
    if (← x) ≠ 0 then return 1 else return truthOf ((← y) ≠ 0)
  else do
    let x ← round (operandSign op left right) 64 (← x)
    let y ← round (operandSign op left right) 64 (← y)
    round (resultSign op left right) 64 (← arith op (operandSign op left right) x y)

/-- The value of an expression, if it has one. -/
def IntExpr.meaning (A : Expr → Atom) (round : Rounding) : IntExpr → Option Int
  | .atom e => some ((A e).sign.value (A e).value)
  | .plus operand => operand.meaning A round
  | .neg operand => do round .signed 64 (-(← operand.meaning A round))
  | .inv operand => do return Sign.unsigned.wrap 64 (-(← operand.meaning A round) - 1)
  | .not operand => do return truthOf ((← operand.meaning A round) = 0)
  | .cast type operand => do round type.1.sign type.1.bits (← operand.meaning A round)
  | .binaryOp op left right =>
      binaryMeaning round op (left.sign A) (right.sign A) (left.meaning A round)
        (right.meaning A round)

/-! ## Operators -/

theorem bad_allowsFail : AllowsFail fun s => ¬ s.Clean := fun _ _ _ h => nomatch h.error

theorem bad_allowsInternal : AllowsInternal fun s => ¬ s.Clean := fun _ _ h => nomatch h.error

theorem bad_allowsShift : AllowsShift fun s => ¬ s.Clean := fun _ _ h => nomatch h.overshift

section
variable {s : Sign} {v w : NodeValue} {x : Eval NodeValue} {r : Option NodeValue} {z : Int}

theorem gives_check (h : Gives Status.Clean x r) : Gives Status.Clean (check x) r := by
  intro st hst
  have hrun := h st hst
  rw [check_eq hst.error]
  exact hrun

theorem gives_internalError : Gives Status.Clean internalError none := by
  intro st _ v st' hrun hst'
  cases hrun
  cases hst'.error

theorem gives_ofInt (h : v = BitVec.ofInt 64 z) :
    Gives Status.Clean (pure v : Eval NodeValue) ((some z).map (BitVec.ofInt 64)) := by
  rw [Option.map_some, ← h]
  exact gives_pure v

theorem ofBool_eq_ofInt (p : Prop) [Decidable p] :
    ofBool (decide p) = BitVec.ofInt 64 (truthOf p) := by
  unfold ofBool truthOf
  by_cases h : p
  · rw [decide_eq_true h, if_pos h]
    rfl
  · rw [decide_eq_false h, if_neg h]
    rfl

theorem value_inj : s.value v = s.value w ↔ v = w :=
  ⟨fun h => s.value_injective h, fun h => h ▸ rfl⟩

theorem traps_signed :
    Traps .signed (Sign.signed.value v) (Sign.signed.value w) ↔
      w = 0 ∨ (v = BitVec.intMin 64 ∧ w = -1) := by
  have hmin : (-2 ^ 63 : Int) = Sign.signed.value (BitVec.intMin 64) := by decide
  have hone : (-1 : Int) = Sign.signed.value (-1 : BitVec 64) := by decide
  rw [Traps, Sign.value_eq_zero, hmin, hone, value_inj, value_inj]
  simp only [true_and]

theorem traps_unsigned :
    Traps .unsigned (Sign.unsigned.value v) (Sign.unsigned.value w) ↔ w = 0 := by
  rw [Traps, Sign.value_eq_zero]
  simp only [reduceCtorEq, false_and, or_false]

theorem gives_crash {c d : Prop} [Decidable c] [Decidable d] (hcd : c ↔ d)
    (h : v = BitVec.ofInt 64 z) :
    Gives Status.Clean (if c then crash else return v : Eval NodeValue)
      ((if d then none else some z).map (BitVec.ofInt 64)) := by
  by_cases hc : c
  · rw [if_pos hc, if_pos (hcd.mp hc)]
    exact gives_none
  · rw [if_neg hc, if_neg fun hd => hc (hcd.mpr hd)]
    exact gives_ofInt h

theorem gives_shift {f : NodeValue → Nat → NodeValue}
    (h : w.toNat < 64 → f v w.toNat = BitVec.ofInt 64 z) :
    Gives Status.Clean (shift f v w)
      ((if Sign.unsigned = .signed ∨ 64 ≤ (w.toNat : Int) then none else some z).map
        (BitVec.ofInt 64)) := by
  by_cases hw : 64 ≤ w.toNat
  · rw [if_pos (.inr (Int.ofNat_le.mpr hw)), shift, if_pos hw]
    intro st _ v' st' hrun hst'
    cases hrun
    cases hst'.overshift
  · have hlt : w.toNat < 64 := by omega
    have hdefined : ¬ (Sign.unsigned = .signed ∨ 64 ≤ (w.toNat : Int)) :=
      not_or.mpr ⟨by decide, by omega⟩
    rw [if_neg hdefined, shift, if_neg hw, Nat.mod_eq_of_lt hlt, Option.map_some, ← h hlt]
    exact fun st _ => rfl

/-- The function for operands of a type. -/
def casesFor (s : Sign) : BinaryOp → Option (NodeValue → NodeValue → Eval NodeValue) :=
  match s with
  | .signed => signedCases
  | .unsigned => unsignedCases

theorem keeps_casesFor {P : Status → Prop} (hP : AllowsShift P) (hP' : AllowsInternal P)
    {op : BinaryOp} (v w : NodeValue) :
    Keeps P (match casesFor s op with
      | some f => f v w
      | none => internalError) := by
  split
  next f hf =>
    cases s with
    | signed => exact keeps_signedCases hf v w
    | unsigned => exact keeps_unsignedCases hP hf v w
  next => exact keeps_internalError hP'

theorem gives_casesFor {op : BinaryOp} (hop : ¬ (op = .and ∨ op = .or))
    (hmod : op = .mod → s = .signed) :
    Gives Status.Clean (match casesFor s op with
      | some f => f v w
      | none => internalError)
      ((arith op s (s.value v) (s.value w)).map (BitVec.ofInt 64)) := by
  have htruth {b : Bool} {p : Prop} [Decidable p] (h : b = decide p) :
      Gives Status.Clean (return ofBool b : Eval NodeValue)
        ((some (truthOf p)).map (BitVec.ofInt 64)) :=
    gives_ofInt (h ▸ ofBool_eq_ofInt p)
  have heq : (v == w) = decide (s.value v = s.value w) := by
    rw [beq_eq_decide]
    exact decide_eq_decide.mpr value_inj.symm
  have hne : (v != w) = decide (s.value v ≠ s.value w) := by
    rw [bne, heq]
    exact (decide_not ..).symm
  have hmul : v * w = BitVec.ofInt 64 (s.value v * s.value w) := by
    rw [BitVec.ofInt_mul, s.ofInt_value, s.ofInt_value]
  have hadd : v + w = BitVec.ofInt 64 (s.value v + s.value w) := by
    rw [BitVec.ofInt_add, s.ofInt_value, s.ofInt_value]
  have hsub : v - w = BitVec.ofInt 64 (s.value v - s.value w) := by
    rw [ofInt_sub, s.ofInt_value, s.ofInt_value]
  cases s with
  | signed =>
      cases op with
      | and | or => simp at hop
      | mul => exact gives_ofInt hmul
      | add => exact gives_ofInt hadd
      | sub => exact gives_ofInt hsub
      | div => exact gives_crash traps_signed.symm (sdiv_eq_ofInt v w)
      | mod => exact gives_crash traps_signed.symm (srem_eq_ofInt v w)
      | lt => exact htruth BitVec.slt_eq_decide
      | gt => exact htruth BitVec.slt_eq_decide
      | le => exact htruth BitVec.sle_eq_decide
      | ge => exact htruth BitVec.sle_eq_decide
      | eq => exact htruth heq
      | neq => exact htruth hne
      | _ => exact gives_internalError
  | unsigned =>
      cases op with
      | and | or => simp at hop
      | mod => cases hmod rfl
      | mul => exact gives_ofInt hmul
      | add => exact gives_ofInt hadd
      | sub => exact gives_ofInt hsub
      | div => exact gives_crash traps_unsigned.symm (udiv_eq_ofInt v w)
      | lt => exact htruth (by simp [BitVec.ult_eq_decide, Sign.value])
      | gt => exact htruth (by simp [BitVec.ult_eq_decide, Sign.value])
      | le => exact htruth (by simp [BitVec.ule_eq_decide, Sign.value])
      | ge => exact htruth (by simp [BitVec.ule_eq_decide, Sign.value])
      | eq => exact htruth heq
      | neq => exact htruth hne
      | bitAnd => exact gives_ofInt (and_eq_ofInt v w)
      | bitOr => exact gives_ofInt (or_eq_ofInt v w)
      | xor => exact gives_ofInt (xor_eq_ofInt v w)
      | left => exact gives_shift fun _ => shiftLeft_eq_ofInt v _
      | right => exact gives_shift fun _ => ushiftRight_eq_ofInt v _

end

/-! ## Nodes -/

/-- The node has the type, and its evaluation the value, if there is one. -/
structure HasMeaning (env : Env) (step : Nat) (n : AstNode) (s : Sign) (r : Option Int) : Prop where
  direct : n.indirect = 0
  kind : n.typeKind = kindOf s
  fits : ∀ x, r = some x → s.Fits 64 x
  gives : Gives Status.Clean (evaluateNode env step n .noFlags) (r.map (BitVec.ofInt 64))

section
variable {T : Tables} {scope : Nat} {env : Env} {step : Nat} {op : BinaryOp}
  {left right m n l r : AstNode} {s s' : Sign} {x y : Option Int}

theorem kindOf_isInteger (s : Sign) : (kindOf s).isInteger = true := by cases s <;> rfl

theorem kindOf_isNumeric (s : Sign) : (kindOf s).isNumeric = true := by cases s <;> rfl

theorem kindOf_ne_float (s : Sign) : kindOf s ≠ .float := by cases s <;> nofun

theorem kindOf_signed : kindOf s = .signed ↔ s = .signed := by cases s <;> simp [kindOf]

theorem keeps_bad (n : AstNode) (flags : Flags) :
    Keeps (fun s => ¬ s.Clean) (evaluateNode env step n flags) :=
  keeps_evaluateNode bad_allowsFail bad_allowsShift (.inl bad_allowsInternal) flags

theorem Attrs.IsIntegerType.typeKind_eq {a : Attrs} (h : a.IsIntegerType) :
    a.typeKind = kindOf a.sign := by
  unfold Attrs.sign
  obtain hk | hk := isInteger_iff.mp h.2.1 <;> rw [hk] <;> rfl

theorem HasMeaning.isOffset (h : HasMeaning env step n s x) : n.isOffset :=
  ⟨h.direct, h.kind ▸ kindOf_isInteger s⟩

theorem isTruth_of_kind (h : n.typeKind = kindOf s) : n.attrs.IsTruth := by
  have hnumeric : n.typeKind.isNumeric = true := h ▸ kindOf_isNumeric s
  exact .inl hnumeric

theorem wrapped_fits {z z' : Int} {w : Nat} (h : wrapped s w z = some z') : s.Fits 64 z' := by
  cases h
  exact s.fits_wrap z

theorem HasMeaning.gives_cast (h : HasMeaning env step n s x) {a : Attrs} (ha : a.IsIntegerType) :
    Gives Status.Clean (evaluateNode env step (.type a n) .noFlags)
      (x.map (BitVec.ofInt 64)) := by
  have hkind : n.typeKind ≠ .float := h.kind ▸ kindOf_ne_float s
  have hflags : operandFlags n = .noFlags := by
    rw [operandFlags, isAggregate, h.kind]
    cases s <;> rfl
  have hrun := h.gives.bind (fun v _ => gives_check (gives_pure v)) fun v =>
    keeps_check (keeps_pure v)
  rw [evaluateNode_integer_cast ha (.inr hkind), hflags]
  rwa [Option.bind_fun_some] at hrun

theorem Promoted.gives (hp : Promoted m n) (h : HasMeaning env step m s x) :
    Gives Status.Clean (evaluateNode env step n .noFlags) (x.map (BitVec.ofInt 64)) := by
  obtain rfl | rfl := hp
  · exact h.gives
  · exact h.gives_cast ⟨rfl, rfl, .inr (.inr (.inr rfl))⟩

/-! ### Binary operators -/

theorem gives_binOp {v w : Eval NodeValue} {o p : Option NodeValue}
    (hv : Gives Status.Clean v o) (hw : Gives Status.Clean w p)
    (hkeep : Keeps (fun s => ¬ s.Clean) w) (hop : ¬ (op = .and ∨ op = .or))
    (hmod : op = .mod → s = .signed) :
    Gives Status.Clean (binOp (casesFor s op) v w) (o.bind fun a => p.bind fun b =>
      (arith op s (s.value a) (s.value b)).map (BitVec.ofInt 64)) := by
  have hrest (a b : NodeValue) := keeps_check
    (@keeps_casesFor s _ bad_allowsShift bad_allowsInternal op a b)
  refine hv.bind (fun a _ => gives_check (hw.bind (fun b _ => gives_check ?_) (hrest a)))
    fun a => keeps_check (keeps_bind hkeep (hrest a))
  exact gives_casesFor hop hmod

/-- The function that evaluates such a node is that of the common type of its operands. -/
theorem IntegerNode.evaluateNode_eq {a : Attrs} (h : IntegerNode op left right n a l r)
    (hleft : left.isOffset) (hkind : left.typeKind = kindOf s) (hkind' : right.typeKind = kindOf s')
    (hop : ¬ (op = .and ∨ op = .or)) (flags : Flags) :
    evaluateNode env step n flags = binOp (casesFor (operandSign op s s') op)
      (evaluateNode env step l .noFlags) (evaluateNode env step r .noFlags) := by
  have hdirect : l.attrs.indirect = 0 := h.promotedLeft.indirect hleft
  have hsigned := h.signed
  rw [hkind, hkind', kindOf_signed, kindOf_signed] at hsigned
  have hfun : dispatch a op l.attrs r.attrs =
      if operandSign op s s' = .signed then .signed else .unsigned := by
    unfold dispatch operandSign commonSign
    rw [if_neg (not_not_intro hdirect), if_neg hop, if_neg h.kind]
    refine ite_congr (propext (hsigned.trans ?_)) (fun _ => rfl) fun _ => rfl
    by_cases hmod : op = .mod <;> by_cases hs : s = .signed ∨ s' = .signed <;> simp [hmod, hs]
  rw [h.node, evaluateNode, evaluateBinary, hfun]
  cases operandSign op s s' <;> rfl

theorem truth_ofInt (F : FloatOps) {a : Attrs} (ha : a.typeKind = kindOf s) {z : Int}
    (hz : s.Fits 64 z) : truth F a (BitVec.ofInt 64 z) = decide (z ≠ 0) := by
  have hzero : BitVec.ofInt 64 z = 0 ↔ z = 0 := by
    rw [← Sign.value_eq_zero, s.value_ofInt (by decide) hz]
  rw [truth, if_neg (ha ▸ kindOf_ne_float s), bne, beq_eq_decide, ← decide_not]
  exact decide_eq_decide.mpr (not_congr hzero)

theorem gives_logicalOp (hleft : HasMeaning env step left s x)
    (hright : HasMeaning env step right s' y) (hop : op = .and ∨ op = .or) :
    Gives Status.Clean (logicalOp env.floatOps op left.attrs right.attrs
        (evaluateNode env step left .noFlags) (evaluateNode env step right .noFlags))
      ((binaryMeaning wrapped op s s' x y).map (BitVec.ofInt 64)) := by
  have hsecond := hright.gives.bind
    (fun w _ => gives_check (gives_pure (ofBool (truth env.floatOps right.attrs w))))
    fun w => keeps_check (keeps_pure _)
  have hboth := hleft.gives.bind
    (fun v _ => gives_check (gives_ite (c := op = .and ∧ truth env.floatOps left.attrs v = false)
      (fun _ => gives_pure 0) fun _ =>
        gives_ite (c := op = .or ∧ truth env.floatOps left.attrs v = true)
          (fun _ => gives_pure 1) fun _ => hsecond))
    fun v => keeps_check (keeps_ite (fun _ => keeps_pure _) fun _ => keeps_ite
      (fun _ => keeps_pure _) fun _ => keeps_bind (keeps_bad right _) fun w =>
        keeps_check (keeps_pure _))
  refine Eq.subst (motive := Gives Status.Clean _) ?_ hboth
  cases x with
  | none => obtain rfl | rfl := hop <;> rfl
  | some a =>
      have htruth := truth_ofInt env.floatOps hleft.kind (hleft.fits a rfl)
      have hsecond : (y.map (BitVec.ofInt 64)).bind
          (fun w => some (ofBool (truth env.floatOps right.attrs w))) =
          (y.bind fun b => some (truthOf (b ≠ 0))).map (BitVec.ofInt 64) := by
        cases y with
        | none => rfl
        | some b =>
            have htruth' := truth_ofInt env.floatOps hright.kind (hright.fits b rfl)
            rw [Option.map_some, Option.bind_some, htruth', ofBool_eq_ofInt]
            rfl
      rw [Option.map_some, Option.bind_some, htruth, hsecond]
      obtain rfl | rfl := hop <;> by_cases ha : a = 0 <;> simp [binaryMeaning, ha]

/-! ### What the actions accept -/

theorem binaryAction_accepts (op : BinaryOp) (hleft : left.indirect = 0)
    (hkind : left.typeKind = kindOf s) (hright : right.indirect = 0)
    (hkind' : right.typeKind = kindOf s') :
    ∃ n, binaryAction op left right = .ok n ∧ n.indirect = 0 ∧
      n.typeKind = kindOf (resultSign op s s') := by
  have hnumeric : bothNumeric left right = true := by
    simp [bothNumeric, hkind, hkind', kindOf_isNumeric, hleft, hright]
  have hinteger : bothInteger left right = true := by
    simp [bothInteger, hkind, hkind', kindOf_isInteger, hleft, hright]
  have hbinary (op : BinaryOp) : (binaryOp left right op).indirect = 0 ∧
      (binaryOp left right op).typeKind =
        kindOf (if op = .sub then .signed else commonSign s s') := by
    unfold binaryOp commonSign
    rw [hkind, hkind', if_neg (by cases s <;> cases s' <;> simp [kindOf])]
    cases s <;> cases s' <;> cases op <;> exact ⟨rfl, rfl⟩
  have hlogical (op : BinaryOp) : logicalAction op left right =
      .ok (.binaryOp { typeKind := .unsigned, size := 8 } op left right) :=
    logicalAction_ok (isTruth_of_kind hkind) (isTruth_of_kind hkind')
  have haccept {b : Bool} {msg : String} {n : AstNode} (hb : b = true) :
      (if !b then .error msg else .ok n : Except String AstNode) = .ok n := by
    rw [hb]
    rfl
  cases op with
  | mul => exact ⟨_, haccept hnumeric, hbinary .mul⟩
  | div => exact ⟨_, haccept hnumeric, hbinary .div⟩
  | mod => exact ⟨_, haccept hinteger, rfl, rfl⟩
  | add =>
      refine ⟨_, ?_, hbinary .add⟩
      simp [binaryAction, additionAction, hleft, hright, hkind, hkind', kindOf_isNumeric]
  | sub =>
      refine ⟨_, ?_, hbinary .sub⟩
      simp [binaryAction, subtractionAction, hleft, hright, hkind, hkind', kindOf_isNumeric]
  | and => exact ⟨_, hlogical .and, rfl, rfl⟩
  | or => exact ⟨_, hlogical .or, rfl, rfl⟩
  | left | right | bitAnd | xor | bitOr => exact ⟨_, haccept hinteger, rfl, rfl⟩
  | lt | gt | le | ge | eq | neq => exact ⟨_, haccept hnumeric, rfl, rfl⟩

theorem truthOf_fits (p : Prop) [Decidable p] : Sign.unsigned.Fits 64 (truthOf p) := by
  unfold truthOf
  split <;> exact ⟨by decide, by decide⟩

theorem binaryMeaning_fits {z : Int} (h : binaryMeaning wrapped op s s' x y = some z) :
    (resultSign op s s').Fits 64 z := by
  unfold binaryMeaning at h
  split at h
  next hop =>
    subst hop
    obtain ⟨a, -, h⟩ := Option.bind_eq_some_iff.mp h
    split at h
    · cases h
      exact ⟨by decide, by decide⟩
    · obtain ⟨b, -, h⟩ := Option.bind_eq_some_iff.mp h
      cases h
      exact truthOf_fits _
  next =>
    split at h
    next hop =>
      subst hop
      obtain ⟨a, -, h⟩ := Option.bind_eq_some_iff.mp h
      split at h
      · cases h
        exact ⟨by decide, by decide⟩
      · obtain ⟨b, -, h⟩ := Option.bind_eq_some_iff.mp h
        cases h
        exact truthOf_fits _
    next =>
      obtain ⟨_, -, h⟩ := Option.bind_eq_some_iff.mp h
      obtain ⟨_, -, h⟩ := Option.bind_eq_some_iff.mp h
      obtain ⟨_, -, h⟩ := Option.bind_eq_some_iff.mp h
      obtain ⟨_, -, h⟩ := Option.bind_eq_some_iff.mp h
      obtain ⟨_, -, h⟩ := Option.bind_eq_some_iff.mp h
      exact wrapped_fits h

/-- Words are what integers round, so the operator on words is that on integers. -/
theorem binaryMeaning_words (hop : ¬ (op = .and ∨ op = .or)) :
    ((x.map (BitVec.ofInt 64)).bind fun a => (y.map (BitVec.ofInt 64)).bind fun b =>
      (arith op (operandSign op s s') ((operandSign op s s').value a)
        ((operandSign op s s').value b)).map (BitVec.ofInt 64)) =
      (binaryMeaning wrapped op s s' x y).map (BitVec.ofInt 64) := by
  obtain ⟨hand, hor⟩ := not_or.mp hop
  rw [binaryMeaning, if_neg hand, if_neg hor]
  cases x with
  | none => rfl
  | some a =>
      cases y with
      | none => rfl
      | some b =>
          show (arith op (operandSign op s s') ((operandSign op s s').wrap 64 a)
            ((operandSign op s s').wrap 64 b)).map (BitVec.ofInt 64) =
            ((arith op (operandSign op s s') ((operandSign op s s').wrap 64 a)
              ((operandSign op s s').wrap 64 b)).bind (wrapped (resultSign op s s') 64)).map
                (BitVec.ofInt 64)
          cases arith op (operandSign op s s') ((operandSign op s s').wrap 64 a)
              ((operandSign op s s').wrap 64 b) with
          | none => rfl
          | some z => exact congrArg some (Sign.ofInt_wrap _ z).symm

theorem HasMeaning.binaryOp (hleft : HasMeaning env step left s x)
    (hright : HasMeaning env step right s' y) (op : BinaryOp) :
    ∃ n, binaryAction op left right = .ok n ∧
      HasMeaning env step n (resultSign op s s') (binaryMeaning wrapped op s s' x y) := by
  obtain ⟨n, haction, hdirect, hkind⟩ :=
    binaryAction_accepts op hleft.direct hleft.kind hright.direct hright.kind
  refine ⟨n, haction, hdirect, hkind, fun z => binaryMeaning_fits, ?_⟩
  by_cases hop : op = .and ∨ op = .or
  · rw [binaryAction_logical hop, logicalAction_ok (isTruth_of_kind hleft.kind)
      (isTruth_of_kind hright.kind)] at haction
    rw [← Except.ok.inj haction, evaluateNode_logical hop hleft.direct]
    exact gives_logicalOp hleft hright hop
  · obtain ⟨a, l, r, hinteger⟩ := integerNode_binaryAction hleft.isOffset hright.isOffset haction
    rw [hinteger.evaluateNode_eq hleft.isOffset hleft.kind hright.kind hop,
      ← binaryMeaning_words hop]
    refine gives_binOp (hinteger.promotedLeft.gives hleft) (hinteger.promotedRight.gives hright)
      (keeps_bad r _) hop fun hmod => ?_
    rw [operandSign, if_pos hmod]

/-! ### Unary operators and casts -/

theorem HasMeaning.neg (h : HasMeaning env step n s x) :
    ∃ m, unaryAction .neg n = .ok m ∧
      HasMeaning env step m .signed (x.bind fun a => wrapped .signed 64 (-a)) := by
  refine ⟨.unaryOp { typeKind := .signed, size := 8 } .neg n, ?_, rfl, rfl, ?_, ?_⟩
  · simp [unaryAction, h.kind, h.direct, kindOf_isNumeric, kindOf_ne_float]
  · intro z hz
    obtain ⟨a, -, hz⟩ := Option.bind_eq_some_iff.mp hz
    exact wrapped_fits hz
  · refine Eq.subst (motive := Gives Status.Clean _) ?_ (h.gives.map fun v => -v)
    cases x with
    | none => rfl
    | some a => exact congrArg some (BitVec.ofInt_neg.symm.trans (Sign.ofInt_wrap _ _).symm)

theorem HasMeaning.inv (h : HasMeaning env step n s x) :
    ∃ m, unaryAction .inv n = .ok m ∧
      HasMeaning env step m .unsigned (x.map fun a => Sign.unsigned.wrap 64 (-a - 1)) := by
  refine ⟨.unaryOp { typeKind := .unsigned, size := 8 } .inv n, ?_, rfl, rfl, ?_, ?_⟩
  · simp [unaryAction, h.kind, h.direct, kindOf_isInteger]
  · intro z hz
    obtain ⟨a, -, rfl⟩ := Option.map_eq_some_iff.mp hz
    exact Sign.fits_wrap _ _
  · refine Eq.subst (motive := Gives Status.Clean _) ?_ (h.gives.map fun v => ~~~v)
    cases x with
    | none => rfl
    | some a => exact congrArg some ((ofInt_not a).symm.trans (Sign.ofInt_wrap _ _).symm)

theorem HasMeaning.not (h : HasMeaning env step n s x) :
    ∃ m, unaryAction .not n = .ok m ∧
      HasMeaning env step m .unsigned (x.map fun a => truthOf (a = 0)) := by
  refine ⟨.unaryOp { typeKind := .unsigned, size := 8 } .not n, ?_, rfl, rfl, ?_, ?_⟩
  · simp [unaryAction, h.kind, kindOf_isInteger]
  · intro z hz
    obtain ⟨a, -, rfl⟩ := Option.map_eq_some_iff.mp hz
    exact truthOf_fits _
  · refine Eq.subst (motive := Gives Status.Clean _) ?_ (h.gives.map fun v => ofBool (v == 0))
    cases x with
    | none => rfl
    | some a =>
        have hzero : BitVec.ofInt 64 a = 0 ↔ a = 0 := by
          rw [← Sign.value_eq_zero, s.value_ofInt (by decide) (h.fits a rfl)]
        show some (ofBool (BitVec.ofInt 64 a == 0)) = some (BitVec.ofInt 64 (truthOf (a = 0)))
        rw [← ofBool_eq_ofInt, beq_eq_decide]
        exact congrArg (some ∘ ofBool) (decide_eq_decide.mpr hzero)

theorem HasMeaning.cast (h : HasMeaning env step n s x) (type : { a : Attrs // a.IsIntegerType }) :
    ∃ m, castAction type.1 n = .ok m ∧
      HasMeaning env step m type.1.sign (x.bind (wrapped type.1.sign type.1.bits)) := by
  obtain ⟨a, ha⟩ := type
  refine ⟨.type a n, ?_, ha.1, ha.typeKind_eq, ?_, ?_⟩
  · simp [castAction, ha.1, h.direct, h.kind, kindOf_isNumeric, ha.typeKind_eq]
  · intro z hz
    obtain ⟨b, -, hz⟩ := Option.bind_eq_some_iff.mp hz
    exact wrapped_fits hz
  · refine Eq.subst (motive := Gives Status.Clean _) ?_ (h.gives_cast ha)
    cases x with
    | none => rfl
    | some b => exact congrArg some (Sign.ofInt_wrap _ b).symm

end

/-! ## Expressions -/

/-- The atom is accepted with its type, and read with its value. -/
def ReadsAtom (env : Env) (T : Tables) (scope step : Nat) (e : Expr) (a : Atom) : Prop :=
  ∃ n, e.ast T scope = .ok n ∧ n.indirect = 0 ∧ n.typeKind = kindOf a.sign ∧
    Gives Status.Clean (evaluateNode env step n .noFlags) (some a.value)

section
variable {env : Env} {T : Tables} {scope step : Nat} {A : Expr → Atom}

theorem ReadsAtom.hasMeaning {e : Expr} {a : Atom} (h : ReadsAtom env T scope step e a) :
    ∃ n, e.ast T scope = .ok n ∧ HasMeaning env step n a.sign (some (a.sign.value a.value)) := by
  obtain ⟨n, hn, hdirect, hkind, hgives⟩ := h
  refine ⟨n, hn, hdirect, hkind, ?_, ?_⟩
  · rintro x ⟨⟩
    exact a.sign.fits_value a.value
  · rw [Option.map_some, Sign.ofInt_value]
    exact hgives

theorem IntExpr.hasMeaning (e : IntExpr) (hA : ∀ a ∈ e.atoms, ReadsAtom env T scope step a (A a)) :
    ∃ n, e.expr.ast T scope = .ok n ∧
      HasMeaning env step n (e.sign A) (e.meaning A wrapped) := by
  have unary {e : IntExpr} {n m : AstNode} {op : UnaryOp} (hn : e.expr.ast T scope = .ok n)
      (hm : unaryAction op n = .ok m) : (Expr.unaryOp op e.expr).ast T scope = .ok m := by
    rw [Expr.ast, hn]
    exact hm
  induction e with
  | atom e => exact (hA e (List.mem_singleton_self e)).hasMeaning
  | plus operand ih => exact ih hA
  | neg operand ih =>
      obtain ⟨n, hn, hmean⟩ := ih hA
      obtain ⟨m, hm, hmean⟩ := hmean.neg
      exact ⟨m, unary hn hm, hmean⟩
  | inv operand ih =>
      obtain ⟨n, hn, hmean⟩ := ih hA
      obtain ⟨m, hm, hmean⟩ := hmean.inv
      refine ⟨m, unary hn hm, ?_⟩
      rw [Option.map_eq_bind] at hmean
      exact hmean
  | not operand ih =>
      obtain ⟨n, hn, hmean⟩ := ih hA
      obtain ⟨m, hm, hmean⟩ := hmean.not
      refine ⟨m, unary hn hm, ?_⟩
      rw [Option.map_eq_bind] at hmean
      exact hmean
  | cast type operand ih =>
      obtain ⟨n, hn, hmean⟩ := ih hA
      obtain ⟨m, hm, hmean⟩ := hmean.cast type
      refine ⟨m, ?_, hmean⟩
      rw [IntExpr.expr, Expr.ast, hn]
      exact hm
  | binaryOp op left right ihleft ihright =>
      obtain ⟨l, hl, hleft⟩ := ihleft fun a ha => hA a (List.mem_append_left _ ha)
      obtain ⟨r, hr, hright⟩ := ihright fun a ha => hA a (List.mem_append_right _ ha)
      obtain ⟨n, hn, hmean⟩ := hleft.binaryOp hright op
      refine ⟨n, ?_, hmean⟩
      rw [IntExpr.expr, Expr.ast, hl, hr]
      exact hn

end

/-! ## Nothing is lost -/

/-- A value of the first is one of the second. -/
def Extends (x y : Option Int) : Prop := ∀ z, x = some z → y = some z

section
variable {x x' y y' : Option Int} {A : Expr → Atom}

theorem extends_refl (x : Option Int) : Extends x x := fun _ h => h

theorem Extends.bind {f g : Int → Option Int} (hx : Extends x y)
    (hf : ∀ a, Extends (f a) (g a)) : Extends (x.bind f) (y.bind g) := by
  intro z hz
  obtain ⟨a, ha, hz⟩ := Option.bind_eq_some_iff.mp hz
  rw [hx a ha]
  exact hf a z hz

theorem extends_ite {c : Prop} [Decidable c] (hx : Extends x y) (hx' : Extends x' y') :
    Extends (if c then x else x') (if c then y else y') := by
  split
  · exact hx
  · exact hx'

theorem fitting_extends (s : Sign) {w : Nat} (hw : w ≤ 64) (z : Int) :
    Extends (fitting s w z) (wrapped s w z) := by
  intro z' hz
  obtain ⟨hfits, hz⟩ := Option.ite_none_right_eq_some.mp hz
  cases hz
  exact congrArg some (s.wrap_of_fits (by decide) (s.fits_of_le hw hfits))

theorem binaryMeaning_extends (op : BinaryOp) (s s' : Sign) (hx : Extends x x')
    (hy : Extends y y') :
    Extends (binaryMeaning fitting op s s' x y) (binaryMeaning wrapped op s s' x' y') := by
  have hleave (s : Sign) (z : Int) := fitting_extends s (Nat.le_refl 64) z
  refine extends_ite ?_ (extends_ite ?_ ?_)
  · exact hx.bind fun _ => extends_ite (extends_refl _) (hy.bind fun _ => extends_refl _)
  · exact hx.bind fun _ => extends_ite (extends_refl _) (hy.bind fun _ => extends_refl _)
  · exact hx.bind fun _ => (hleave _ _).bind fun _ => hy.bind fun _ => (hleave _ _).bind fun _ =>
      (extends_refl _).bind (hleave _)

theorem IntExpr.meaning_extends (e : IntExpr) :
    Extends (e.meaning A fitting) (e.meaning A wrapped) := by
  induction e with
  | atom e => exact extends_refl _
  | plus operand ih => exact ih
  | neg operand ih => exact ih.bind fun _ => fitting_extends _ (Nat.le_refl 64) _
  | inv operand ih => exact ih.bind fun _ => extends_refl _
  | not operand ih => exact ih.bind fun _ => extends_refl _
  | cast type operand ih =>
      obtain ⟨a, ha⟩ := type
      have hbits : a.bits ≤ 64 := by
        obtain ⟨-, -, hsize⟩ := ha
        unfold Attrs.bits
        omega
      exact ih.bind (fitting_extends _ hbits)
  | binaryOp op left right ihleft ihright => exact binaryMeaning_extends op _ _ ihleft ihright

end

/-- What is shown for an integer. -/
def shownInteger (a : Attrs) (s : Sign) (x : Int) : Printed :=
  match s with
  | .signed => .signed x (charOf a (BitVec.ofInt 64 x))
  | .unsigned => .unsigned x.toNat (charOf a (BitVec.ofInt 64 x))

section
variable {env : Env} {T : Tables} {scope step : Nat} {A : Expr → Atom} {n : AstNode} {s : Sign}
  {r : Option Int}

theorem status_clean : ({} : Status).Clean := ⟨rfl, rfl⟩

theorem HasMeaning.eq_some_iff (h : HasMeaning env step n s r) {x : Int} :
    r = some x ↔ s.Fits 64 x ∧
      evaluateNode env step n .noFlags {} = some (BitVec.ofInt 64 x, {}) := by
  rw [← h.gives.eq_some_iff status_clean]
  constructor
  · rintro rfl
    exact ⟨h.fits x rfl, rfl⟩
  · rintro ⟨hx, hr⟩
    obtain ⟨z, rfl, hz⟩ := Option.map_eq_some_iff.mp hr
    rw [← s.value_ofInt (by decide) hx, ← hz, s.value_ofInt (by decide) (h.fits z rfl)]

theorem HasMeaning.shown (h : HasMeaning env step n s r) {x : Int} (hr : r = some x)
    (id : Nat) : getEvalResult env id n step {} =
      some (some { result := some (shownInteger n.attrs s x) }, {}) := by
  obtain ⟨hx, hrun⟩ := h.eq_some_iff.mp hr
  have hnumeric : n.indirect = 0 ∧ n.typeKind.isNumeric :=
    ⟨h.direct, h.kind ▸ kindOf_isNumeric s⟩
  refine (Agreement.getEvalResult_basic hnumeric).mpr ⟨_, hrun, rfl, ?_⟩
  have hvalue : s.value (BitVec.ofInt 64 x) = x := s.value_ofInt (by decide) hx
  have hkind : n.attrs.typeKind = kindOf s := h.kind
  unfold printBasic shownInteger
  rw [hkind]
  cases s with
  | signed =>
      have hint : (BitVec.ofInt 64 x).toInt = x := hvalue
      dsimp only [kindOf]
      rw [hint]
  | unsigned =>
      have hnat : (BitVec.ofInt 64 x).toNat = x.toNat := by
        rw [← Int.toNat_natCast (BitVec.ofInt 64 x).toNat]
        exact congrArg Int.toNat hvalue
      dsimp only [kindOf]
      rw [hnat]

/-- **Integer expressions.**  Over atoms that have integer values, the parser accepts an
expression with the type that it has; the evaluator has a value without a trap, an internal
error or an undefined shift exactly if the expression has one modulo `2 ^ 64`, and it is that
value; and where nothing is lost on the way, the number shown is the mathematical one. -/
theorem integers_evaluate (e : IntExpr) (hA : ∀ a ∈ e.atoms, ReadsAtom env T scope step a (A a)) :
    ∃ n, e.expr.ast T scope = .ok n ∧ n.indirect = 0 ∧ n.typeKind = kindOf (e.sign A) ∧
      (∀ x, e.meaning A wrapped = some x ↔ (e.sign A).Fits 64 x ∧
        evaluateNode env step n .noFlags {} = some (BitVec.ofInt 64 x, {})) ∧
      ∀ x, e.meaning A fitting = some x → ∀ id, getEvalResult env id n step {} =
        some (some { result := some (shownInteger n.attrs (e.sign A) x) }, {}) := by
  obtain ⟨n, hn, hmean⟩ := e.hasMeaning hA
  refine ⟨n, hn, hmean.direct, hmean.kind, fun x => hmean.eq_some_iff, fun x hx id => ?_⟩
  exact hmean.shown (e.meaning_extends x hx) id

theorem readsAtom_constant (v : NodeValue) :
    ReadsAtom env T scope step (.constant (.integer v)) ⟨.unsigned, v⟩ :=
  ⟨_, rfl, rfl, rfl, gives_pure v⟩

end

/-- The integers that the lexer reads. -/
def constantAtoms : Expr → Atom
  | .constant (.integer v) => ⟨.unsigned, v⟩
  | _ => ⟨.unsigned, 0⟩

/-- `(2 - 3) * 7 / 2` -/
def negativeQuotient : IntExpr :=
  .binaryOp .div (.binaryOp .mul
    (.binaryOp .sub (.atom (.constant (.integer 2))) (.atom (.constant (.integer 3))))
    (.atom (.constant (.integer 7)))) (.atom (.constant (.integer 2)))

theorem integers_evaluate_negativeQuotient :
    ∃ n, negativeQuotient.expr.ast noTables 0 = .ok n ∧ n.typeKind = .signed ∧
      getEvalResult noRecording 1 n 1 {} =
        some (some { result := some (.signed (-3) none) }, {}) := by
  have hatoms (a : Expr) (ha : a ∈ negativeQuotient.atoms) :
      ReadsAtom noRecording noTables 0 1 a (constantAtoms a) := by
    obtain ⟨v, rfl⟩ : ∃ v, a = .constant (.integer v) := by
      simp only [negativeQuotient, IntExpr.atoms, List.cons_append, List.nil_append,
        List.mem_cons, List.not_mem_nil, or_false] at ha
      obtain rfl | rfl | rfl | rfl := ha <;> exact ⟨_, rfl⟩
    exact readsAtom_constant v
  obtain ⟨n, hn, -, hkind, -, hshown⟩ := integers_evaluate negativeQuotient hatoms
  refine ⟨n, hn, hkind, ?_⟩
  have hvalue := hshown (-3) (by decide) 1
  cases hn
  exact hvalue

end FlightRec.Expressions
