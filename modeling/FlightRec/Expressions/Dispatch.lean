/-
# `FlightRec.Expressions.Dispatch` — what the parser builds and the evaluator expects

The parser checks the kinds of operands and casts some of them; the evaluator asks
for the kinds again to choose between `float_bin_op`, `signed_bin_op` and
`unsigned_bin_op`, and each of these has its own list of operators.  A node that was
built for one and is given to another ends in "internal error".

That happens to the shifts and to `&`, `^` and `|` as soon as one operand is signed,
and to nothing else (`exprParse_implemented_iff`): expr.y says of signed operands that
they "will be cast to unsigned", and does not cast them.
-/
import FlightRec.Expressions.Evaluate
import FlightRec.Expressions.Parse
import FlightRec.Lib.Hoare

namespace FlightRec.Expressions

open Hoare

/-! ## What has to hold of a tree -/

/-- The function has a case for the operator, if it has a switch at all. -/
def BinaryFun.Implements : BinaryFun → BinaryOp → Prop
  | .pointer, _ => True
  | .logical, _ => True
  | .float, op => (floatCases op).isSome
  | .signed, op => (signedCases op).isSome
  | .unsigned, op => (unsignedCases op).isSome

/-- Every operator is given to a function that implements it, and every cast is handled. -/
def AstNode.Implemented (n : AstNode) : Prop :=
  n.All (fun a op la ra => (dispatch a op la ra).Implements op)
    (fun a => a.indirect ≠ 0 ∨ a.typeKind.isNumeric)

/-- No shift and no bitwise operator has a signed operand. -/
def AstNode.UnsignedBits (n : AstNode) : Prop :=
  n.All (fun _ op la ra => op.isBitwise → la.typeKind ≠ .signed ∧ ra.typeKind ≠ .signed)
    (fun _ => True)

/-! ## The evaluator -/

/-- A failure leaves the condition as it is. -/
def AllowsFail (P : Status → Prop) : Prop := ∀ s msg, P s → P { s with error := some msg }

/-- So does a shift that is undefined. -/
def AllowsShift (P : Status → Prop) : Prop := ∀ s, P s → P { s with overshift := true }

/-- So does "internal error". -/
def AllowsInternal (P : Status → Prop) : Prop :=
  ∀ s, P s → P { s with error := some "internal error", internal := true }

section
variable {P : Status → Prop} {env : Env} {F : FloatOps} {step : Nat}

theorem keeps_crash {α : Type} : Keeps P (crash : Eval α) := keeps_none

theorem keeps_failed : Keeps P failed := keeps_bind keeps_get fun _ => keeps_pure _

theorem keeps_check {x : Eval NodeValue} (h : Keeps P x) : Keeps P (check x) :=
  keeps_bind keeps_failed fun _ => keeps_ite (fun _ => keeps_pure _) fun _ => h

theorem keeps_internalError (hP : AllowsInternal P) : Keeps P internalError :=
  keeps_bind (keeps_modify hP) fun _ => keeps_pure _

theorem keeps_signedDivision (f : NodeValue → NodeValue → NodeValue) (a b : NodeValue) :
    Keeps P (signedDivision f a b) :=
  keeps_ite (fun _ => keeps_crash) fun _ => keeps_pure _

theorem keeps_unsignedDivision (f : NodeValue → NodeValue → NodeValue) (a b : NodeValue) :
    Keeps P (unsignedDivision f a b) :=
  keeps_ite (fun _ => keeps_crash) fun _ => keeps_pure _

theorem keeps_shift (hP : AllowsShift P) (f : NodeValue → Nat → NodeValue) (a b : NodeValue) :
    Keeps P (shift f a b) :=
  keeps_ite (fun _ => keeps_bind (keeps_modify hP) fun _ => keeps_pure _)
    fun _ => keeps_bind (keeps_pure _) fun _ => keeps_pure _

theorem keeps_floatCases {op : BinaryOp} {f : FloatOps → NodeValue → NodeValue → Eval NodeValue}
    (h : floatCases op = some f) (a b : NodeValue) : Keeps P (f F a b) := by
  cases op <;> cases h <;> exact keeps_pure _

theorem keeps_signedCases {op : BinaryOp} {f : NodeValue → NodeValue → Eval NodeValue}
    (h : signedCases op = some f) (a b : NodeValue) : Keeps P (f a b) := by
  cases op <;> cases h <;> first | exact keeps_pure _ | exact keeps_signedDivision _ a b

theorem keeps_unsignedCases (hP : AllowsShift P) {op : BinaryOp}
    {f : NodeValue → NodeValue → Eval NodeValue} (h : unsignedCases op = some f)
    (a b : NodeValue) : Keeps P (f a b) := by
  cases op <;> cases h <;>
    first | exact keeps_pure _ | exact keeps_unsignedDivision _ a b | exact keeps_shift hP _ a b

theorem keeps_binOp {case : Option (NodeValue → NodeValue → Eval NodeValue)}
    {left right : Eval NodeValue} (hsome : AllowsInternal P ∨ case.isSome)
    (hcase : ∀ f, case = some f → ∀ a b, Keeps P (f a b)) (hleft : Keeps P left)
    (hright : Keeps P right) : Keeps P (binOp case left right) := by
  refine keeps_bind hleft fun a => keeps_check (keeps_bind hright fun b => keeps_check ?_)
  cases hf : case with
  | some f => exact hcase f hf a b
  | none =>
      obtain hP | hsome := hsome
      · exact keeps_internalError hP
      · rw [hf] at hsome
        cases hsome

theorem keeps_logicalOp {op : BinaryOp} {la ra : Attrs} {left right : Eval NodeValue}
    (hleft : Keeps P left) (hright : Keeps P right) :
    Keeps P (logicalOp F op la ra left right) := by
  refine keeps_bind hleft ?_
  intro a
  refine keeps_check (keeps_ite (fun _ => keeps_pure _) ?_)
  intro _
  refine keeps_ite (fun _ => keeps_pure _) ?_
  intro _
  exact keeps_bind hright fun b => keeps_check (keeps_pure _)

theorem keeps_castValue {a operand : Attrs} {value : NodeValue}
    (h : AllowsInternal P ∨ (a.indirect ≠ 0 ∨ a.typeKind.isNumeric)) :
    Keeps P (castValue F a operand value) := by
  refine keeps_ite (fun _ => keeps_pure _) fun hdirect => ?_
  have hread {c₁ c₂ : Prop} [Decidable c₁] [Decidable c₂] (v w u : NodeValue) :
      Keeps P (if c₁ then return v else if c₂ then return w else return u : Eval NodeValue) :=
    keeps_ite (fun _ => keeps_pure _) fun _ => keeps_ite (fun _ => keeps_pure _) fun _ =>
      keeps_pure _
  obtain hP | h := h
  · split
    · exact hread _ _ _
    · exact hread _ _ _
    · exact hread _ _ _
    · exact keeps_internalError hP
  · have hnumeric := h.resolve_left hdirect
    cases hkind : a.typeKind <;> rw [hkind] at hnumeric <;>
      first | exact hread _ _ _ | cases hnumeric

section
variable (hfail : AllowsFail P)
include hfail

theorem keeps_fail (msg : String) : Keeps P (fail msg) :=
  keeps_bind (keeps_modify fun s => hfail s msg) fun _ => keeps_pure _

theorem keeps_pointerOp {op : BinaryOp} {la ra : Attrs} {left right : Eval NodeValue}
    (hleft : Keeps P left) (hright : Keeps P right) : Keeps P (pointerOp op la ra left right) := by
  refine keeps_ite (fun _ => keeps_fail hfail _) ?_
  intro _
  refine keeps_bind hleft ?_
  intro a
  refine keeps_check (keeps_ite ?_ ?_)
  · intro _
    exact keeps_bind hright fun b => keeps_check (keeps_pure _)
  · intro _
    refine keeps_bind hright ?_
    intro b
    refine keeps_check (keeps_ite (fun _ => keeps_crash) ?_)
    intro _
    exact keeps_ite (fun _ => keeps_fail hfail _) fun _ => keeps_pure _

theorem keeps_varValue {a : Attrs} {addr : NodeValue} : Keeps P (varValue env a addr step) := by
  have hloaded (v : NodeValue) : Keeps P (loaded v) := keeps_check (keeps_pure v)
  unfold varValue
  split
  · exact keeps_fail hfail _
  · refine keeps_ite (fun _ => keeps_pure _) fun _ => ?_
    split
    · exact keeps_ite (fun _ => hloaded _) fun _ => keeps_fail hfail _
    · exact keeps_ite (fun _ => hloaded _) fun _ => keeps_fail hfail _
    · exact keeps_ite (fun _ => hloaded _) fun _ => keeps_ite (fun _ => hloaded _) fun _ =>
        keeps_ite (fun _ => hloaded _) fun _ => keeps_fail hfail _
    · exact keeps_fail hfail _

theorem keeps_lvalue {a : Attrs} {addr : NodeValue} {flags : Flags} :
    Keeps P (lvalue env a addr step flags) :=
  keeps_ite (fun _ => keeps_pure _) fun _ => keeps_varValue hfail

theorem keeps_itemBounds {object : Attrs} {addr index : NodeValue} :
    Keeps P (itemBounds env object addr index) := by
  unfold itemBounds
  cases env.typeSize object.typeOffset with
  | none => exact keeps_fail hfail _
  | some info =>
      refine keeps_ite ?_ fun _ => keeps_ite (fun _ => keeps_fail hfail _) fun _ => keeps_pure _
      intro _
      cases env.pointerSize addr with
      | size bytes =>
          exact keeps_ite (fun _ => keeps_pure _) fun _ => keeps_ite (fun _ => keeps_crash) fun _ =>
            keeps_ite (fun _ => keeps_fail hfail _) fun _ => keeps_pure _
      | released => exact keeps_fail hfail _
      | notFound => exact keeps_pure _
      | failure => exact keeps_pure _

variable (hshift : AllowsShift P)
include hshift

theorem keeps_evaluateBinary {a la ra : Attrs} {op : BinaryOp} {left right : Eval NodeValue}
    (h : AllowsInternal P ∨ (dispatch a op la ra).Implements op) (hleft : Keeps P left)
    (hright : Keeps P right) : Keeps P (evaluateBinary F a op la ra left right) := by
  unfold evaluateBinary
  cases hfun : dispatch a op la ra with
  | pointer => exact keeps_pointerOp hfail hleft hright
  | logical => exact keeps_logicalOp hleft hright
  | float =>
      rw [hfun] at h
      refine keeps_binOp (h.imp_right (Option.isSome_map ..).trans) ?_ hleft hright
      intro f hf a b
      obtain ⟨g, hg, rfl⟩ := Option.map_eq_some_iff.mp hf
      exact keeps_floatCases hg a b
  | signed =>
      rw [hfun] at h
      exact keeps_binOp h (fun f hf => keeps_signedCases hf) hleft hright
  | unsigned =>
      rw [hfun] at h
      exact keeps_binOp h (fun f hf => keeps_unsignedCases hshift hf) hleft hright

/-- A condition is kept by a tree if it allows "internal error", or if all operators and casts
of the tree are implemented. -/
theorem keeps_evaluateNode {n : AstNode} (h : AllowsInternal P ∨ n.Implemented) (flags : Flags) :
    Keeps P (evaluateNode env step n flags) := by
  induction n generalizing flags with
  | int a v => exact keeps_pure _
  | float a v => exact keeps_pure _
  | string a v => exact keeps_pure _
  | var a name id =>
      rw [evaluateNode]
      split
      · exact keeps_fail hfail _
      · exact keeps_lvalue hfail
  | field a object member start ih =>
      rw [evaluateNode]
      refine keeps_bind (ih h _) ?_
      intro addr
      exact keeps_check (keeps_lvalue hfail)
  | item a object member ihobject ihmember =>
      rw [evaluateNode]
      refine keeps_bind (ihobject (h.imp_right And.left) _) ?_
      intro addr
      refine keeps_check (keeps_bind (ihmember (h.imp_right And.right) _) ?_)
      intro index
      exact keeps_bind (keeps_itemBounds hfail) fun _ => keeps_lvalue hfail
  | unaryOp a op left ih =>
      cases op with
      | addr => exact ih h _
      | deref => exact keeps_bind (ih h _) fun addr => keeps_lvalue hfail
      | neg => exact keeps_bind (ih h _) fun v => keeps_pure _
      | inv => exact keeps_bind (ih h _) fun v => keeps_pure _
      | not => exact keeps_bind (ih h _) fun v => keeps_pure _
  | binaryOp a op left right ihleft ihright =>
      exact keeps_evaluateBinary hfail hshift (h.imp_right And.left)
        (ihleft (h.imp_right fun h => h.2.1) _) (ihright (h.imp_right fun h => h.2.2) _)
  | type a operand ih =>
      refine keeps_bind (ih (h.imp_right And.right) _) ?_
      intro v
      exact keeps_check (keeps_castValue (h.imp_right And.left))

end

end

/-! ### "internal error" -/

/-- No "internal error" so far. -/
def Quiet (s : Status) : Prop := s.internal = false

section
variable {env : Env} {step : Nat}

theorem quiet_allowsFail : AllowsFail Quiet := fun _ _ h => h

theorem AstNode.Implemented.keeps {n : AstNode} (h : n.Implemented) (flags : Flags) :
    Keeps Quiet (evaluateNode env step n flags) :=
  keeps_evaluateNode quiet_allowsFail (fun _ h => h) (.inr h) flags

theorem keeps_evalPointer {id : Nat} {a : Attrs} {addr : NodeValue} {underKind : Nat} :
    Keeps Quiet (evalPointer env id a addr underKind) := by
  unfold evalPointer
  cases env.pointerSize addr with
  | released => exact keeps_pure _
  | notFound => exact keeps_pure _
  | failure => exact keeps_pure _
  | size bytes =>
      refine keeps_ite (fun _ => keeps_pure _) ?_
      intro _
      exact keeps_ite (fun _ => keeps_crash) fun _ => keeps_pure _

theorem AstNode.Implemented.keeps_getEvalResult {n : AstNode} (h : n.Implemented) (id : Nat) :
    Keeps Quiet (getEvalResult env id n step) := by
  have hevaluate (flags : Flags) {f : NodeValue → Eval (Option EvalResult)}
      (hf : ∀ v, Keeps Quiet (f v)) :
      Keeps Quiet (do
        let v ← evaluateNode env step n flags
        if ← failed then return none
        f v) := by
    refine keeps_bind (h.keeps flags) ?_
    intro v
    refine keeps_bind keeps_failed ?_
    intro _
    exact keeps_ite (fun _ => keeps_pure _) fun _ => hf v
  refine keeps_ite (fun _ => hevaluate _ fun v => keeps_pure _) ?_
  intro _
  split
  · exact keeps_bind (keeps_fail quiet_allowsFail _) fun _ => keeps_pure _
  · refine keeps_ite ?_ ?_
    · intro _
      refine hevaluate _ ?_
      intro addr
      split
      · exact keeps_pure _
      · exact keeps_pure _
    · intro _
      refine keeps_ite ?_ fun _ => hevaluate _ fun addr => keeps_pure _
      intro _
      refine hevaluate _ ?_
      intro addr
      exact keeps_ite (fun _ => keeps_pure _) fun _ => keeps_evalPointer

end

/-! ## The parser -/

/-- Of one tree: it is implemented as long as its bitwise operators have no signed operand. -/
def Matched (n : AstNode) : Prop := n.Implemented ↔ n.UnsignedBits

/-- The operators that all three functions implement. -/
def BinaryOp.isCommon : BinaryOp → Bool
  | .mul | .div | .add | .sub | .lt | .gt | .le | .ge | .eq | .neq => true
  | _ => false

section
variable {T : Tables} {scope : Nat} {left right n m : AstNode} {a : Attrs} {op : BinaryOp}
  {msg : String}

theorem implements_of_isCommon (h : op.isCommon) (f : BinaryFun) : f.Implements op := by
  cases f with
  | pointer => trivial
  | logical => trivial
  | float => cases op <;> first | rfl | cases h
  | signed => cases op <;> first | rfl | cases h
  | unsigned => cases op <;> first | rfl | cases h

theorem signed_lacks_bitwise (h : op.isBitwise) : ¬ BinaryFun.signed.Implements op := by
  cases op <;> first | exact Bool.false_ne_true | cases h

theorem unsigned_implements_bitwise (h : op.isBitwise) : BinaryFun.unsigned.Implements op := by
  cases op <;> first | rfl | cases h

theorem isBitwise_of_isCommon (h : op.isCommon) : op.isBitwise = false := by
  cases op <;> first | rfl | cases h

theorem matched_type (ha : a.indirect ≠ 0 ∨ a.typeKind.isNumeric) (h : Matched n) :
    Matched (.type a n) := and_congr (iff_of_true ha trivial) h

theorem matched_binaryOp
    (hop : (dispatch a op left.attrs right.attrs).Implements op ↔
      (op.isBitwise → left.typeKind ≠ .signed ∧ right.typeKind ≠ .signed))
    (hleft : Matched left) (hright : Matched right) : Matched (.binaryOp a op left right) :=
  and_congr hop (and_congr hleft hright)

theorem matched_common (hop : op.isCommon) (hleft : Matched left) (hright : Matched right) :
    Matched (.binaryOp a op left right) := by
  have hplain : op.isBitwise = false := isBitwise_of_isCommon hop
  refine matched_binaryOp (iff_of_true (implements_of_isCommon hop _) fun h => ?_) hleft hright
  rw [hplain] at h
  cases h

theorem matched_castToSigned (h : Matched n) : Matched (castToSigned n) :=
  matched_type (.inr rfl) h

theorem matched_castToDouble (h : Matched n) : Matched (castToDouble n) :=
  matched_type (.inr rfl) h

theorem matched_promoteToDouble (hleft : Matched left) (hright : Matched right) :
    Matched (promoteOperandsToDouble left right).1 ∧
      Matched (promoteOperandsToDouble left right).2 := by
  unfold promoteOperandsToDouble
  split
  · exact ⟨matched_castToDouble hleft, hright⟩
  · split
    · exact ⟨hleft, matched_castToDouble hright⟩
    · exact ⟨hleft, hright⟩

theorem matched_promoteToSigned (hleft : Matched left) (hright : Matched right) :
    Matched (promoteOperandsToSigned left right).1 ∧
      Matched (promoteOperandsToSigned left right).2 := by
  unfold promoteOperandsToSigned
  split
  · exact ⟨matched_castToSigned hleft, hright⟩
  · split
    · exact ⟨hleft, matched_castToSigned hright⟩
    · exact ⟨hleft, hright⟩

theorem matched_double (hop : op.isCommon) (hleft : Matched left) (hright : Matched right) :
    Matched (.binaryOp a op (promoteOperandsToDouble left right).1
      (promoteOperandsToDouble left right).2) := by
  have h := matched_promoteToDouble hleft hright
  exact matched_common hop h.1 h.2

theorem matched_signed (hop : op.isCommon) (hleft : Matched left) (hright : Matched right) :
    Matched (.binaryOp a op (promoteOperandsToSigned left right).1
      (promoteOperandsToSigned left right).2) := by
  have h := matched_promoteToSigned hleft hright
  exact matched_common hop h.1 h.2

theorem matched_promoted (hop : op.isCommon) (hleft : Matched left) (hright : Matched right) :
    Matched (binaryOp left right op) := by
  unfold binaryOp
  split
  · exact matched_double hop hleft hright
  · split
    · exact matched_signed hop hleft hright
    · exact matched_common hop hleft hright

theorem ok_of_ite {c : Prop} [Decidable c] {x : Except String AstNode}
    (h : (if c then .error msg else x) = .ok n) : ¬ c ∧ x = .ok n := by
  split at h
  · cases h
  · exact ⟨‹_›, h⟩

theorem bothInteger_iff : bothInteger left right = true ↔ left.typeKind.isInteger ∧
    right.typeKind.isInteger ∧ left.indirect = 0 ∧ right.indirect = 0 := by
  simp [bothInteger, and_assoc]

theorem isInteger_iff {k : TKind} : k.isInteger = true ↔ k = .signed ∨ k = .unsigned := by
  simp [TKind.isInteger]

theorem matched_multiplicativeAction (hop : op.isCommon) (hleft : Matched left)
    (hright : Matched right) (h : multiplicativeAction op msg left right = .ok n) : Matched n := by
  obtain ⟨_, hn⟩ := ok_of_ite h
  cases hn
  exact matched_promoted hop hleft hright

/-- Both operands of `%` are signed in the end, and the signed function implements it. -/
theorem matched_moduloAction (hleft : Matched left) (hright : Matched right)
    (h : moduloAction left right = .ok n) : Matched n := by
  obtain ⟨hint, hn⟩ := ok_of_ite h
  cases hn
  have hcast {m : AstNode} (hm : Matched m) : Matched (modOperand m) := by
    unfold modOperand
    split
    · exact matched_castToSigned hm
    · exact hm
  obtain ⟨hkind, _, hdirect, _⟩ := bothInteger_iff.mp (by simpa using hint)
  have hsigned : (modOperand left).typeKind = .signed ∧ (modOperand left).indirect = 0 := by
    unfold modOperand
    split
    · exact ⟨rfl, rfl⟩
    · exact ⟨(isInteger_iff.mp hkind).resolve_right ‹_›, hdirect⟩
  refine matched_binaryOp (iff_of_true ?_ fun h => (by cases h)) (hcast hleft) (hcast hright)
  have hfun : dispatch { typeKind := .signed, size := 8 } .mod (modOperand left).attrs
      (modOperand right).attrs = .signed := by
    have hk : (modOperand left).attrs.typeKind = .signed := hsigned.1
    have hi : (modOperand left).attrs.indirect = 0 := hsigned.2
    simp [dispatch, hk, hi]
  rw [hfun]
  rfl

theorem matched_pointerOffset (h : Matched n) : Matched (pointerOffset n) := by
  unfold pointerOffset
  split
  · exact matched_castToSigned h
  · exact h

theorem matched_additionAction (hleft : Matched left) (hright : Matched right)
    (h : additionAction left right = .ok n) : Matched n := by
  unfold additionAction at h
  split at h
  · obtain ⟨_, hn⟩ := ok_of_ite h
    cases hn
    exact matched_common rfl hleft (matched_pointerOffset hright)
  · obtain ⟨_, hn⟩ := ok_of_ite h
    cases hn
    exact matched_promoted rfl hleft hright

theorem matched_subtractionAction (hleft : Matched left) (hright : Matched right)
    (h : subtractionAction left right = .ok n) : Matched n := by
  unfold subtractionAction at h
  split at h
  · split at h
    · obtain ⟨_, hn⟩ := ok_of_ite h
      cases hn
      exact matched_common rfl hleft hright
    · split at h
      · cases h
        exact matched_common rfl hleft (matched_pointerOffset hright)
      · cases h
  · obtain ⟨_, hn⟩ := ok_of_ite h
    cases hn
    exact matched_promoted rfl hleft hright

theorem dispatch_bitwise (hop : op.isBitwise) (hdirect : left.indirect = 0) :
    dispatch { typeKind := .unsigned, size := 8 } op left.attrs right.attrs =
      if left.typeKind = .signed ∨ right.typeKind = .signed then .signed else .unsigned := by
  have hlogical : ¬ (op = .and ∨ op = .or) := by
    rintro (rfl | rfl) <;> cases hop
  have hvalue : ¬ left.attrs.indirect ≠ 0 := not_not_intro hdirect
  have hinteger : ¬ TKind.unsigned = TKind.float := fun h => (by cases h)
  unfold dispatch
  rw [if_neg hvalue, if_neg hlogical, if_neg hinteger]
  rfl

/-- A shift or bitwise operator is implemented if and only if neither operand is signed. -/
theorem implements_bitwise_iff (hop : op.isBitwise) (hdirect : left.indirect = 0) :
    (dispatch { typeKind := .unsigned, size := 8 } op left.attrs right.attrs).Implements op ↔
      left.typeKind ≠ .signed ∧ right.typeKind ≠ .signed := by
  rw [dispatch_bitwise hop hdirect]
  split
  next hsigned =>
    exact iff_of_false (signed_lacks_bitwise hop) fun h => hsigned.elim h.1 h.2
  next hsigned =>
    exact iff_of_true (unsigned_implements_bitwise hop) (not_or.mp hsigned)

theorem matched_bitwiseAction (hop : op.isBitwise) (hleft : Matched left) (hright : Matched right)
    (h : bitwiseAction op msg left right = .ok n) : Matched n := by
  obtain ⟨hint, hn⟩ := ok_of_ite h
  cases hn
  obtain ⟨_, _, hdirect, _⟩ := bothInteger_iff.mp (by simpa using hint)
  refine matched_binaryOp ?_ hleft hright
  rw [implements_bitwise_iff hop hdirect]
  exact ⟨fun h _ => h, fun h => h hop⟩

theorem matched_comparisonAction (hop : op.isCommon) (hleft : Matched left)
    (hright : Matched right) (h : comparisonAction op left right = .ok n) : Matched n := by
  obtain ⟨_, hn⟩ := ok_of_ite h
  cases hn
  split
  · exact matched_double hop hleft hright
  · split
    · exact matched_signed hop hleft hright
    · exact matched_common hop hleft hright

theorem matched_logicalAction (hop : op = .and ∨ op = .or) (hleft : Matched left)
    (hright : Matched right) (h : logicalAction op left right = .ok n) : Matched n := by
  obtain ⟨_, hn⟩ := ok_of_ite h
  cases hn
  have hplain : op.isBitwise = false := by
    rcases hop with rfl | rfl <;> rfl
  refine matched_binaryOp (iff_of_true ?_ fun h => ?_) hleft hright
  · unfold dispatch
    rw [if_pos hop]
    split <;> trivial
  · rw [hplain] at h
    cases h

theorem matched_binaryAction (hleft : Matched left) (hright : Matched right)
    (h : binaryAction op left right = .ok n) : Matched n := by
  cases op with
  | mul => exact matched_multiplicativeAction rfl hleft hright h
  | div => exact matched_multiplicativeAction rfl hleft hright h
  | mod => exact matched_moduloAction hleft hright h
  | add => exact matched_additionAction hleft hright h
  | sub => exact matched_subtractionAction hleft hright h
  | bitAnd => exact matched_bitwiseAction rfl hleft hright h
  | xor => exact matched_bitwiseAction rfl hleft hright h
  | bitOr => exact matched_bitwiseAction rfl hleft hright h
  | left => exact matched_bitwiseAction rfl hleft hright h
  | right => exact matched_bitwiseAction rfl hleft hright h
  | and => exact matched_logicalAction (.inl rfl) hleft hright h
  | or => exact matched_logicalAction (.inr rfl) hleft hright h
  | lt => exact matched_comparisonAction rfl hleft hright h
  | gt => exact matched_comparisonAction rfl hleft hright h
  | le => exact matched_comparisonAction rfl hleft hright h
  | ge => exact matched_comparisonAction rfl hleft hright h
  | eq => exact matched_comparisonAction rfl hleft hright h
  | neq => exact matched_comparisonAction rfl hleft hright h

theorem matched_subscriptAction (hleft : Matched left) (hright : Matched right)
    (h : subscriptAction T left right = .ok n) : Matched n := by
  obtain ⟨_, h⟩ := ok_of_ite h
  obtain ⟨_, h⟩ := ok_of_ite h
  split at h
  · split at h
    · cases h
      exact and_congr hleft hright
    · cases h
  · cases h
    exact and_congr hleft hright

theorem matched_fieldAction {name : String} (hleft : Matched left)
    (h : fieldAction T left name = .ok n) : Matched n := by
  unfold fieldAction at h
  split at h
  · cases h
    exact hleft
  · cases h

theorem matched_arrowAction {name : String} (hleft : Matched left)
    (h : arrowAction T left name = .ok n) : Matched n := by
  obtain ⟨_, h⟩ := ok_of_ite h
  obtain ⟨_, h⟩ := ok_of_ite h
  have hderef : Matched (.unaryOp { left.attrs with indirect := 0 } .deref left) := hleft
  exact matched_fieldAction hderef h

theorem matched_unaryAction {op : UnaryOp} (hleft : Matched left)
    (h : unaryAction op left = .ok n) : Matched n := by
  cases op with
  | neg =>
      obtain ⟨_, h⟩ := ok_of_ite h
      split at h <;> cases h <;> exact hleft
  | _ =>
      obtain ⟨_, hn⟩ := ok_of_ite h
      cases hn
      exact hleft

theorem matched_castAction (hleft : Matched left) (h : castAction a left = .ok n) : Matched n := by
  unfold castAction at h
  split at h
  next hcast =>
    cases h
    refine matched_type ?_ hleft
    obtain h | h | h | h | h := hcast
    · exact .inl h.1
    · exact .inl h.1
    · exact .inl h.1
    · obtain hk | hk := isInteger_iff.mp h.2.1 <;> exact .inr (by rw [hk]; rfl)
    · exact .inr h.1
  · cases h

theorem ok_of_bind {α β : Type} {x : Except String α} {f : α → Except String β} {b : β}
    (h : (x >>= f) = .ok b) : ∃ v, x = .ok v ∧ f v = .ok b := by
  cases x with
  | error e => cases h
  | ok v => exact ⟨v, rfl, h⟩

/-- Every tree that the actions build is matched: the operands are, and the action keeps it. -/
theorem matched_ast : ∀ (e : Expr) {n : AstNode}, e.ast T scope = .ok n → Matched n
  | .identifier name, n, h => by
      have hn : identifierAction T scope name = .ok n := h
      unfold identifierAction at hn
      split at hn <;> cases hn
      exact Iff.rfl
  | .constant c, n, h => by
      cases h
      cases c <;> exact Iff.rfl
  | .item object index, n, h => by
      obtain ⟨x, hx, h⟩ := ok_of_bind h
      obtain ⟨y, hy, h⟩ := ok_of_bind h
      exact matched_subscriptAction (matched_ast object hx) (matched_ast index hy) h
  | .field object name, n, h => by
      obtain ⟨x, hx, h⟩ := ok_of_bind h
      exact matched_fieldAction (matched_ast object hx) h
  | .arrow object name, n, h => by
      obtain ⟨x, hx, h⟩ := ok_of_bind h
      exact matched_arrowAction (matched_ast object hx) h
  | .plus operand, n, h => matched_ast operand h
  | .unaryOp op operand, n, h => by
      obtain ⟨x, hx, h⟩ := ok_of_bind h
      exact matched_unaryAction (matched_ast operand hx) h
  | .sizeofExpr operand, n, h => by
      obtain ⟨x, _, h⟩ := ok_of_bind h
      cases h
      exact Iff.rfl
  | .sizeofType type, n, h => by
      cases h
      exact Iff.rfl
  | .cast type operand, n, h => by
      obtain ⟨x, hx, h⟩ := ok_of_bind h
      exact matched_castAction (matched_ast operand hx) h
  | .binaryOp op left right, n, h => by
      obtain ⟨x, hx, h⟩ := ok_of_bind h
      obtain ⟨y, hy, h⟩ := ok_of_bind h
      exact matched_binaryAction (matched_ast left hx) (matched_ast right hy) h

end

/-! ## Accepted expressions -/

theorem bind_eq {α β : Type} {x : Eval α} {f : α → Eval β} {s s' : Status} {v : α}
    (h : x s = some (v, s')) : (x >>= f) s = f v s' := by
  change (x s).bind _ = _
  rw [h]
  rfl

theorem failed_eq {s : Status} (h : s.error = none) : failed s = some (false, s) := by
  change some (s.error.isSome, s) = _
  rw [h]
  rfl

theorem check_eq {x : Eval NodeValue} {s : Status} (h : s.error = none) : check x s = x s :=
  bind_eq (failed_eq h)

theorem check_failed {x : Eval NodeValue} {s : Status} (h : s.error ≠ none) :
    check x s = some (0, s) := by
  obtain ⟨msg, hmsg⟩ := Option.ne_none_iff_exists'.mp h
  have hfailed : failed s = some (true, s) := by
    change some (s.error.isSome, s) = _
    rw [hmsg]
    rfl
  exact bind_eq hfailed

theorem evaluateNode_signed_bitwise {env : Env} {step : Nat} {op : BinaryOp} {left right : AstNode}
    {flags : Flags} {v w : NodeValue} {s s₁ s₂ : Status} (hop : op.isBitwise)
    (hdirect : left.indirect = 0) (hsigned : left.typeKind = .signed ∨ right.typeKind = .signed)
    (hleft : evaluateNode env step left .noFlags s = some (v, s₁)) (h₁ : s₁.error = none)
    (hright : evaluateNode env step right .noFlags s₁ = some (w, s₂)) (h₂ : s₂.error = none) :
    evaluateNode env step (.binaryOp { typeKind := .unsigned, size := 8 } op left right) flags s =
      some (0, { s₂ with error := some "internal error", internal := true }) := by
  have hcase : signedCases op = none :=
    Option.not_isSome_iff_eq_none.mp (signed_lacks_bitwise hop)
  rw [evaluateNode, evaluateBinary, dispatch_bitwise hop hdirect, if_pos hsigned]
  change binOp (signedCases op) _ _ s = _
  rw [hcase, binOp, bind_eq hleft, check_eq h₁, bind_eq hright, check_eq h₂]
  rfl

/-- What an accepted expression needs for its value to be found without "internal error". -/
theorem exprParse_implemented_iff {T : Tables} {scope : Nat} {text : List Lexeme} {ast : AstNode}
    (h : ExprParse T scope text ast) :
    (ast.Implemented ∧ ∀ env id step r s,
      getEvalResult env id ast step {} = some (r, s) → s.internal = false) ↔ ast.UnsignedBits := by
  obtain ⟨tokens, e, _, _, hast⟩ := h
  constructor
  · rintro ⟨h, _⟩
    exact (matched_ast e hast).mp h
  · intro h
    have himplemented : ast.Implemented := (matched_ast e hast).mpr h
    refine ⟨himplemented, fun env id step r s hrun => ?_⟩
    have hfresh : Quiet {} := rfl
    have hquiet : Quiet s := keeps_run (himplemented.keeps_getEvalResult id) hfresh hrun
    exact hquiet

/-! ### Examples -/

/-- No types, no variables. -/
def noTables : Tables :=
  ⟨fun _ _ => none, fun _ _ => none, fun _ => none, fun _ => none, fun _ => none⟩

/-- A recording of nothing, for expressions of integer constants. -/
def noRecording : Env where
  floatOps := ⟨fun a _ => a, fun a _ => a, fun a _ => a, fun a _ => a, fun _ _ => false,
    fun _ _ => false, fun _ _ => false, id, id, id, id, fun _ => 0, fun _ => 0⟩
  mem := none
  heap := fun _ => 0
  curStep := 1
  varAddress := fun _ _ => none
  pointerSize := fun _ => .notFound
  typeSize := fun _ => none
  typeDetails := fun _ => none
  typeName := fun _ _ => ""
  varRef := fun _ _ _ _ => none
  literal := fun _ => 0
  dim := 0
  underKind := 0

/-- The text `1 & 2`. -/
def unsignedText : List Lexeme := [.constant (.integer 1), .symbol .amp, .constant (.integer 2)]

/-- The text `-1 & 1`. -/
def signedText : List Lexeme :=
  [.symbol .minus, .constant (.integer 1), .symbol .amp, .constant (.integer 1)]

def unsignedAst : AstNode :=
  .binaryOp { typeKind := .unsigned, size := 8 } .bitAnd (Constant.integer 1).node
    (Constant.integer 2).node

def signedAst : AstNode :=
  .binaryOp { typeKind := .unsigned, size := 8 } .bitAnd
    (.unaryOp { typeKind := .signed, size := 8 } .neg (Constant.integer 1).node)
    (Constant.integer 1).node

theorem exprParse_unsignedText : ExprParse noTables 0 unsignedText unsignedAst := by
  have hand : Derives .andExpression
      [.constant (.integer 1), .symbol .amp, .constant (.integer 2)]
      (.binaryOp .bitAnd (.constant (.integer 1)) (.constant (.integer 2))) :=
    Derives.binaryOp .bitAnd rfl ((Derives.constant _).ofPrimary _)
      ((Derives.constant _).ofPrimary _)
  exact ⟨_, _, rfl, hand.loosen 5 rfl, rfl⟩

theorem exprParse_signedText : ExprParse noTables 0 signedText signedAst := by
  have hneg : Derives .unaryExpression [.symbol .minus, .constant (.integer 1)]
      (.unaryOp .neg (.constant (.integer 1))) :=
    Derives.unaryOp .neg ((Derives.constant _).ofPrimary _)
  have hand : Derives .andExpression
      [.symbol .minus, .constant (.integer 1), .symbol .amp, .constant (.integer 1)]
      (.binaryOp .bitAnd (.unaryOp .neg (.constant (.integer 1))) (.constant (.integer 1))) :=
    Derives.binaryOp .bitAnd rfl (hneg.loosen 7 rfl) ((Derives.constant _).ofPrimary _)
  exact ⟨_, _, rfl, hand.loosen 5 rfl, rfl⟩

theorem exprParse_implemented_iff_unsigned :
    ExprParse noTables 0 unsignedText unsignedAst ∧ unsignedAst.UnsignedBits ∧
      unsignedAst.Implemented ∧ ∀ env id step r s,
        getEvalResult env id unsignedAst step {} = some (r, s) → s.internal = false := by
  have hbits : unsignedAst.UnsignedBits :=
    ⟨fun _ => ⟨fun h => (by cases h), fun h => (by cases h)⟩, trivial, trivial⟩
  have h := (exprParse_implemented_iff exprParse_unsignedText).mpr hbits
  exact ⟨exprParse_unsignedText, hbits, h.1, h.2⟩

/-- `-1 & 1` is accepted, and evaluating it is an internal error. -/
theorem signed_bitwise_internal_error :
    ¬ ∀ T scope text ast, ExprParse T scope text ast → ∀ env id step r s,
      getEvalResult env id ast step {} = some (r, s) → s.internal = false := by
  intro h
  have hrun : getEvalResult noRecording 1 signedAst 1 {} =
      some (none, { error := some "internal error", internal := true }) := by rfl
  have hquiet := h _ _ _ _ exprParse_signedText noRecording 1 1 _ _ hrun
  cases hquiet

end FlightRec.Expressions
