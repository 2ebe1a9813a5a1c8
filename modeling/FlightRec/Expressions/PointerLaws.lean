/-
# `FlightRec.Expressions.PointerLaws` — what is taken from a pointer

The parser builds a difference for a pointer and an integer, and for two pointers of the
same type, and `evaluate_node` has a branch for either.  In front of them stands a guard
against anything else, `!(p + integer) && !!(p - (integer or pointer))`.  The second
negation is one too many: the guard stops the differences that the parser builds, and
nothing else.  So no pointer difference is ever evaluated (`subtraction_rejected`), and the
laws `(p + n) - n = p`, `(p + n) - p = n` and `(p + n) - (p + m) = n - m` hold for no `p`
(`pointer_laws_never`).
-/
import FlightRec.Expressions.Lvalues

namespace FlightRec.Expressions

variable {T : Tables} {scope : Nat} {env : Env} {step : Nat} {left right n : AstNode}

/-- The node reports an error wherever it is asked for. -/
def Rejected (env : Env) (step : Nat) (n : AstNode) : Prop :=
  ∀ flags s, evaluateNode env step n flags s =
    some (0, { s with error := some "Invalid operator or second operand type for pointer math" })

/-- The action of `'-'` gives a node that the guard stops. -/
theorem subtraction_rejected (hpointer : left.indirect ≠ 0)
    (h : subtractionAction left right = .ok n) : Rejected env step n := by
  have reject {a : Attrs} {offset : AstNode}
      (hoffset : offset.typeKind = .signed ∨ offset.indirect ≠ 0) :
      Rejected env step (.binaryOp a .sub left offset) := by
    intro flags s
    have hguard : ¬ (BinaryOp.sub = .add ∧ offset.attrs.typeKind = .signed) ∧
        (BinaryOp.sub = .sub ∧ (offset.attrs.typeKind = .signed ∨ offset.attrs.indirect ≠ 0)) :=
      ⟨fun hadd => BinaryOp.noConfusion hadd.1, rfl, hoffset⟩
    have hdispatch : dispatch a .sub left.attrs offset.attrs = .pointer := if_pos hpointer
    rw [evaluateNode, evaluateBinary, hdispatch]
    change pointerOp .sub left.attrs offset.attrs _ _ s = _
    rw [pointerOp, if_pos hguard]
    rfl
  unfold subtractionAction at h
  rw [if_pos hpointer] at h
  split at h
  · rename_i hright
    obtain ⟨_, h⟩ := ok_of_ite h
    cases h
    exact reject (.inr hright)
  · split at h
    · cases h
      refine reject (.inl ?_)
      unfold pointerOffset
      split
      · rfl
      · rename_i hsigned
        exact not_not.mp hsigned
    · cases h

theorem not_evaluates (h : Rejected env step n) (v : NodeValue) : ¬ Evaluates env step n v := by
  rintro ⟨s, hrun, hs⟩
  rw [h] at hrun
  cases hrun
  cases hs

theorem not_shows (h : Rejected env step n) (id : Nat) (r : EvalResult) :
    ¬ Shows env id step n r := by
  have hnode (flags : Flags) : evaluateNode env step n flags = fail _ := funext (h flags)
  rintro ⟨s, hrun⟩
  unfold getEvalResult at hrun
  rw [hnode, hnode] at hrun
  split at hrun
  next => cases hrun
  next =>
    generalize (if n.typeOffset = 0 then some (env.dim, env.underKind)
      else env.typeDetails n.typeOffset) = details at hrun
    cases details with
    | none => cases hrun
    | some details =>
        dsimp only at hrun
        split at hrun
        next => cases hrun
        next =>
          split at hrun
          next => cases hrun
          next => cases hrun

/-! ## The laws -/

/-- An integer expression. -/
def AstNode.isOffset (n : AstNode) : Prop := n.indirect = 0 ∧ n.typeKind.isInteger = true

/-- The expression is accepted, but has no value and is not shown. -/
def AcceptedInVain (T : Tables) (scope : Nat) (env : Env) (step : Nat) (e : Expr) : Prop :=
  ∃ n, e.ast T scope = .ok n ∧ (∀ v, ¬ Evaluates env step n v) ∧ ∀ id r, ¬ Shows env id step n r

theorem additionAction_ok (hpointer : left.indirect ≠ 0) (hoffset : right.isOffset) :
    additionAction left right = .ok (.binaryOp left.attrs .add left (pointerOffset right)) := by
  obtain ⟨hdirect, hinteger⟩ := hoffset
  rw [additionAction, if_pos hpointer, if_neg]
  simp [hdirect, hinteger]

theorem subtractionAction_ok (hleft : left.indirect ≠ 0) (hright : right.indirect ≠ 0)
    (hindirect : left.indirect = right.indirect) (hsize : left.size = right.size) :
    ∃ n, subtractionAction left right = .ok n := by
  rw [subtractionAction, if_pos hleft, if_pos hright, if_neg]
  · exact ⟨_, rfl⟩
  · exact not_or.mpr ⟨not_not.mpr hindirect, not_not.mpr hsize⟩

theorem acceptedInVain_sub {x y : Expr} (hx : x.ast T scope = .ok left)
    (hy : y.ast T scope = .ok right) (hpointer : left.indirect ≠ 0)
    (h : ∃ n, subtractionAction left right = .ok n) :
    AcceptedInVain T scope env step (.binaryOp .sub x y) := by
  obtain ⟨n, h⟩ := h
  have hast : (Expr.binaryOp .sub x y).ast T scope = .ok n := by
    rw [Expr.ast, hx, hy]
    exact h
  have hrejected : Rejected env step n := subtraction_rejected hpointer h
  exact ⟨n, hast, not_evaluates hrejected, not_shows hrejected⟩

/-- **Pointer arithmetic laws.**  For every pointer expression and all integer expressions
the three differences are accepted, and none is ever evaluated without an error. -/
theorem pointer_laws_never (T : Tables) (scope : Nat) (env : Env) (step : Nat) {p n m : Expr}
    {object offset offset' : AstNode} (hp : p.ast T scope = .ok object)
    (hn : n.ast T scope = .ok offset) (hm : m.ast T scope = .ok offset')
    (hpointer : object.indirect ≠ 0) (hoffset : offset.isOffset) (hoffset' : offset'.isOffset) :
    AcceptedInVain T scope env step (.binaryOp .sub (.binaryOp .add p n) n) ∧
      AcceptedInVain T scope env step (.binaryOp .sub (.binaryOp .add p n) p) ∧
      AcceptedInVain T scope env step
        (.binaryOp .sub (.binaryOp .add p n) (.binaryOp .add p m)) := by
  have sum {x : Expr} {k : AstNode} (hx : x.ast T scope = .ok k) (hk : k.isOffset) :
      (Expr.binaryOp .add p x).ast T scope =
        .ok (.binaryOp object.attrs .add object (pointerOffset k)) := by
    rw [Expr.ast, hp, hx]
    exact additionAction_ok hpointer hk
  -- the sums have the type of `p`
  have hleft : (AstNode.binaryOp object.attrs .add object (pointerOffset offset)).indirect ≠ 0 :=
    hpointer
  refine ⟨acceptedInVain_sub (sum hn hoffset) hn hleft ?_,
    acceptedInVain_sub (sum hn hoffset) hp hleft ?_,
    acceptedInVain_sub (sum hn hoffset) (sum hm hoffset') hleft ?_⟩
  · rw [subtractionAction, if_pos hleft, if_neg (not_not.mpr hoffset.1), if_pos hoffset.2]
    exact ⟨_, rfl⟩
  · exact subtractionAction_ok hleft hpointer rfl rfl
  · exact subtractionAction_ok hleft hpointer rfl rfl

/-! ### Example -/

/-- `p` with the integers 3 and 1, for the `int *p` of `lvalueTables`. -/
theorem pointer_laws_never_int :
    AcceptedInVain lvalueTables 0 lvalueRecording 1
      (.binaryOp .sub (.binaryOp .add (.identifier "p") (.constant (.integer 3)))
        (.constant (.integer 3))) ∧
    AcceptedInVain lvalueTables 0 lvalueRecording 1
      (.binaryOp .sub (.binaryOp .add (.identifier "p") (.constant (.integer 3)))
        (.identifier "p")) ∧
    AcceptedInVain lvalueTables 0 lvalueRecording 1
      (.binaryOp .sub (.binaryOp .add (.identifier "p") (.constant (.integer 3)))
        (.binaryOp .add (.identifier "p") (.constant (.integer 1)))) :=
  pointer_laws_never lvalueTables 0 lvalueRecording 1 rfl rfl rfl (by decide)
    ⟨rfl, rfl⟩ ⟨rfl, rfl⟩

/-- The pointer `p` has the value 88, and `(p + 3) - 3` has not. -/
theorem there_and_back_fails :
    (∃ n, (Expr.identifier "p").ast lvalueTables 0 = .ok n ∧ Evaluates lvalueRecording 1 n 88) ∧
    ∃ n, (Expr.binaryOp .sub (.binaryOp .add (.identifier "p") (.constant (.integer 3)))
      (.constant (.integer 3))).ast lvalueTables 0 = .ok n ∧
        ¬ Evaluates lvalueRecording 1 n 88 := by
  refine ⟨⟨_, rfl, ?_⟩, ⟨_, rfl, ?_⟩⟩
  · exact ⟨{}, by rfl, rfl⟩
  · rintro ⟨s, hrun, hs⟩
    cases hrun

end FlightRec.Expressions
