/-
# `FlightRec.Expressions.Logical` — `&&` and `||`

The two operators take numbers and pointers, in any combination.  `evaluate_node` has a
branch for them; but where the left operand is a pointer it has gone into pointer
arithmetic before it comes to that branch, and what is shown is a distance.  And whether an
operand is read as a `double` is decided by its kind alone, which for a pointer is that of
what it points to.

`logical_right_iff` has the operands for which the result is right.
-/
import FlightRec.Expressions.Lvalues

namespace FlightRec.Expressions

/-! ## What the result should be -/

/-- Whether a value is true in C. -/
def cTruth (F : FloatOps) (a : Attrs) (v : NodeValue) : Bool :=
  if a.indirect = 0 ∧ a.typeKind = .float then !F.eq 0 v else v != 0

/-- The left operand decides if it is true for `||`, and if it is not for `&&`. -/
def decides (op : BinaryOp) (truth : Bool) : Prop := truth = (op == .or)

instance (op : BinaryOp) (truth : Bool) : Decidable (decides op truth) :=
  inferInstanceAs (Decidable (_ = _))

/-- Specification of `&&` and `||`, by what their operands come to. -/
structure LogicalRight (env : Env) (step : Nat) (op : BinaryOp) (left right n : AstNode) :
    Prop where
  decided : ∀ flags s v s₁, evaluateNode env step left .noFlags s = some (v, s₁) →
    s₁.error = none → decides op (cTruth env.floatOps left.attrs v) →
    evaluateNode env step n flags s = some (ofBool (op == .or), s₁)
  undecided : ∀ flags s v s₁ w s₂, evaluateNode env step left .noFlags s = some (v, s₁) →
    s₁.error = none → ¬ decides op (cTruth env.floatOps left.attrs v) →
    evaluateNode env step right .noFlags s₁ = some (w, s₂) → s₂.error = none →
    evaluateNode env step n flags s = some (ofBool (cTruth env.floatOps right.attrs w), s₂)
  leftFails : ∀ flags s v s₁, evaluateNode env step left .noFlags s = some (v, s₁) →
    s₁.error ≠ none → ∃ u, evaluateNode env step n flags s = some (u, s₁)
  rightFails : ∀ flags s v s₁ w s₂, evaluateNode env step left .noFlags s = some (v, s₁) →
    s₁.error = none → ¬ decides op (cTruth env.floatOps left.attrs v) →
    evaluateNode env step right .noFlags s₁ = some (w, s₂) → s₂.error ≠ none →
    ∃ u, evaluateNode env step n flags s = some (u, s₂)

/-- The operands that the grammar accepts. -/
def Attrs.IsTruth (a : Attrs) : Prop := a.typeKind.isNumeric ∨ a.indirect ≠ 0

/-- A comparison with 0: only the two zeros are equal to it. -/
def FloatOps.ComparesZero (F : FloatOps) : Prop :=
  ∀ v, F.eq 0 v = true ↔ v = 0 ∨ v = BitVec.intMin 64

section
variable {T : Tables} {scope : Nat} {F : FloatOps} {env : Env} {step : Nat} {op : BinaryOp}
  {left right n : AstNode} {a : Attrs} {v : NodeValue} {x : Eval NodeValue} {s s₁ : Status}

theorem logicalAction_ok (hl : left.attrs.IsTruth) (hr : right.attrs.IsTruth) :
    logicalAction op left right =
      .ok (.binaryOp { typeKind := .unsigned, size := 8 } op left right) := by
  have hguard {m : AstNode} (hm : m.attrs.IsTruth) :
      (!m.typeKind.isNumeric && decide (m.indirect = 0)) = false := by
    obtain hnumeric | hpointer := hm
    · have hnumeric' : m.typeKind.isNumeric = true := hnumeric
      rw [hnumeric']
      rfl
    · have hpointer' : m.indirect ≠ 0 := hpointer
      rw [decide_eq_false hpointer', Bool.and_false]
  rw [logicalAction, hguard hl, hguard hr]
  rfl

theorem binaryAction_logical (hop : op = .and ∨ op = .or) :
    binaryAction op = logicalAction op := by
  obtain rfl | rfl := hop
  · rfl
  · rfl

theorem evaluateNode_logical {flags : Flags} (hop : op = .and ∨ op = .or)
    (hdirect : left.indirect = 0) :
    evaluateNode env step (.binaryOp a op left right) flags =
      logicalOp env.floatOps op left.attrs right.attrs (evaluateNode env step left .noFlags)
        (evaluateNode env step right .noFlags) := by
  rw [evaluateNode, evaluateBinary, dispatch_logical hdirect hop]

/-- The evaluator sees whether a value is true, unless it takes a pointer for a `double`. -/
theorem truth_eq_cTruth (h : a.indirect = 0 ∨ a.typeKind ≠ .float) :
    truth F a v = cTruth F a v := by
  unfold truth cTruth
  by_cases hfloat : a.typeKind = .float
  · rw [if_pos hfloat, if_pos ⟨h.resolve_right (not_not_intro hfloat), hfloat⟩]
  · rw [if_neg hfloat, if_neg (fun hboth => hfloat hboth.2)]

theorem logicalOp_undecided {la ra : Attrs} {y : Eval NodeValue} (hop : op = .and ∨ op = .or)
    (hleft : x s = some (v, s₁)) (hs₁ : s₁.error = none) (hnot : ¬ decides op (truth F la v)) :
    logicalOp F op la ra x y s = (do
      let w ← y
      check (return ofBool (truth F ra w)) : Eval NodeValue) s₁ := by
  rw [logicalOp, bind_eq hleft, check_eq hs₁]
  obtain rfl | rfl := hop
  · rw [if_neg (fun h => hnot h.2), if_neg (fun h => by cases h.1)]
  · rw [if_neg (fun h => by cases h.1), if_neg (fun h => hnot h.2)]

theorem logicalRight_of_direct (hop : op = .and ∨ op = .or) (hdirect : left.indirect = 0)
    (hright : right.indirect = 0 ∨ right.typeKind ≠ .float) :
    LogicalRight env step op left right (.binaryOp a op left right) := by
  have hl (v : NodeValue) : truth env.floatOps left.attrs v = cTruth env.floatOps left.attrs v :=
    truth_eq_cTruth (.inl hdirect)
  have hr (v : NodeValue) :
      truth env.floatOps right.attrs v = cTruth env.floatOps right.attrs v := truth_eq_cTruth hright
  refine ⟨?_, ?_, ?_, ?_⟩
  · intro flags s v s₁ hleft hs₁ hdecides
    rw [evaluateNode_logical hop hdirect, logicalOp, bind_eq hleft, check_eq hs₁, hl]
    obtain rfl | rfl := hop
    · rw [if_pos ⟨rfl, hdecides⟩]
      rfl
    · rw [if_neg (fun h => by cases h.1), if_pos ⟨rfl, hdecides⟩]
      rfl
  · intro flags s v s₁ w s₂ hleft hs₁ hnot hrun hs₂
    rw [← hl] at hnot
    rw [evaluateNode_logical hop hdirect, logicalOp_undecided hop hleft hs₁ hnot, bind_eq hrun,
      check_eq hs₂, hr]
    rfl
  · intro flags s v s₁ hleft hs₁
    refine ⟨0, ?_⟩
    rw [evaluateNode_logical hop hdirect, logicalOp, bind_eq hleft]
    exact check_failed hs₁
  · intro flags s v s₁ w s₂ hleft hs₁ hnot hrun hs₂
    refine ⟨0, ?_⟩
    rw [← hl] at hnot
    rw [evaluateNode_logical hop hdirect, logicalOp_undecided hop hleft hs₁ hnot, bind_eq hrun]
    exact check_failed hs₂

end

/-! ## Operands of all values -/

/-- A constant that a cast to the type leaves as it is. -/
def Attrs.constant (a : Attrs) (v : NodeValue) : Constant :=
  if a.indirect = 0 ∧ a.typeKind = .float then .floating v else .integer v

/-- An expression of the type with the value: a cast of a constant. -/
def Attrs.operand (a : Attrs) (v : NodeValue) : AstNode := .type a (a.constant v).node

/-- The operator, applied to two such operands. -/
def logicalNode (op : BinaryOp) (la ra : Attrs) (v w : NodeValue) : AstNode :=
  .binaryOp { typeKind := .unsigned, size := 8 } op (la.operand v) (ra.operand w)

section
variable {T : Tables} {scope : Nat} {F : FloatOps} {env : Env} {step : Nat} {op : BinaryOp}
  {a la ra : Attrs} {s : Status}

@[simp] theorem operand_attrs (a : Attrs) (v : NodeValue) : (a.operand v).attrs = a := rfl

theorem operand_ast (ha : a.IsTruth) (v : NodeValue) :
    (Expr.cast a (.constant (a.constant v))).ast T scope = .ok (a.operand v) := by
  have hkind : (a.constant v).node.typeKind.isNumeric = true := by
    unfold Attrs.constant
    split <;> rfl
  change castAction a (a.constant v).node = _
  rw [castAction, if_pos]
  · rfl
  · by_cases hpointer : a.indirect ≠ 0
    · exact .inr (.inr (.inl ⟨hpointer, hkind⟩))
    · exact .inr (.inr (.inr (.inr ⟨ha.resolve_right hpointer, hkind⟩)))

theorem castValue_constant (ha : a.IsTruth) (v : NodeValue) :
    castValue F a (a.constant v).node.attrs v = pure v := by
  unfold castValue Attrs.constant
  by_cases hdirect : a.indirect = 0
  · rw [if_neg (not_not_intro hdirect)]
    have hnumeric := isNumeric_iff.mp (ha.resolve_right (not_not_intro hdirect))
    obtain hk | hk | hk := hnumeric <;> simp [hk, hdirect, Constant.node, AstNode.attrs]
  · rw [if_pos hdirect]

theorem operand_run (ha : a.IsTruth) (v : NodeValue) (flags : Flags) (hs : s.error = none) :
    evaluateNode env step (a.operand v) flags s = some (v, s) := by
  have hconstant (flags : Flags) :
      evaluateNode env step (a.constant v).node flags s = some (v, s) := by
    unfold Attrs.constant
    split <;> rfl
  rw [Attrs.operand, evaluateNode, bind_eq (hconstant _), check_eq hs, castValue_constant ha]
  rfl

theorem logicalRight_operand (hop : op = .and ∨ op = .or) (hl : la.IsTruth) (hr : ra.IsTruth)
    (h : ∀ T scope x y left right n, x.ast T scope = .ok left → y.ast T scope = .ok right →
      (Expr.binaryOp op x y).ast T scope = .ok n → left.attrs = la → right.attrs = ra →
      ∀ env, env.floatOps = F → ∀ step, LogicalRight env step op left right n) (v w : NodeValue)
    {env : Env} (hF : env.floatOps = F) :
    LogicalRight env step op (la.operand v) (ra.operand w) (logicalNode op la ra v w) := by
  refine h noTables 0 _ _ _ _ _ (operand_ast hl v) (operand_ast hr w) ?_ rfl rfl env hF step
  rw [Expr.ast, operand_ast hl v, operand_ast hr w]
  change binaryAction op (la.operand v) (ra.operand w) = _
  rw [binaryAction_logical hop]
  exact logicalAction_ok hl hr

theorem pointerOp_operand (hop : op = .and ∨ op = .or) (hl : la.IsTruth) (hr : ra.IsTruth)
    (hpointer : la.indirect ≠ 0) (v w : NodeValue) :
    evaluateNode env step (logicalNode op la ra v w) .noFlags {} =
      if ra.typeKind = .signed then some (v - w * BitVec.ofNat 64 la.size, {})
      else if BitVec.ofNat 64 la.size = 0 then none
      else if (v - w) % BitVec.ofNat 64 la.size ≠ 0 then
        some (0, { error := some "Pointer difference isn't divisible by pointer size" })
      else some ((v - w) / BitVec.ofNat 64 la.size, {}) := by
  have hdispatch : dispatch { typeKind := .unsigned, size := 8 } op (la.operand v).attrs
      (ra.operand w).attrs = .pointer := if_pos hpointer
  have hguard : ¬ (¬ (op = .add ∧ (ra.operand w).attrs.typeKind = .signed) ∧
      (op = .sub ∧ ((ra.operand w).attrs.typeKind = .signed ∨
        (ra.operand w).attrs.indirect ≠ 0))) := by
    rintro ⟨_, hsub, _⟩
    obtain rfl | rfl := hop <;> cases hsub
  have hadd : op ≠ .add := by
    obtain rfl | rfl := hop <;> decide
  have hfresh : ({} : Status).error = none := rfl
  have hsize : (la.operand v).attrs.size = la.size := rfl
  have hkind : (ra.operand w).attrs.typeKind = ra.typeKind := rfl
  rw [logicalNode, evaluateNode, evaluateBinary, hdispatch]
  change pointerOp op _ _ _ _ _ = _
  rw [pointerOp, if_neg hguard, hsize, hkind]
  rw [bind_eq (operand_run hl v .noFlags hfresh), check_eq hfresh]
  by_cases hsigned : ra.typeKind = .signed
  · rw [if_pos hsigned, if_pos hsigned, bind_eq (operand_run hr w .noFlags hfresh),
      check_eq hfresh, if_neg hadd]
    rfl
  · rw [if_neg hsigned, if_neg hsigned, bind_eq (operand_run hr w .noFlags hfresh),
      check_eq hfresh]
    split
    · rfl
    · split <;> rfl

/-- Some distance is not the truth value, whatever the size. -/
theorem exists_wrong_distance (hop : op = .and ∨ op = .or) (hl : la.IsTruth) (hr : ra.IsTruth)
    (hpointer : la.indirect ≠ 0) : ∃ v : NodeValue, v ≠ 0 ∧
      evaluateNode env step (logicalNode op la ra v 0) .noFlags {} ≠
        some (ofBool (op == .or), {}) := by
  have htwo (b : Bool) : ofBool b ≠ 2 := by cases b <;> decide
  by_cases hsigned : ra.typeKind = .signed
  · refine ⟨2, by decide, ?_⟩
    rw [pointerOp_operand hop hl hr hpointer, if_pos hsigned]
    intro heq
    have hvalue := (Prod.mk.inj (Option.some.inj heq)).1
    have hplain : (2 : NodeValue) - 0 * BitVec.ofNat 64 la.size = 2 := by simp
    exact htwo _ (hplain.symm.trans hvalue).symm
  by_cases hone : BitVec.ofNat 64 la.size = 1
  · refine ⟨2, by decide, ?_⟩
    rw [pointerOp_operand hop hl hr hpointer, if_neg hsigned, hone]
    intro heq
    have hvalue := (Prod.mk.inj (Option.some.inj heq)).1
    exact htwo _ hvalue.symm
  · refine ⟨1, by decide, ?_⟩
    rw [pointerOp_operand hop hl hr hpointer, if_neg hsigned]
    generalize BitVec.ofNat 64 la.size = size at hone
    split
    · intro heq
      cases heq
    next hzero =>
      rw [if_pos]
      · intro heq
        cases (Prod.mk.inj (Option.some.inj heq)).2
      · -- 1 is no multiple of a size above it
        intro hmod
        have hnat := congrArg BitVec.toNat hmod
        have hpos : size.toNat ≠ 0 := fun h => hzero (BitVec.eq_of_toNat_eq h)
        have hsize : size.toNat ≠ 1 := fun h => hone (BitVec.eq_of_toNat_eq h)
        have hplain : ((1 : NodeValue) - 0).toNat = 1 := rfl
        rw [BitVec.toNat_umod, hplain, Nat.mod_eq_of_lt (by omega)] at hnat
        cases hnat

theorem cTruth_zero (hF : F.ComparesZero) : cTruth F a 0 = false := by
  unfold cTruth
  split
  · rw [(hF 0).mpr (.inl rfl)]
    rfl
  · rfl

theorem cTruth_one (hF : F.ComparesZero) : cTruth F a 1 = true := by
  unfold cTruth
  split
  · have hne : F.eq 0 1 ≠ true := fun h => ((hF 1).mp h).elim (by decide) (by decide)
    rw [Bool.eq_false_of_not_eq_true hne]
    rfl
  · rfl

theorem pointer_wrong (hF : env.floatOps.ComparesZero) (hop : op = .and ∨ op = .or)
    (hl : la.IsTruth) (hr : ra.IsTruth) (hpointer : la.indirect ≠ 0)
    (h : ∀ v w, LogicalRight env step op (la.operand v) (ra.operand w)
      (logicalNode op la ra v w)) : False := by
  obtain ⟨v, hv, hwrong⟩ : ∃ v : NodeValue, v ≠ 0 ∧
      evaluateNode env step (logicalNode op la ra v 0) .noFlags {} ≠
        some (ofBool (op == .or), {}) := exists_wrong_distance hop hl hr hpointer
  have htrue : cTruth env.floatOps la v = true := by
    rw [cTruth, if_neg (fun hboth => hpointer hboth.1), bne_iff_ne]
    exact hv
  have hzero : cTruth env.floatOps ra 0 = false := cTruth_zero hF
  have hleft : evaluateNode env step (la.operand v) .noFlags {} = some (v, {}) :=
    operand_run hl v .noFlags rfl
  refine hwrong ?_
  obtain rfl | rfl := hop
  · have hnot : ¬ decides .and (cTruth env.floatOps la v) := by
      rw [htrue]
      exact Bool.false_ne_true.symm
    have hrun := (h v 0).undecided .noFlags _ _ _ _ _ hleft rfl hnot
      (operand_run hr 0 .noFlags rfl) rfl
    rw [operand_attrs, hzero] at hrun
    exact hrun
  · exact (h v 0).decided .noFlags _ _ _ hleft rfl htrue

/-- -0 is no null pointer. -/
theorem float_pointer_wrong (hF : env.floatOps.ComparesZero) (hop : op = .and ∨ op = .or)
    (hl : la.IsTruth) (hr : ra.IsTruth) (hdirect : la.indirect = 0) (hpointer : ra.indirect ≠ 0)
    (hfloat : ra.typeKind = .float)
    (h : ∀ v w, LogicalRight env step op (la.operand v) (ra.operand w)
      (logicalNode op la ra v w)) : False := by
  obtain ⟨v, hnot⟩ : ∃ v, ¬ decides op (cTruth env.floatOps la v) := by
    obtain rfl | rfl := hop
    · exact ⟨1, by rw [cTruth_one hF]; exact Bool.false_ne_true.symm⟩
    · exact ⟨0, by rw [cTruth_zero hF]; exact Bool.false_ne_true⟩
  have hleft : evaluateNode env step (la.operand v) .noFlags {} = some (v, {}) :=
    operand_run hl v .noFlags rfl
  have hright : evaluateNode env step (ra.operand (BitVec.intMin 64)) .noFlags {} =
      some (BitVec.intMin 64, {}) := operand_run hr _ .noFlags rfl
  have hrun := (h v _).undecided .noFlags _ _ _ _ _ hleft rfl hnot hright rfl
  have htruth : truth env.floatOps la v = cTruth env.floatOps la v := truth_eq_cTruth (.inl hdirect)
  have hmisread : truth env.floatOps ra (BitVec.intMin 64) = false := by
    rw [truth, if_pos hfloat, (hF _).mpr (.inr rfl)]
    rfl
  have hread : cTruth env.floatOps ra (BitVec.intMin 64) = true := by
    rw [cTruth, if_neg (fun hboth => hpointer hboth.1)]
    rfl
  have hdirect' : (la.operand v).indirect = 0 := hdirect
  rw [← htruth] at hnot
  rw [operand_attrs, hread, logicalNode, evaluateNode_logical hop hdirect', operand_attrs,
    operand_attrs, logicalOp_undecided hop hleft rfl hnot, bind_eq hright, check_eq rfl] at hrun
  change some (ofBool (truth env.floatOps ra (BitVec.intMin 64)), _) = _ at hrun
  rw [hmisread] at hrun
  cases hrun

end

/-- **`&&` and `||`** are right for all operands of two types exactly if the left one is not
a pointer and the right one not a pointer to a floating point number. -/
theorem logical_right_iff {F : FloatOps} (hF : F.ComparesZero) {op : BinaryOp}
    (hop : op = .and ∨ op = .or) {la ra : Attrs} (hl : la.IsTruth) (hr : ra.IsTruth) :
    (∀ T scope x y left right n, x.ast T scope = .ok left → y.ast T scope = .ok right →
      (Expr.binaryOp op x y).ast T scope = .ok n → left.attrs = la → right.attrs = ra →
      ∀ env, env.floatOps = F → ∀ step, LogicalRight env step op left right n) ↔
      la.indirect = 0 ∧ (ra.indirect = 0 ∨ ra.typeKind ≠ .float) := by
  constructor
  · intro hall
    obtain ⟨env, hfloatOps⟩ : ∃ env : Env, env.floatOps = F :=
      ⟨{ noRecording with floatOps := F }, rfl⟩
    have hright (v w : NodeValue) : LogicalRight env 1 op (la.operand v) (ra.operand w) _ :=
      logicalRight_operand hop hl hr hall v w hfloatOps
    have hdirect : la.indirect = 0 := by
      by_contra hpointer
      exact pointer_wrong (hfloatOps ▸ hF) hop hl hr hpointer hright
    refine ⟨hdirect, ?_⟩
    by_contra hfloat
    rw [not_or, not_not] at hfloat
    exact float_pointer_wrong (hfloatOps ▸ hF) hop hl hr hdirect hfloat.1 hfloat.2 hright
  · rintro ⟨hdirect, hnumber⟩ T scope x y left right n hx hy hn rfl rfl env - step
    rw [Expr.ast, hx, hy] at hn
    change binaryAction op left right = _ at hn
    rw [binaryAction_logical hop] at hn
    obtain ⟨_, hn⟩ := ok_of_ite hn
    cases hn
    exact logicalRight_of_direct hop hdirect hnumber

/-! ### Example -/

/-- A comparison of bits, for which the two zeros are one. -/
def bitwiseOps : FloatOps :=
  { noRecording.floatOps with
    eq := fun a b => a == b || (a.setWidth 63 == 0 && b.setWidth 63 == 0) }

theorem bitwiseOps_comparesZero : bitwiseOps.ComparesZero := by
  intro v
  have hzero : v.setWidth 63 = 0 ↔ v = 0 ∨ v = BitVec.intMin 64 := by
    simp only [BitVec.toNat_eq, BitVec.toNat_setWidth, BitVec.toNat_intMin]
    have := v.isLt
    simp only [BitVec.ofNat_eq_ofNat, BitVec.toNat_ofNat]
    omega
  change (0 == v || ((0 : NodeValue).setWidth 63 == 0 && v.setWidth 63 == 0)) = true ↔ _
  rw [Bool.or_eq_true, Bool.and_eq_true, beq_iff_eq, beq_iff_eq, beq_iff_eq, hzero]
  constructor
  · rintro (rfl | ⟨_, h⟩)
    · exact .inl rfl
    · exact h
  · intro h
    exact .inr ⟨rfl, h⟩

/-- An `int` and a pointer to one. -/
theorem logical_right_iff_int :
    (⟨5, .signed, 4, 0⟩ : Attrs).IsTruth ∧ (⟨5, .signed, 4, 1⟩ : Attrs).IsTruth ∧
    ∀ T scope x y left right n, x.ast T scope = .ok left → y.ast T scope = .ok right →
      (Expr.binaryOp .and x y).ast T scope = .ok n → left.attrs = ⟨5, .signed, 4, 0⟩ →
      right.attrs = ⟨5, .signed, 4, 1⟩ → ∀ env, env.floatOps = bitwiseOps → ∀ step,
        LogicalRight env step .and left right n :=
  ⟨.inl rfl, .inl rfl, (logical_right_iff bitwiseOps_comparesZero (.inl rfl) (.inl rfl)
    (.inl rfl)).mpr ⟨rfl, .inr (by decide)⟩⟩

/-- `p && 1` with the pointer `p` of `lvalueTables`, which is not null: both operands are true,
and the result is an error. -/
theorem pointer_and_number_fails :
    ∃ left right n, (Expr.identifier "p").ast lvalueTables 0 = .ok left ∧
      (Expr.constant (.integer 1)).ast lvalueTables 0 = .ok right ∧
      (Expr.binaryOp .and (.identifier "p") (.constant (.integer 1))).ast lvalueTables 0 = .ok n ∧
      evaluateNode lvalueRecording 1 left .noFlags {} = some (88, {}) ∧
      evaluateNode lvalueRecording 1 right .noFlags {} = some (1, {}) ∧
      evaluateNode lvalueRecording 1 n .noFlags {} =
        some (0, { error := some "Pointer difference isn't divisible by pointer size" }) ∧
      ¬ LogicalRight lvalueRecording 1 .and left right n := by
  refine ⟨_, _, _, rfl, rfl, rfl, by rfl, by rfl, by rfl, ?_⟩
  intro h
  have hrun := h.undecided .noFlags {} 88 {} 1 {} (by rfl) rfl (by decide) (by rfl) rfl
  cases hrun

end FlightRec.Expressions
