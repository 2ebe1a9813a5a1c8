/-
# `FlightRec.Expressions.MemCursor` — which evaluations read the client's memory

`get_var_value` opens the cursor on table `mem` when it is first called, and
`get_pointer_size` uses that cursor and opens none.  What it answers for an address
that is no heap block depends on whether memory has been read before, by this
expression or an earlier one.

To `evaluate_node` the answers without a size are all one: the check of a subscript
passes over them (`evaluateNode_alike`).  Whether it reads memory on its way is
`readsMemory`, which follows its control flow.
-/
import FlightRec.Expressions.Members

namespace FlightRec.Expressions

/-! ## Calls of `var_value` -/

/-- Whether memory is read after `x`, if there is an after. -/
def thenReads {α : Type} (x : Eval α) (s : Status) (next : α → Status → Bool) : Bool :=
  match x s with
  | some (a, s') => next a s'
  | none => false

/-- The right operand is evaluated, when the left one has the value. -/
def rightNeeded (F : FloatOps) (a : Attrs) (op : BinaryOp) (la ra : Attrs) (left : NodeValue) :
    Bool :=
  match dispatch a op la ra with
  | .logical => !((op = .and && !truth F la left) || (op = .or && truth F la left))
  | _ => true

/-- The operands are looked at. -/
def operandsNeeded (a : Attrs) (op : BinaryOp) (la ra : Attrs) : Bool :=
  dispatch a op la ra ≠ .pointer || !pointerRejects op ra

/-- `evaluate_node` calls `var_value`. -/
def AstNode.readsMemory (env : Env) (step : Nat) : AstNode → Flags → Status → Bool
  | .int .., _, _ | .float .., _, _ | .string .., _, _ => false
  | .var _ _ id, flags, _ => (env.varAddress id step).isSome && flags = .noFlags
  | .field _ object _ _, flags, s =>
      object.readsMemory env step .addr s ||
        thenReads (evaluateNode env step object .addr) s fun _ s =>
          s.error.isNone && flags = .noFlags
  | .item _ object member, flags, s =>
      let objectFlags := if object.indirect ≠ 0 then .noFlags else .addr
      object.readsMemory env step objectFlags s ||
        thenReads (evaluateNode env step object objectFlags) s fun addr s =>
          s.error.isNone && (member.readsMemory env step .noFlags s ||
            thenReads (evaluateNode env step member .noFlags) s fun index s =>
              thenReads (itemBounds env object.attrs addr index) s fun _ _ => flags = .noFlags)
  | .unaryOp _ .addr left, _, s => left.readsMemory env step .addr s
  | .unaryOp _ .deref left, flags, s =>
      left.readsMemory env step .noFlags s ||
        thenReads (evaluateNode env step left .noFlags) s fun _ _ => flags = .noFlags
  | .unaryOp _ _ left, _, s => left.readsMemory env step .noFlags s
  | .binaryOp a op left right, _, s =>
      operandsNeeded a op left.attrs right.attrs &&
        (left.readsMemory env step .noFlags s ||
          thenReads (evaluateNode env step left .noFlags) s fun v s =>
            s.error.isNone && rightNeeded env.floatOps a op left.attrs right.attrs v &&
              right.readsMemory env step .noFlags s)
  | .type _ operand, _, s =>
      operand.readsMemory env step (if isAggregate operand.typeKind then .addr else .noFlags) s

/-! ## What evaluation does not depend on -/

/-- Answers that the check of a subscript passes over. -/
def PointerSize.Unbounded : PointerSize → Prop
  | .size bytes => bytes = 0
  | .released => False
  | .notFound | .failure => True

/-- One recording, seen by requests that put their literals and references elsewhere and
find the cursor open or not. -/
structure Env.Alike (env env' : Env) : Prop where
  eq : env' = { env with
    literal := env'.literal, varRef := env'.varRef, pointerSize := env'.pointerSize }
  pointerSize : ∀ p, env'.pointerSize p = env.pointerSize p ∨
    (env'.pointerSize p).Unbounded ∧ (env.pointerSize p).Unbounded

/-- The string literals of the tree lie at the same addresses. -/
def AstNode.LiteralsAgree (literal literal' : String → NodeValue) (n : AstNode) : Prop :=
  n.Every fun m => ∀ a v, m = .string a v → literal' v = literal v

theorem AstNode.literalsAgree_refl (literal : String → NodeValue) (n : AstNode) :
    n.LiteralsAgree literal literal := by
  unfold LiteralsAgree
  induction n with
  | int => exact fun _ _ _ => rfl
  | float => exact fun _ _ _ => rfl
  | string => exact fun _ _ _ => rfl
  | var => exact fun _ _ _ => rfl
  | field _ _ _ _ ih => exact ⟨fun _ _ _ => rfl, ih⟩
  | item _ _ _ ihobject ihmember => exact ⟨fun _ _ _ => rfl, ihobject, ihmember⟩
  | unaryOp _ _ _ ih => exact ⟨fun _ _ _ => rfl, ih⟩
  | binaryOp _ _ _ _ ihleft ihright => exact ⟨fun _ _ _ => rfl, ihleft, ihright⟩
  | type _ _ ih => exact ⟨fun _ _ _ => rfl, ih⟩

section
variable {env env' : Env} {step : Nat}

theorem itemBounds_unbounded {object : Attrs} {addr index : NodeValue}
    (h : (env.pointerSize addr).Unbounded) : itemBounds env object addr index =
      match env.typeSize object.typeOffset with
      | none => fail "Error getting array size"
      | some (_, dim) =>
          if dim = 0 ∨ object.indirect ≠ 0 then return 0
          else if dim ≤ index then fail "Array access out of bounds" else return 0 := by
  unfold itemBounds
  cases env.typeSize object.typeOffset with
  | none => rfl
  | some info =>
      obtain ⟨size, dim⟩ := info
      dsimp only
      split
      · cases hsize : env.pointerSize addr with
        | size bytes =>
            rw [hsize] at h
            exact if_pos h
        | released =>
            rw [hsize] at h
            cases h
        | notFound => rfl
        | failure => rfl
      · rfl

theorem itemBounds_alike (h : env.Alike env') {object : Attrs} {addr index : NodeValue} :
    itemBounds env' object addr index = itemBounds env object addr index := by
  have htype : env'.typeSize = env.typeSize := by rw [h.eq]
  rcases h.pointerSize addr with hsame | ⟨hopen, hclosed⟩
  · unfold itemBounds
    rw [htype, hsame]
  · rw [itemBounds_unbounded hopen, itemBounds_unbounded hclosed, htype]

theorem lvalue_alike (h : env.Alike env') {a : Attrs} {addr : NodeValue} {flags : Flags} :
    lvalue env' a addr step flags = lvalue env a addr step flags := by
  rw [h.eq]
  rfl

/-- But for its literals the value of a tree is found in the recording alone. -/
theorem evaluateNode_alike (h : env.Alike env') : ∀ {n : AstNode} {flags : Flags},
    n.LiteralsAgree env.literal env'.literal →
    evaluateNode env' step n flags = evaluateNode env step n flags
  | .int .., _, _ => rfl
  | .float .., _, _ => rfl
  | .string a v, _, hlit => by
      simp only [evaluateNode, hlit a v rfl]
  | .var a _ id, flags, _ => by
      have haddress : env'.varAddress = env.varAddress := by rw [h.eq]
      simp only [evaluateNode, haddress, lvalue_alike h]
  | .field a object _ start, flags, hlit => by
      simp only [evaluateNode, evaluateNode_alike h hlit.2, lvalue_alike h]
  | .item a object member, flags, hlit => by
      simp only [evaluateNode, evaluateNode_alike h hlit.2.1, evaluateNode_alike h hlit.2.2,
        itemBounds_alike h, lvalue_alike h]
  | .unaryOp a op left, flags, hlit => by
      cases op <;> simp only [evaluateNode, evaluateNode_alike h hlit.2, lvalue_alike h]
  | .binaryOp a op left right, flags, hlit => by
      have hfloat : env'.floatOps = env.floatOps := by rw [h.eq]
      simp only [evaluateNode, evaluateNode_alike h hlit.2.1, evaluateNode_alike h hlit.2.2,
        hfloat]
  | .type a operand, flags, hlit => by
      have hfloat : env'.floatOps = env.floatOps := by rw [h.eq]
      simp only [evaluateNode, evaluateNode_alike h hlit.2, hfloat]

theorem readsMemory_alike (h : env.Alike env') : ∀ {n : AstNode} {flags : Flags} {s : Status},
    n.LiteralsAgree env.literal env'.literal →
    n.readsMemory env' step flags s = n.readsMemory env step flags s
  | .int .., _, _, _ => rfl
  | .float .., _, _, _ => rfl
  | .string .., _, _, _ => rfl
  | .var a _ id, flags, s, _ => by
      have haddress : env'.varAddress = env.varAddress := by rw [h.eq]
      simp only [AstNode.readsMemory, haddress]
  | .field a object _ start, flags, s, hlit => by
      simp only [AstNode.readsMemory, readsMemory_alike h hlit.2, evaluateNode_alike h hlit.2]
  | .item a object member, flags, s, hlit => by
      simp only [AstNode.readsMemory, readsMemory_alike h hlit.2.1,
        readsMemory_alike h hlit.2.2, evaluateNode_alike h hlit.2.1,
        evaluateNode_alike h hlit.2.2, itemBounds_alike h]
  | .unaryOp a op left, flags, s, hlit => by
      cases op <;> simp only [AstNode.readsMemory, readsMemory_alike h hlit.2,
        evaluateNode_alike h hlit.2]
  | .binaryOp a op left right, flags, s, hlit => by
      have hfloat : env'.floatOps = env.floatOps := by rw [h.eq]
      simp only [AstNode.readsMemory, readsMemory_alike h hlit.2.1,
        readsMemory_alike h hlit.2.2, evaluateNode_alike h hlit.2.1, hfloat]
  | .type a operand, flags, s, hlit => by
      simp only [AstNode.readsMemory, readsMemory_alike h hlit.2]

end

/-! ## What `readsMemory` says -/

section
variable {env : Env} {step : Nat}

theorem bind_congr_run {α β : Type} {x y : Eval α} {f g : α → Eval β} {s : Status}
    (hx : x s = y s) (hf : ∀ a s₁, y s = some (a, s₁) → f a s₁ = g a s₁) :
    (x >>= f) s = (y >>= g) s := by
  change (x s).bind _ = (y s).bind _
  rw [hx]
  cases hy : y s with
  | none => rfl
  | some r => exact hf r.1 r.2 hy

theorem check_congr {x y : Eval NodeValue} {s : Status} (h : s.error = none → x s = y s) :
    check x s = check y s := by
  cases hs : s.error with
  | none => rw [check_eq hs, check_eq hs, h hs]
  | some msg =>
      have hfailed : s.error ≠ none := by
        rw [hs]
        nofun
      rw [check_failed hfailed, check_failed hfailed]

theorem ite_congr_run {α : Type} {c : Prop} [Decidable c] {x y x' y' : Eval α} {s : Status}
    (hx : c → x s = x' s) (hy : ¬ c → y s = y' s) :
    (if c then x else y) s = (if c then x' else y') s := by
  split
  next h => exact hx h
  next h => exact hy h

theorem thenReads_eq_false {α : Type} {x : Eval α} {s s₁ : Status} {a : α}
    {next : α → Status → Bool} (h : thenReads x s next = false) (hx : x s = some (a, s₁)) :
    next a s₁ = false := by
  rw [thenReads, hx] at h
  exact h

theorem lvalue_unread (mem : Option (List MemMsg)) {a : Attrs} {addr : NodeValue} {flags : Flags}
    (h : decide (flags = .noFlags) = false) :
    lvalue { env with mem } a addr step flags = lvalue env a addr step flags := by
  cases flags with
  | noFlags => cases h
  | addr => rfl

theorem evaluateBinary_congr {F : FloatOps} {a la ra : Attrs} {op : BinaryOp}
    {x x' y y' : Eval NodeValue} {s : Status}
    (hx : operandsNeeded a op la ra = true → x s = x' s)
    (hy : operandsNeeded a op la ra = true → ∀ v s₁, x' s = some (v, s₁) → s₁.error = none →
      rightNeeded F a op la ra v = true → y s₁ = y' s₁) :
    evaluateBinary F a op la ra x y s = evaluateBinary F a op la ra x' y' s := by
  have hbinOp (case : Option (NodeValue → NodeValue → Eval NodeValue))
      (hpointer : dispatch a op la ra ≠ .pointer) (hlogical : dispatch a op la ra ≠ .logical) :
      binOp case x y s = binOp case x' y' s := by
    have hneeded : operandsNeeded a op la ra = true := by
      simp [operandsNeeded, hpointer]
    have hright (v : NodeValue) : rightNeeded F a op la ra v = true := by
      unfold rightNeeded
      split
      next h => exact absurd h hlogical
      next => rfl
    exact bind_congr_run (hx hneeded) fun v s₁ hrun => check_congr fun hs₁ =>
      bind_congr_run (hy hneeded v s₁ hrun hs₁ (hright v)) fun _ _ _ => rfl
  unfold evaluateBinary
  cases hdispatch : dispatch a op la ra with
  | pointer =>
      refine ite_congr_run (fun _ => rfl) fun hrejects => ?_
      have hneeded : operandsNeeded a op la ra = true := by
        have hnot : ¬ pointerRejects op ra := hrejects
        simp [operandsNeeded, hnot]
      have hright : ∀ v, rightNeeded F a op la ra v = true := by
        simp [rightNeeded, hdispatch]
      refine bind_congr_run (hx hneeded) fun v s₁ hrun => check_congr fun hs₁ => ?_
      have hsame := hy hneeded v s₁ hrun hs₁ (hright v)
      exact ite_congr_run (fun _ => bind_congr_run hsame fun _ _ _ => rfl)
        fun _ => bind_congr_run hsame fun _ _ _ => rfl
  | logical =>
      have hneeded : operandsNeeded a op la ra = true := by
        simp [operandsNeeded, hdispatch]
      refine bind_congr_run (hx hneeded) fun v s₁ hrun => check_congr fun hs₁ => ?_
      refine ite_congr_run (fun _ => rfl) fun hand => ite_congr_run (fun _ => rfl) fun hor => ?_
      have hright : rightNeeded F a op la ra v = true := by
        simp only [rightNeeded, hdispatch, Bool.not_eq_true', Bool.or_eq_false_iff]
        cases htruth : truth F la v with
        | false => exact ⟨by simpa [htruth] using hand, by simp⟩
        | true => exact ⟨by simp, by simpa [htruth] using hor⟩
      exact bind_congr_run (hy hneeded v s₁ hrun hs₁ hright) fun _ _ _ => rfl
  | float => exact hbinOp _ (by simp [hdispatch]) (by simp [hdispatch])
  | signed => exact hbinOp _ (by simp [hdispatch]) (by simp [hdispatch])
  | unsigned => exact hbinOp _ (by simp [hdispatch]) (by simp [hdispatch])

/-- Where `var_value` is not called, it does not matter what memory was. -/
theorem evaluateNode_unread (mem : Option (List MemMsg)) : ∀ {n : AstNode} {flags : Flags}
    {s : Status}, n.readsMemory env step flags s = false →
    evaluateNode { env with mem } step n flags s = evaluateNode env step n flags s
  | .int .., _, _, _ => rfl
  | .float .., _, _, _ => rfl
  | .string .., _, _, _ => rfl
  | .var a _ id, flags, s, h => by
      rw [AstNode.readsMemory] at h
      simp only [evaluateNode]
      cases haddr : env.varAddress id step with
      | none => rfl
      | some addr =>
          rw [haddr, Option.isSome_some, Bool.true_and] at h
          exact congrFun (lvalue_unread mem h) s
  | .field a object _ start, flags, s, h => by
      rw [AstNode.readsMemory, Bool.or_eq_false_iff] at h
      simp only [evaluateNode]
      refine bind_congr_run (evaluateNode_unread mem h.1) fun addr s₁ hrun =>
        check_congr fun hs₁ => ?_
      have hread := thenReads_eq_false h.2 hrun
      rw [hs₁, Option.isNone_none, Bool.true_and] at hread
      exact congrFun (lvalue_unread mem hread) s₁
  | .item a object member, flags, s, h => by
      rw [AstNode.readsMemory, Bool.or_eq_false_iff] at h
      simp only [evaluateNode]
      refine bind_congr_run (evaluateNode_unread mem h.1) fun addr s₁ hrun =>
        check_congr fun hs₁ => ?_
      have hread := thenReads_eq_false h.2 hrun
      rw [hs₁, Option.isNone_none, Bool.true_and, Bool.or_eq_false_iff] at hread
      refine bind_congr_run (evaluateNode_unread mem hread.1) fun index s₂ hindex => ?_
      refine bind_congr_run rfl fun _ s₃ hbounds => ?_
      exact congrFun (lvalue_unread mem
        (thenReads_eq_false (thenReads_eq_false hread.2 hindex) hbounds)) s₃
  | .unaryOp a op left, flags, s, h => by
      cases op with
      | addr =>
          simp only [evaluateNode]
          exact evaluateNode_unread mem h
      | deref =>
          rw [AstNode.readsMemory, Bool.or_eq_false_iff] at h
          simp only [evaluateNode]
          refine bind_congr_run (evaluateNode_unread mem h.1) fun addr s₁ hrun => ?_
          exact congrFun (lvalue_unread mem (thenReads_eq_false h.2 hrun)) s₁
      | _ =>
          simp only [evaluateNode]
          exact bind_congr_run (evaluateNode_unread mem h) fun _ _ _ => rfl
  | .binaryOp a op left right, flags, s, h => by
      rw [AstNode.readsMemory] at h
      simp only [evaluateNode]
      have hboth (hneeded : operandsNeeded a op left.attrs right.attrs = true) := by
        rw [hneeded, Bool.true_and, Bool.or_eq_false_iff] at h
        exact h
      refine evaluateBinary_congr (fun hneeded => evaluateNode_unread mem (hboth hneeded).1) ?_
      intro hneeded v s₁ hrun hs₁ hright
      have hread := thenReads_eq_false (hboth hneeded).2 hrun
      rw [hs₁, hright, Option.isNone_none, Bool.true_and, Bool.true_and] at hread
      exact evaluateNode_unread mem hread
  | .type a operand, flags, s, h => by
      simp only [evaluateNode]
      exact bind_congr_run (evaluateNode_unread mem h) fun _ _ _ => rfl

end

end FlightRec.Expressions
