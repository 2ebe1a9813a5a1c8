/-
# `FlightRec.Expressions.Traps` — operators that end the debugger

None of the functions that calculate looks at its operands first.  The processor refuses a
division by 0, and the one quotient of signed numbers that does not fit, and that is the end
of the debugger; a shift by the size of the word or more is left undefined by C.

    what a node asks its operands for   (`Calls`)
    what goes wrong in a node itself    (`Call.Undefined`)
    what goes wrong in an expression    (`evaluation_defined_iff`)
-/
import FlightRec.Expressions.Casts
import FlightRec.Expressions.PointerLaws
import FlightRec.Lib.Completion

namespace FlightRec.Expressions

open Hoare Completion Relation

/-! ## A normal form of binary operators -/

/-- What the guard in front of pointer arithmetic stops. -/
def stopped (op : BinaryOp) (la ra : Attrs) : Prop :=
  la.indirect ≠ 0 ∧ ¬ (op = .add ∧ ra.typeKind = .signed) ∧
    (op = .sub ∧ (ra.typeKind = .signed ∨ ra.indirect ≠ 0))

instance (op : BinaryOp) (la ra : Attrs) : Decidable (stopped op la ra) :=
  inferInstanceAs (Decidable (_ ∧ _))

/-- The value that the left operand has decided. -/
def decided (F : FloatOps) (op : BinaryOp) (la : Attrs) (v : NodeValue) : Option NodeValue :=
  if la.indirect ≠ 0 then none
  else if op = .and ∧ truth F la v = false then some 0
  else if op = .or ∧ truth F la v = true then some 1
  else none

/-- The operator, applied to both values. -/
def applied (F : FloatOps) (a : Attrs) (op : BinaryOp) (la ra : Attrs) (v w : NodeValue) :
    Eval NodeValue :=
  let switch (case : Option (NodeValue → NodeValue → Eval NodeValue)) : Eval NodeValue :=
    match case with
    | some f => f v w
    | none => internalError
  match dispatch a op la ra with
  | .pointer =>
      let size := BitVec.ofNat 64 la.size
      if ra.typeKind = .signed then
        return if op = .add then v + w * size else v - w * size
      else
        let diff := v - w
        if size = 0 then crash
        else if diff % size ≠ 0 then fail "Pointer difference isn't divisible by pointer size"
        else return diff / size
  | .logical => return ofBool (truth F ra w)
  | .float => switch ((floatCases op).map fun f => f F)
  | .signed => switch (signedCases op)
  | .unsigned => switch (unsignedCases op)

section
variable {a la ra : Attrs} {op : BinaryOp}

theorem dispatch_pointer : dispatch a op la ra = .pointer ↔ la.indirect ≠ 0 := by
  unfold dispatch
  split
  next h => exact iff_of_true rfl h
  next h =>
    refine iff_of_false ?_ h
    split
    · nofun
    · split
      · nofun
      · split <;> nofun

theorem stopped_none (h : la.indirect = 0) : ¬ stopped op la ra := fun hstop => hstop.1 h

theorem decided_none {F : FloatOps} {v : NodeValue} (hdirect : la.indirect = 0)
    (hop : ¬ (op = .and ∨ op = .or)) : decided F op la v = none := by
  rw [decided, if_neg (not_not_intro hdirect), if_neg fun h => hop (.inl h.1),
    if_neg fun h => hop (.inr h.1)]

theorem switch_eq {F : FloatOps} {f : BinaryFun} {left right : Eval NodeValue}
    (hfun : dispatch a op la ra = f) (hf : f ≠ .pointer ∧ f ≠ .logical)
    (case : Option (NodeValue → NodeValue → Eval NodeValue)) :
    binOp case left right =
      if stopped op la ra then fail "Invalid operator or second operand type for pointer math"
      else (do
        let v ← left
        check (match decided F op la v with
          | some r => return r
          | none => do
              let w ← right
              check (match case with
                | some g => g v w
                | none => internalError))) := by
  have hdirect : la.indirect = 0 := by
    by_contra hpointer
    exact hf.1 (hfun.symm.trans (dispatch_pointer.mpr hpointer))
  have hop : ¬ (op = .and ∨ op = .or) := fun hop =>
    hf.2 (hfun.symm.trans (dispatch_logical hdirect hop))
  rw [if_neg (stopped_none hdirect), binOp]
  refine bind_congr fun v => congrArg check ?_
  cases hdecided : decided F op la v with
  | none => rfl
  | some r => cases hdecided.symm.trans (decided_none hdirect hop)

end

theorem evaluateBinary_eq (F : FloatOps) (a : Attrs) (op : BinaryOp) (la ra : Attrs)
    (left right : Eval NodeValue) :
    evaluateBinary F a op la ra left right =
      if stopped op la ra then fail "Invalid operator or second operand type for pointer math"
      else (do
        let v ← left
        check (match decided F op la v with
          | some r => return r
          | none => do
              let w ← right
              check (applied F a op la ra v w))) := by
  unfold evaluateBinary applied
  cases hfun : dispatch a op la ra with
  | pointer =>
      have hpointer : la.indirect ≠ 0 := dispatch_pointer.mp hfun
      by_cases hstop : stopped op la ra
      · rw [if_pos hstop]
        exact if_pos hstop.2
      · rw [if_neg hstop]
        dsimp only
        rw [pointerOp, if_neg fun h => hstop ⟨hpointer, h⟩]
        dsimp only
        refine bind_congr fun v => congrArg check ?_
        rw [decided, if_pos hpointer]
        split
        · rfl
        · rfl
  | logical =>
      have hdirect : la.indirect = 0 := by
        by_contra hpointer
        cases (dispatch_pointer.mpr hpointer).symm.trans hfun
      rw [if_neg (stopped_none hdirect)]
      dsimp only
      refine bind_congr fun v => congrArg check ?_
      rw [decided, if_neg (not_not_intro hdirect)]
      split
      · rfl
      · split
        · rfl
        · rfl
  | float => exact switch_eq hfun ⟨by rintro ⟨⟩, by rintro ⟨⟩⟩ _
  | signed => exact switch_eq hfun ⟨by rintro ⟨⟩, by rintro ⟨⟩⟩ _
  | unsigned => exact switch_eq hfun ⟨by rintro ⟨⟩, by rintro ⟨⟩⟩ _

/-! ## Outcomes -/

/-- The debugger has ended, or a shift was undefined. -/
def WentWrong (r : Option (NodeValue × Status)) : Prop := ∀ v s, r = some (v, s) → s.overshift

/-- What an evaluation goes on from. -/
structure Status.Clean (s : Status) : Prop where
  error : s.error = none
  overshift : s.overshift = false

/-- A computation in which nothing goes wrong. -/
def Harmless (x : Eval NodeValue) : Prop :=
  ∀ s, ∃ v s', x s = some (v, s') ∧ s'.overshift = s.overshift

section
variable {env : Env} {F : FloatOps} {step : Nat} {a la ra : Attrs} {op : BinaryOp}
  {x y : Eval NodeValue} {k : NodeValue → Eval NodeValue} {v w : NodeValue} {s s' : Status}

theorem wentWrong_none : WentWrong none := by
  intro v s h
  cases h

theorem wentWrong_some : WentWrong (some (v, s)) ↔ s.overshift = true := by
  constructor
  · intro h
    exact h v s rfl
  · intro h v' s' heq
    cases heq
    exact h

theorem not_wentWrong_iff {r : Option (NodeValue × Status)} :
    ¬ WentWrong r ↔ ∃ v s, r = some (v, s) ∧ s.overshift = false := by
  cases r with
  | none => exact iff_of_false (not_not_intro wentWrong_none) (by simp)
  | some r =>
      obtain ⟨v, s⟩ := r
      rw [wentWrong_some, Bool.not_eq_true]
      constructor
      · intro h
        exact ⟨v, s, rfl, h⟩
      · rintro ⟨_, _, heq, h⟩
        cases heq
        exact h

theorem overshift_allowsFail : AllowsFail fun s => s.overshift = true := fun _ _ h => h

theorem overshift_allowsInternal : AllowsInternal fun s => s.overshift = true := fun _ h => h

theorem overshift_allowsShift : AllowsShift fun s => s.overshift = true := fun _ _ => rfl

theorem Harmless.not_wentWrong (h : Harmless x) (hs : s.overshift = false) :
    ¬ WentWrong (x s) := by
  obtain ⟨v, s', hrun, hs'⟩ := h s
  exact not_wentWrong_iff.mpr ⟨v, s', hrun, hs'.trans hs⟩

theorem Harmless.ne_none (h : Harmless x) (s : Status) : x s ≠ none := by
  obtain ⟨v, s', hrun, _⟩ := h s
  rw [hrun]
  exact Option.some_ne_none _

theorem harmless_pure (v : NodeValue) : Harmless (pure v) := fun s => ⟨v, s, rfl, rfl⟩

theorem harmless_fail (msg : String) : Harmless (fail msg) := fun s =>
  ⟨0, { s with error := some msg }, rfl, rfl⟩

theorem harmless_internalError : Harmless internalError := fun s =>
  ⟨0, { s with error := some "internal error", internal := true }, rfl, rfl⟩

theorem harmless_ite {c : Prop} [Decidable c] (hx : c → Harmless x) (hy : ¬ c → Harmless y) :
    Harmless (if c then x else y) := by
  split
  next h => exact hx h
  next h => exact hy h

theorem harmless_check (h : Harmless x) : Harmless (check x) := by
  intro s
  cases herror : s.error with
  | none =>
      rw [check_eq herror]
      exact h s
  | some msg =>
      have hstop : check x s = some (0, s) := check_failed (by rw [herror]; nofun)
      exact ⟨0, s, hstop, rfl⟩

theorem harmless_lvalue {addr : NodeValue} {flags : Flags} :
    Harmless (lvalue env a addr step flags) := by
  have hloaded (v : NodeValue) : Harmless (loaded v) := harmless_check (harmless_pure v)
  refine harmless_ite (fun _ => harmless_pure _) fun _ => ?_
  unfold varValue
  split
  · exact harmless_fail _
  refine harmless_ite (fun _ => harmless_pure _) fun _ => ?_
  split
  · exact harmless_ite (fun _ => hloaded _) fun _ => harmless_fail _
  · exact harmless_ite (fun _ => hloaded _) fun _ => harmless_fail _
  · exact harmless_ite (fun _ => hloaded _) fun _ => harmless_ite (fun _ => hloaded _) fun _ =>
      harmless_ite (fun _ => hloaded _) fun _ => harmless_fail _
  · exact harmless_fail _

theorem harmless_castValue {operand : Attrs} : Harmless (castValue F a operand v) := by
  have hpure (u v w : NodeValue) {c d : Prop} [Decidable c] [Decidable d] :
      Harmless (if c then return u else if d then return v else return w) :=
    harmless_ite (fun _ => harmless_pure _) fun _ => harmless_ite (fun _ => harmless_pure _)
      fun _ => harmless_pure _
  refine harmless_ite (fun _ => harmless_pure _) fun _ => ?_
  split
  · exact hpure _ _ _
  · exact hpure _ _ _
  · exact hpure _ _ _
  · exact harmless_internalError

theorem wentWrong_bind (hk : ∀ v, Keeps (fun s => s.overshift = true) (k v)) :
    WentWrong ((x >>= k) s) ↔
      WentWrong (x s) ∨ ∃ v s', x s = some (v, s') ∧ s'.overshift = false ∧ WentWrong (k v s') := by
  cases hx : x s with
  | none =>
      have hbind : (x >>= k) s = none := by
        change (x s).bind _ = _
        rw [hx]
        rfl
      rw [hbind]
      exact iff_of_true wentWrong_none (.inl wentWrong_none)
  | some r =>
      obtain ⟨v, s'⟩ := r
      rw [bind_eq hx, wentWrong_some]
      cases hs' : s'.overshift with
      | true => exact iff_of_true (fun u t hrun => hk v s' hs' u t hrun) (.inl rfl)
      | false =>
          constructor
          · intro h
            exact .inr ⟨v, s', rfl, hs', h⟩
          · rintro (h | ⟨_, _, heq, _, h⟩)
            · cases h
            · cases heq
              exact h

theorem wentWrong_check (hs : s.overshift = false) :
    WentWrong (check x s) ↔ s.Clean ∧ WentWrong (x s) := by
  cases herror : s.error with
  | none =>
      rw [check_eq herror]
      exact (and_iff_right ⟨herror, hs⟩).symm
  | some msg =>
      refine iff_of_false ?_ ?_
      · have hstop : check x s = some (0, s) := check_failed (by rw [herror]; nofun)
        rw [hstop, wentWrong_some, hs]
        exact Bool.false_ne_true
      · rintro ⟨hclean, _⟩
        cases herror.symm.trans hclean.error

theorem wentWrong_call (hk : ∀ v, Keeps (fun s => s.overshift = true) (k v)) :
    WentWrong ((x >>= fun v => check (k v)) s) ↔
      WentWrong (x s) ∨ ∃ v s', x s = some (v, s') ∧ s'.Clean ∧ WentWrong (k v s') := by
  rw [wentWrong_bind fun v => keeps_check (hk v)]
  refine or_congr_right (exists_congr fun v => exists_congr fun s' => and_congr_right fun _ => ?_)
  constructor
  · rintro ⟨hs', h⟩
    exact (wentWrong_check hs').mp h
  · rintro ⟨hclean, h⟩
    exact ⟨hclean.overshift, (wentWrong_check hclean.overshift).mpr ⟨hclean, h⟩⟩

end

/-! ## Operators -/

/-- The values for which an operator is undefined. -/
def UndefinedFor (a : Attrs) (op : BinaryOp) (la ra : Attrs) (v w : NodeValue) : Prop :=
  match dispatch a op la ra with
  | .pointer => ra.typeKind ≠ .signed ∧ BitVec.ofNat 64 la.size = 0
  | .signed => (op = .div ∨ op = .mod) ∧ (w = 0 ∨ (v = BitVec.intMin 64 ∧ w = -1))
  | .unsigned => (op = .div ∧ w = 0) ∨ ((op = .left ∨ op = .right) ∧ 64 ≤ w.toNat)
  | _ => False

section
variable {env : Env} {F : FloatOps} {step : Nat} {a la ra : Attrs} {op : BinaryOp}
  {v w : NodeValue} {s s' : Status}

theorem wentWrong_crash {c : Prop} [Decidable c] {x : Eval NodeValue} (hx : Harmless x)
    (hs : s.overshift = false) : WentWrong ((if c then crash else x) s) ↔ c := by
  split
  next h => exact iff_of_true wentWrong_none h
  next h => exact iff_of_false (hx.not_wentWrong hs) h

theorem wentWrong_shift {f : NodeValue → Nat → NodeValue} (hs : s.overshift = false) :
    WentWrong (shift f v w s) ↔ 64 ≤ w.toNat := by
  by_cases h : 64 ≤ w.toNat
  · have hrun : shift f v w s = some (f v (w.toNat % 64), { s with overshift := true }) := by
      rw [shift, if_pos h]
      rfl
    rw [hrun, wentWrong_some]
    exact iff_of_true rfl h
  · have hrun : shift f v w s = some (f v (w.toNat % 64), s) := by
      rw [shift, if_neg h]
      rfl
    rw [hrun, wentWrong_some, hs]
    exact iff_of_false Bool.false_ne_true h

theorem keeps_applied : Keeps (fun s => s.overshift = true) (applied F a op la ra v w) := by
  unfold applied
  have hinternal := keeps_internalError overshift_allowsInternal
  cases dispatch a op la ra with
  | pointer =>
      exact keeps_ite (fun _ => keeps_pure _) fun _ => keeps_ite (fun _ => keeps_crash) fun _ =>
        keeps_ite (fun _ => keeps_fail overshift_allowsFail _) fun _ => keeps_pure _
  | logical => exact keeps_pure _
  | float =>
      cases hcase : floatCases op with
      | none => exact hinternal
      | some f => exact keeps_floatCases hcase v w
  | signed =>
      cases hcase : signedCases op with
      | none => exact hinternal
      | some f => exact keeps_signedCases hcase v w
  | unsigned =>
      cases hcase : unsignedCases op with
      | none => exact hinternal
      | some f => exact keeps_unsignedCases overshift_allowsShift hcase v w

theorem wentWrong_applied (hs : s.overshift = false) :
    WentWrong (applied F a op la ra v w s) ↔ UndefinedFor a op la ra v w := by
  unfold applied UndefinedFor
  have hharmless {x : Eval NodeValue} (hx : Harmless x) {c : Prop} (hc : ¬ c) :
      WentWrong (x s) ↔ c := iff_of_false (hx.not_wentWrong hs) hc
  cases dispatch a op la ra with
  | pointer =>
      dsimp only
      split
      next hsigned => exact hharmless (harmless_pure _) fun h => h.1 hsigned
      next hsigned =>
        rw [and_iff_right hsigned]
        exact wentWrong_crash (harmless_ite (fun _ => harmless_fail _) fun _ => harmless_pure _) hs
  | logical => exact hharmless (harmless_pure _) id
  | float =>
      cases op <;>
        first
          | exact hharmless (harmless_pure _) id
          | exact hharmless harmless_internalError id
  | signed =>
      cases op with
      | div => exact (wentWrong_crash (harmless_pure _) hs).trans (by simp)
      | mod => exact (wentWrong_crash (harmless_pure _) hs).trans (by simp)
      | _ =>
          first
            | exact hharmless (harmless_pure _) (by simp)
            | exact hharmless harmless_internalError (by simp)
  | unsigned =>
      cases op with
      | div => exact (wentWrong_crash (harmless_pure _) hs).trans (by simp)
      | left => exact (wentWrong_shift hs).trans (by simp)
      | right => exact (wentWrong_shift hs).trans (by simp)
      | _ =>
          first
            | exact hharmless (harmless_pure _) (by simp)
            | exact hharmless harmless_internalError (by simp)

end

/-! ## Calls of `evaluate_node` -/

/-- A call of `evaluate_node`, with the status it finds. -/
structure Call where
  node : AstNode
  flags : Flags
  status : Status
  deriving DecidableEq, Repr

/-- The items have no size, and there is a block of memory that is divided by it. -/
def Sizeless (env : Env) (object : Attrs) (addr : NodeValue) : Prop :=
  ∃ dim bytes, env.typeSize object.typeOffset = some (0, dim) ∧ (dim = 0 ∨ object.indirect ≠ 0) ∧
    env.pointerSize addr = .size bytes ∧ bytes ≠ 0

/-- A pointer has items at its value, an array at its address. -/
def objectFlags (object : AstNode) : Flags := if object.indirect ≠ 0 then .noFlags else .addr

section
variable (env : Env) (step : Nat)

def Call.run (c : Call) : Option (NodeValue × Status) :=
  evaluateNode env step c.node c.flags c.status

/-- The second call is made by the first. -/
def Calls (c b : Call) : Prop :=
  match c.node with
  | .field _ object _ _ => b = ⟨object, .addr, c.status⟩
  | .item _ object member =>
      b = ⟨object, objectFlags object, c.status⟩ ∨
        ∃ addr s, evaluateNode env step object (objectFlags object) c.status = some (addr, s) ∧
          s.Clean ∧ b = ⟨member, .noFlags, s⟩
  | .unaryOp _ op left => b = ⟨left, if op = .addr then .addr else .noFlags, c.status⟩
  | .binaryOp _ op left right =>
      ¬ stopped op left.attrs right.attrs ∧
        (b = ⟨left, .noFlags, c.status⟩ ∨
          ∃ v s, evaluateNode env step left .noFlags c.status = some (v, s) ∧ s.Clean ∧
            decided env.floatOps op left.attrs v = none ∧ b = ⟨right, .noFlags, s⟩)
  | .type _ operand =>
      b = ⟨operand, if isAggregate operand.typeKind then .addr else .noFlags, c.status⟩
  | _ => False

/-- The call itself divides by 0 or shifts too far, with the values its operands come to. -/
def Call.Undefined (c : Call) : Prop :=
  match c.node with
  | .item _ object member =>
      ∃ addr s, evaluateNode env step object (objectFlags object) c.status = some (addr, s) ∧
        s.Clean ∧ ∃ index s', evaluateNode env step member .noFlags s = some (index, s') ∧
          s'.overshift = false ∧ Sizeless env object.attrs addr
  | .binaryOp a op left right =>
      ¬ stopped op left.attrs right.attrs ∧
        ∃ v s, evaluateNode env step left .noFlags c.status = some (v, s) ∧ s.Clean ∧
          decided env.floatOps op left.attrs v = none ∧
            ∃ w s', evaluateNode env step right .noFlags s = some (w, s') ∧ s'.Clean ∧
              UndefinedFor a op left.attrs right.attrs v w
  | _ => False

end

section
variable {env : Env} {step : Nat} {b c : Call}

theorem calls_wf : WellFounded fun b c => Calls env step c b := by
  refine Subrelation.wf ?_ (measure fun c : Call => sizeOf c.node).wf
  intro b c h
  obtain ⟨node, flags, s⟩ := c
  change sizeOf b.node < sizeOf node
  cases node with
  | field a object member start =>
      obtain rfl : b = _ := h
      simp only [AstNode.field.sizeOf_spec]
      omega
  | item a object member =>
      rw [AstNode.item.sizeOf_spec]
      obtain rfl | ⟨addr, t, _, _, rfl⟩ := h <;> dsimp only <;> omega
  | unaryOp a op left =>
      obtain rfl : b = _ := h
      simp only [AstNode.unaryOp.sizeOf_spec]
      omega
  | binaryOp a op left right =>
      rw [AstNode.binaryOp.sizeOf_spec]
      obtain ⟨_, rfl | ⟨v, t, _, _, _, rfl⟩⟩ := h <;> dsimp only <;> omega
  | type a operand =>
      obtain rfl : b = _ := h
      simp only [AstNode.type.sizeOf_spec]
      omega
  | _ => cases h

theorem calls_overshift (hc : c.status.overshift = false) (h : Calls env step c b) :
    b.status.overshift = false := by
  obtain ⟨node, flags, s⟩ := c
  cases node with
  | field a object member start =>
      obtain rfl : b = _ := h
      exact hc
  | item a object member =>
      obtain rfl | ⟨addr, t, _, hclean, rfl⟩ := h
      · exact hc
      · exact hclean.overshift
  | unaryOp a op left =>
      obtain rfl : b = _ := h
      exact hc
  | binaryOp a op left right =>
      obtain ⟨_, rfl | ⟨v, t, _, hclean, _, rfl⟩⟩ := h
      · exact hc
      · exact hclean.overshift
  | type a operand =>
      obtain rfl : b = _ := h
      exact hc
  | _ => cases h

/-! ### What goes wrong in a call -/

variable {flags : Flags} {s : Status} {a : Attrs} {object member left right operand : AstNode}
  {op : BinaryOp} {addr index : NodeValue}

theorem keeps_overshift (n : AstNode) (flags : Flags) :
    Keeps (fun s => s.overshift = true) (evaluateNode env step n flags) :=
  keeps_evaluateNode overshift_allowsFail overshift_allowsShift (.inl overshift_allowsInternal)
    flags

theorem itemBounds_none : itemBounds env a addr index s = none ↔ Sizeless env a addr := by
  have hsome (r : NodeValue × Status) : some r ≠ none := Option.some_ne_none r
  unfold itemBounds Sizeless
  cases env.typeSize a.typeOffset with
  | none => exact iff_of_false (hsome _) (by simp)
  | some info =>
      obtain ⟨size, dim⟩ := info
      dsimp only
      split
      next hpointer =>
        cases env.pointerSize addr with
        | size bytes =>
            have hnone (h : bytes = 0 ∨ size ≠ 0) : ¬ ∃ dim' bytes', some (size, dim) =
                some (0, dim') ∧ (dim' = 0 ∨ a.indirect ≠ 0) ∧
                  PointerSize.size bytes = .size bytes' ∧ bytes' ≠ 0 := by
              rintro ⟨_, _, hsize, _, hbytes, hne⟩
              cases hsize
              cases hbytes
              exact h.elim hne (· rfl)
            dsimp only
            split
            next hzero => exact iff_of_false (hsome _) (hnone (.inl hzero))
            next hbytes =>
              split
              next hsize => exact iff_of_true rfl ⟨dim, bytes, by rw [hsize], hpointer, rfl, hbytes⟩
              next hsize =>
                refine iff_of_false ?_ (hnone (.inr hsize))
                split <;> exact hsome _
        | _ => exact iff_of_false (hsome _) (by simp)
      next harray =>
        refine iff_of_false ?_ ?_
        · split <;> exact hsome _
        · rintro ⟨_, _, hsize, hpointer, _⟩
          cases hsize
          exact harray hpointer

theorem wentWrong_itemBounds (hs : s.overshift = false) :
    WentWrong (itemBounds env a addr index s) ↔ Sizeless env a addr := by
  rw [← itemBounds_none]
  cases hrun : itemBounds env a addr index s with
  | none => exact iff_of_true wentWrong_none rfl
  | some r =>
      have hkeeps : Keeps (fun s => s.overshift = false) (itemBounds env a addr index) :=
        keeps_itemBounds fun _ _ h => h
      refine iff_of_false ?_ (Option.some_ne_none _)
      rw [wentWrong_some, Bool.not_eq_true]
      exact hkeeps s hs r.1 r.2 hrun

theorem wentWrong_field {start : Nat} {name : String} :
    WentWrong (evaluateNode env step (.field a object name start) flags s) ↔
      WentWrong (evaluateNode env step object .addr s) := by
  rw [evaluateNode, wentWrong_call fun _ => keeps_lvalue overshift_allowsFail]
  refine or_iff_left ?_
  rintro ⟨_, t, _, hclean, h⟩
  exact harmless_lvalue.not_wentWrong hclean.overshift h

theorem wentWrong_type :
    WentWrong (evaluateNode env step (.type a operand) flags s) ↔
      WentWrong (evaluateNode env step operand
        (if isAggregate operand.typeKind then .addr else .noFlags) s) := by
  rw [evaluateNode, wentWrong_call fun _ => keeps_castValue (.inl overshift_allowsInternal)]
  refine or_iff_left ?_
  rintro ⟨_, t, _, hclean, h⟩
  exact harmless_castValue.not_wentWrong hclean.overshift h

theorem wentWrong_item :
    WentWrong (evaluateNode env step (.item a object member) flags s) ↔
      WentWrong (evaluateNode env step object (objectFlags object) s) ∨
        ∃ addr s₁, evaluateNode env step object (objectFlags object) s = some (addr, s₁) ∧
          s₁.Clean ∧ (WentWrong (evaluateNode env step member .noFlags s₁) ∨
            ∃ index s₂, evaluateNode env step member .noFlags s₁ = some (index, s₂) ∧
              s₂.overshift = false ∧ Sizeless env object.attrs addr) := by
  have hlvalue (addr : NodeValue) : Keeps (fun s => s.overshift = true)
      (lvalue env a addr step flags) := keeps_lvalue overshift_allowsFail
  have hread (addr index : NodeValue) : Keeps (fun s => s.overshift = true) (do
      let _ ← itemBounds env object.attrs addr index
      lvalue env a (addr + index * BitVec.ofNat 64 a.size) step flags) :=
    keeps_bind (keeps_itemBounds overshift_allowsFail) fun _ => hlvalue _
  rw [evaluateNode, wentWrong_call fun addr => keeps_bind (keeps_overshift member _) (hread addr)]
  refine or_congr_right (exists_congr fun addr => exists_congr fun s₁ =>
    and_congr_right fun _ => and_congr_right fun hclean => ?_)
  rw [wentWrong_bind (hread addr)]
  refine or_congr_right (exists_congr fun index => exists_congr fun s₂ =>
    and_congr_right fun _ => and_congr_right fun hs₂ => ?_)
  rw [wentWrong_bind fun _ => hlvalue _, wentWrong_itemBounds hs₂]
  refine or_iff_left ?_
  rintro ⟨_, _, _, hs₃, h⟩
  exact harmless_lvalue.not_wentWrong hs₃ h

theorem wentWrong_unaryOp {op : UnaryOp} :
    WentWrong (evaluateNode env step (.unaryOp a op left) flags s) ↔
      WentWrong (evaluateNode env step left (if op = .addr then .addr else .noFlags) s) := by
  have hpure (f : NodeValue → NodeValue) :
      WentWrong ((do return f (← evaluateNode env step left .noFlags) : Eval NodeValue) s) ↔
        WentWrong (evaluateNode env step left .noFlags s) := by
    rw [wentWrong_bind fun _ => keeps_pure _]
    refine or_iff_left ?_
    rintro ⟨v, t, _, ht, h⟩
    exact (harmless_pure _).not_wentWrong ht h
  cases op with
  | addr => exact Iff.rfl
  | deref =>
      rw [evaluateNode, wentWrong_bind fun _ => keeps_lvalue overshift_allowsFail]
      refine or_iff_left ?_
      rintro ⟨_, t, _, ht, h⟩
      exact harmless_lvalue.not_wentWrong ht h
  | neg => exact hpure fun v => -v
  | inv => exact hpure fun v => ~~~v
  | not => exact hpure fun v => ofBool (v == 0)

theorem wentWrong_binaryOp (hs : s.overshift = false) :
    WentWrong (evaluateNode env step (.binaryOp a op left right) flags s) ↔
      ¬ stopped op left.attrs right.attrs ∧
        (WentWrong (evaluateNode env step left .noFlags s) ∨
          ∃ v s₁, evaluateNode env step left .noFlags s = some (v, s₁) ∧ s₁.Clean ∧
            decided env.floatOps op left.attrs v = none ∧
              (WentWrong (evaluateNode env step right .noFlags s₁) ∨
                ∃ w s₂, evaluateNode env step right .noFlags s₁ = some (w, s₂) ∧ s₂.Clean ∧
                  UndefinedFor a op left.attrs right.attrs v w)) := by
  rw [evaluateNode, evaluateBinary_eq]
  by_cases hstop : stopped op left.attrs right.attrs
  · rw [if_pos hstop]
    exact iff_of_false ((harmless_fail _).not_wentWrong hs) fun h => h.1 hstop
  have happlied (v w : NodeValue) : Keeps (fun s => s.overshift = true)
      (applied env.floatOps a op left.attrs right.attrs v w) := keeps_applied
  have hright (v : NodeValue) : Keeps (fun s => s.overshift = true) (do
      let w ← evaluateNode env step right .noFlags
      check (applied env.floatOps a op left.attrs right.attrs v w)) :=
    keeps_bind (keeps_overshift right _) fun w => keeps_check (happlied v w)
  rw [if_neg hstop, and_iff_right hstop, wentWrong_call]
  · refine or_congr_right (exists_congr fun v => exists_congr fun s₁ =>
      and_congr_right fun _ => and_congr_right fun hclean => ?_)
    cases hdecided : decided env.floatOps op left.attrs v with
    | some r =>
        refine iff_of_false ((harmless_pure r).not_wentWrong hclean.overshift) ?_
        rintro ⟨h, _⟩
        cases h
    | none =>
        rw [and_iff_right rfl, wentWrong_call (happlied v)]
        exact or_congr_right (exists_congr fun w => exists_congr fun s₂ =>
          and_congr_right fun _ => and_congr_right fun hclean' =>
            wentWrong_applied hclean'.overshift)
  · intro v
    cases decided env.floatOps op left.attrs v with
    | some r => exact keeps_pure r
    | none => exact hright v

theorem wentWrong_call_iff (c : Call) (hc : c.status.overshift = false) :
    WentWrong (c.run env step) ↔
      c.Undefined env step ∨ ∃ b, Calls env step c b ∧ WentWrong (b.run env step) := by
  obtain ⟨node, flags, s⟩ := c
  have hleaf {r : Option (NodeValue × Status)} (h : ¬ WentWrong r) :
      WentWrong r ↔ False ∨ ∃ b : Call, False ∧ WentWrong (b.run env step) :=
    iff_of_false h (by simp)
  cases node with
  | int a v => exact hleaf ((harmless_pure v).not_wentWrong hc)
  | float a v => exact hleaf ((harmless_pure v).not_wentWrong hc)
  | string a v => exact hleaf ((harmless_pure _).not_wentWrong hc)
  | var a name id =>
      refine hleaf ?_
      change ¬ WentWrong (evaluateNode env step (.var a name id) flags s)
      rw [evaluateNode]
      cases env.varAddress id step with
      | none => exact (harmless_fail _).not_wentWrong hc
      | some addr => exact harmless_lvalue.not_wentWrong hc
  | field a object member start =>
      refine wentWrong_field.trans ?_
      simp [Calls, Call.Undefined, Call.run]
  | item a object member =>
      refine wentWrong_item.trans ⟨?_, ?_⟩
      · rintro (h | ⟨addr, s₁, hobject, hclean, h | ⟨index, s₂, hmember, hs₂, hsize⟩⟩)
        · exact .inr ⟨_, .inl rfl, h⟩
        · exact .inr ⟨_, .inr ⟨addr, s₁, hobject, hclean, rfl⟩, h⟩
        · exact .inl ⟨addr, s₁, hobject, hclean, index, s₂, hmember, hs₂, hsize⟩
      · rintro (⟨addr, s₁, hobject, hclean, index, s₂, hmember, hs₂, hsize⟩ |
          ⟨b, rfl | ⟨addr, s₁, hobject, hclean, rfl⟩, h⟩)
        · exact .inr ⟨addr, s₁, hobject, hclean, .inr ⟨index, s₂, hmember, hs₂, hsize⟩⟩
        · exact .inl h
        · exact .inr ⟨addr, s₁, hobject, hclean, .inl h⟩
  | unaryOp a op left =>
      refine wentWrong_unaryOp.trans ?_
      simp [Calls, Call.Undefined, Call.run]
  | binaryOp a op left right =>
      refine (wentWrong_binaryOp hc).trans ⟨?_, ?_⟩
      · rintro ⟨hstop, h | ⟨v, s₁, hleft, hclean, hnone, h | ⟨w, s₂, hright, hclean', hundef⟩⟩⟩
        · exact .inr ⟨_, ⟨hstop, .inl rfl⟩, h⟩
        · exact .inr ⟨_, ⟨hstop, .inr ⟨v, s₁, hleft, hclean, hnone, rfl⟩⟩, h⟩
        · exact .inl ⟨hstop, v, s₁, hleft, hclean, hnone, w, s₂, hright, hclean', hundef⟩
      · rintro (⟨hstop, v, s₁, hleft, hclean, hnone, w, s₂, hright, hclean', hundef⟩ |
          ⟨b, ⟨hstop, rfl | ⟨v, s₁, hleft, hclean, hnone, rfl⟩⟩, h⟩)
        · exact ⟨hstop, .inr ⟨v, s₁, hleft, hclean, hnone, .inr ⟨w, s₂, hright, hclean', hundef⟩⟩⟩
        · exact ⟨hstop, .inl h⟩
        · exact ⟨hstop, .inr ⟨v, s₁, hleft, hclean, hnone, .inl h⟩⟩
  | type a operand =>
      refine wentWrong_type.trans ?_
      simp [Calls, Call.Undefined, Call.run]

end

/-! ## Expressions -/

/-- The calls that an evaluation comes to. -/
def Reaches (env : Env) (step : Nat) : Call → Call → Prop := ReflTransGen (Calls env step)

theorem wentWrong_iff_reaches {env : Env} {step : Nat} {c : Call}
    (hc : c.status.overshift = false) : WentWrong (c.run env step) ↔
      ∃ b, Reaches env step c b ∧ b.Undefined env step := by
  have hkeep (b b' : Call) (hb : b.status.overshift = false) (h : Calls env step b b') :
      b'.status.overshift = false := calls_overshift hb h
  exact fails_iff_reaches calls_wf hkeep wentWrong_call_iff hc

/-! ## Integer operands -/

/-- An operand, or a cast of it that the parser has put in. -/
def Promoted (operand n : AstNode) : Prop := n = operand ∨ n = castToSigned operand

/-- The operands for which an operator on integers is undefined. -/
def UndefinedOperands (op : BinaryOp) (left right : TKind) (v w : NodeValue) : Prop :=
  match op with
  | .div => w = 0 ∨ ((left = .signed ∨ right = .signed) ∧ v = BitVec.intMin 64 ∧ w = -1)
  | .mod => w = 0 ∨ (v = BitVec.intMin 64 ∧ w = -1)
  | .left | .right => left ≠ .signed ∧ right ≠ .signed ∧ 64 ≤ w.toNat
  | _ => False

/-- The node for an operator on integers. -/
structure IntegerNode (op : BinaryOp) (left right n : AstNode) (a : Attrs) (l r : AstNode) :
    Prop where
  node : n = .binaryOp a op l r
  promotedLeft : Promoted left l
  promotedRight : Promoted right r
  kind : a.typeKind ≠ .float
  signed : (l.typeKind = .signed ∨ r.typeKind = .signed) ↔
    (op = .mod ∨ left.typeKind = .signed ∨ right.typeKind = .signed)

section
variable {T : Tables} {scope : Nat} {env : Env} {step : Nat} {op : BinaryOp}
  {left right n m : AstNode} {flags : Flags} {v : NodeValue} {s s' : Status}

theorem Promoted.indirect (h : Promoted m n) (hm : m.isOffset) : n.indirect = 0 := by
  obtain rfl | rfl := h
  · exact hm.1
  · rfl

theorem Promoted.run (h : Promoted m n) (hm : m.isOffset) (hs' : s'.error = none)
    (hrun : evaluateNode env step m .noFlags s = some (v, s')) :
    evaluateNode env step n .noFlags s = some (v, s') := by
  obtain rfl | rfl := h
  · exact hrun
  · have hkind := isInteger_iff.mp hm.2
    have hflags : operandFlags m = .noFlags := by
      unfold operandFlags isAggregate
      obtain hk | hk := hkind <;> rw [hk] <;> rfl
    refine cast_run ⟨rfl, rfl, .inr (.inr (.inr rfl))⟩ (.inr ?_) hs' (hflags ▸ hrun) _
    obtain hk | hk := hkind <;> rw [hk] <;> nofun

theorem isOffset_not_float (h : n.isOffset) : n.typeKind ≠ .float := by
  obtain hk | hk := isInteger_iff.mp h.2 <;> rw [hk] <;> nofun

theorem integerNode_plain {a : Attrs} (hop : op ≠ .mod) (hkind : a.typeKind ≠ .float) :
    IntegerNode op left right (.binaryOp a op left right) a left right :=
  ⟨rfl, .inl rfl, .inl rfl, hkind, by simp [hop]⟩

/-- Where one operand is signed, both come out signed. -/
theorem integerNode_promoted {a : Attrs} (hkind : a.typeKind ≠ .float)
    (hsigned : left.typeKind = .signed ∨ right.typeKind = .signed) :
    IntegerNode op left right (.binaryOp a op (promoteOperandsToSigned left right).1
      (promoteOperandsToSigned left right).2) a (promoteOperandsToSigned left right).1
      (promoteOperandsToSigned left right).2 := by
  unfold promoteOperandsToSigned
  split
  next hleft => exact ⟨rfl, .inr rfl, .inl rfl, hkind, iff_of_true (.inl rfl) (.inr hsigned)⟩
  next hleft =>
    rw [not_not] at hleft
    split
    next => exact ⟨rfl, .inl rfl, .inr rfl, hkind, iff_of_true (.inl hleft) (.inr hsigned)⟩
    next => exact ⟨rfl, .inl rfl, .inl rfl, hkind, iff_of_true (.inl hleft) (.inr hsigned)⟩

theorem integerNode_binaryOp (hop : op ≠ .mod) (hleft : left.isOffset) (hright : right.isOffset) :
    ∃ a l r, IntegerNode op left right (binaryOp left right op) a l r := by
  unfold binaryOp
  rw [if_neg (not_or.mpr ⟨isOffset_not_float hleft, isOffset_not_float hright⟩)]
  split
  next hsigned => exact ⟨_, _, _, integerNode_promoted nofun hsigned⟩
  next =>
    refine ⟨_, _, _, integerNode_plain hop ?_⟩
    dsimp only
    split <;> nofun

theorem integerNode_modulo (h : moduloAction left right = .ok n) :
    ∃ a l r, IntegerNode .mod left right n a l r := by
  obtain ⟨hint, hn⟩ := ok_of_ite h
  cases hn
  obtain ⟨hkind, _⟩ := bothInteger_iff.mp (by simpa using hint)
  have hpromoted (m : AstNode) : Promoted m (modOperand m) := by
    unfold modOperand
    split
    · exact .inr rfl
    · exact .inl rfl
  have hsigned : (modOperand left).typeKind = .signed := by
    unfold modOperand
    split
    next => rfl
    next hk => exact (isInteger_iff.mp hkind).resolve_right hk
  exact ⟨_, _, _, rfl, hpromoted left, hpromoted right, nofun,
    iff_of_true (.inl hsigned) (.inl rfl)⟩

theorem integerNode_comparison (hop : op ≠ .mod) (hleft : left.isOffset) (hright : right.isOffset)
    (h : comparisonAction op left right = .ok n) : ∃ a l r, IntegerNode op left right n a l r := by
  obtain ⟨_, hn⟩ := ok_of_ite h
  cases hn
  rw [if_neg (not_or.mpr ⟨isOffset_not_float hleft, isOffset_not_float hright⟩)]
  split
  next hsigned => exact ⟨_, _, _, integerNode_promoted nofun hsigned⟩
  next => exact ⟨_, _, _, integerNode_plain hop nofun⟩

theorem integerNode_binaryAction (hleft : left.isOffset) (hright : right.isOffset)
    (h : binaryAction op left right = .ok n) : ∃ a l r, IntegerNode op left right n a l r := by
  have hplain {a : Attrs} (hop : op ≠ .mod) (hn : n = .binaryOp a op left right)
      (hkind : a.typeKind ≠ .float) : ∃ a l r, IntegerNode op left right n a l r :=
    ⟨_, _, _, hn ▸ integerNode_plain hop hkind⟩
  have hbitwise {msg : String} (hop : op ≠ .mod) (h : bitwiseAction op msg left right = .ok n) :
      ∃ a l r, IntegerNode op left right n a l r := by
    obtain ⟨_, hn⟩ := ok_of_ite h
    exact hplain hop (Except.ok.inj hn).symm (by rintro ⟨⟩)
  have hlogical (hop : op ≠ .mod) (h : logicalAction op left right = .ok n) :
      ∃ a l r, IntegerNode op left right n a l r := by
    obtain ⟨_, hn⟩ := ok_of_ite h
    exact hplain hop (Except.ok.inj hn).symm (by rintro ⟨⟩)
  have hnumber (hop : op ≠ .mod)
      (hn : (.ok (binaryOp left right op) : Except String AstNode) = .ok n) :
      ∃ a l r, IntegerNode op left right n a l r := by
    cases hn
    exact integerNode_binaryOp hop hleft hright
  have hdirect : ¬ left.indirect ≠ 0 := not_not_intro hleft.1
  by_cases hmod : op = .mod
  · subst hmod
    exact integerNode_modulo h
  cases op with
  | mod => exact absurd rfl hmod
  | mul => exact hnumber hmod (ok_of_ite h).2
  | div => exact hnumber hmod (ok_of_ite h).2
  | add =>
      change additionAction left right = _ at h
      rw [additionAction, if_neg hdirect] at h
      exact hnumber hmod (ok_of_ite h).2
  | sub =>
      change subtractionAction left right = _ at h
      rw [subtractionAction, if_neg hdirect] at h
      exact hnumber hmod (ok_of_ite h).2
  | bitAnd => exact hbitwise hmod h
  | xor => exact hbitwise hmod h
  | bitOr => exact hbitwise hmod h
  | left => exact hbitwise hmod h
  | right => exact hbitwise hmod h
  | and => exact hlogical hmod h
  | or => exact hlogical hmod h
  | lt => exact integerNode_comparison hmod hleft hright h
  | gt => exact integerNode_comparison hmod hleft hright h
  | le => exact integerNode_comparison hmod hleft hright h
  | ge => exact integerNode_comparison hmod hleft hright h
  | eq => exact integerNode_comparison hmod hleft hright h
  | neq => exact integerNode_comparison hmod hleft hright h

theorem IntegerNode.undefinedFor_iff {a : Attrs} {l r : AstNode} {w : NodeValue}
    (h : IntegerNode op left right n a l r) (hleft : left.isOffset) :
    UndefinedFor a op l.attrs r.attrs v w ↔
      UndefinedOperands op left.typeKind right.typeKind v w := by
  have hdirect : l.attrs.indirect = 0 := h.promotedLeft.indirect hleft
  have hlogical (hop : op = .and ∨ op = .or) :
      UndefinedFor a op l.attrs r.attrs v w ↔ False := by
    unfold UndefinedFor
    rw [dispatch_logical hdirect hop]
  have hfun (hop : ¬ (op = .and ∨ op = .or)) : dispatch a op l.attrs r.attrs =
      if op = .mod ∨ left.typeKind = .signed ∨ right.typeKind = .signed then .signed
      else .unsigned := by
    unfold dispatch
    rw [if_neg (not_not_intro hdirect), if_neg hop, if_neg h.kind]
    exact ite_congr (propext h.signed) (fun _ => rfl) (fun _ => rfl)
  by_cases hop : op = .and ∨ op = .or
  · refine (hlogical hop).trans ?_
    obtain rfl | rfl := hop <;> exact Iff.rfl
  unfold UndefinedFor UndefinedOperands
  rw [hfun hop]
  by_cases hsigned : left.typeKind = .signed ∨ right.typeKind = .signed
  · rw [if_pos (.inr hsigned)]
    have hshift {c : Prop} : ¬ (left.typeKind ≠ .signed ∧ right.typeKind ≠ .signed ∧ c) :=
      fun h => hsigned.elim h.1 h.2.1
    cases op <;> simp [hsigned, hshift]
  · obtain ⟨hl, hr⟩ := not_or.mp hsigned
    cases op <;> simp [hl, hr]

end

theorem wentWrong_operands {env : Env} {step : Nat} {a : Attrs} {op : BinaryOp} {l r : AstNode}
    {flags : Flags} {v w : NodeValue} {s s₁ s₂ : Status} (hs : s.overshift = false)
    (hdirect : l.indirect = 0) (hleft : evaluateNode env step l .noFlags s = some (v, s₁))
    (hs₁ : s₁.Clean) (hright : evaluateNode env step r .noFlags s₁ = some (w, s₂))
    (hs₂ : s₂.Clean) :
    WentWrong (evaluateNode env step (.binaryOp a op l r) flags s) ↔
      UndefinedFor a op l.attrs r.attrs v w := by
  rw [wentWrong_binaryOp hs, and_iff_right (stopped_none hdirect), hleft, wentWrong_some,
    or_iff_right (by rw [hs₁.overshift]; exact Bool.false_ne_true)]
  constructor
  · rintro ⟨v', s', heq, -, -, h⟩
    cases heq
    rw [hright, wentWrong_some, or_iff_right (by rw [hs₂.overshift]; exact Bool.false_ne_true)] at h
    obtain ⟨w', s', heq, -, hundefined⟩ := h
    cases heq
    exact hundefined
  · intro hundefined
    have hop : ¬ (op = .and ∨ op = .or) := by
      intro hop
      have hfun : dispatch a op l.attrs r.attrs = .logical := dispatch_logical hdirect hop
      rw [UndefinedFor, hfun] at hundefined
      exact hundefined
    have hnone : decided env.floatOps op l.attrs v = none := decided_none hdirect hop
    exact ⟨v, s₁, rfl, hs₁, hnone, .inr ⟨w, s₂, hright, hs₂, hundefined⟩⟩

/-- **Operators on integers.**  An accepted operator whose integer operands have values is
evaluated, and without a shift that is undefined, exactly if the values are not among those
that it is undefined for.  And an expression is, exactly if that can be said of every call
that its evaluation comes to. -/
theorem evaluation_defined_iff (env : Env) (step : Nat) :
    (∀ T scope op x y left right n, x.ast T scope = .ok left → y.ast T scope = .ok right →
      left.isOffset → right.isOffset → (Expr.binaryOp op x y).ast T scope = .ok n →
      ∀ flags s v s₁ w s₂, s.overshift = false →
        evaluateNode env step left .noFlags s = some (v, s₁) → s₁.Clean →
        evaluateNode env step right .noFlags s₁ = some (w, s₂) → s₂.Clean →
        ((∃ r s', evaluateNode env step n flags s = some (r, s') ∧ s'.overshift = false) ↔
          ¬ UndefinedOperands op left.typeKind right.typeKind v w)) ∧
    ∀ n flags s, s.overshift = false →
      ((∃ r s', evaluateNode env step n flags s = some (r, s') ∧ s'.overshift = false) ↔
        ∀ c, Reaches env step ⟨n, flags, s⟩ c → ¬ c.Undefined env step) := by
  refine ⟨?_, ?_⟩
  · intro T scope op x y left right n hx hy hl hr hn flags s v s₁ w s₂ hs hleft hs₁ hright hs₂
    rw [Expr.ast, hx, hy] at hn
    obtain ⟨a, l, r, hnode⟩ := integerNode_binaryAction hl hr hn
    have hleft' := hnode.promotedLeft.run hl hs₁.error hleft
    have hright' := hnode.promotedRight.run hr hs₂.error hright
    have hdirect : l.attrs.indirect = 0 := hnode.promotedLeft.indirect hl
    rw [← not_wentWrong_iff, hnode.node, ← hnode.undefinedFor_iff hl]
    exact not_congr (wentWrong_operands hs hdirect hleft' hs₁ hright' hs₂)
  · intro n flags s hs
    have hstart : (⟨n, flags, s⟩ : Call).status.overshift = false := hs
    rw [← not_wentWrong_iff]
    refine (not_congr (wentWrong_iff_reaches hstart)).trans ?_
    simp only [not_exists, not_and]

/-! ### Examples -/

/-- The text `1 / 0`. -/
def zeroDivisorText : List Lexeme :=
  [.constant (.integer 1), .symbol .slash, .constant (.integer 0)]

/-- An operator with two constants. -/
def constantsAst (op : BinaryOp) (v w : NodeValue) : AstNode :=
  .binaryOp { typeKind := .unsigned, size := 8 } op (Constant.integer v).node
    (Constant.integer w).node

theorem exprParse_zeroDivisorText :
    ExprParse noTables 0 zeroDivisorText (constantsAst .div 1 0) := by
  have hdiv : Derives .multiplicativeExpression
      [.constant (.integer 1), .symbol .slash, .constant (.integer 0)]
      (.binaryOp .div (.constant (.integer 1)) (.constant (.integer 0))) :=
    Derives.binaryOp .div rfl ((Derives.constant _).ofPrimary _) ((Derives.constant _).ofPrimary _)
  exact ⟨_, _, rfl, hdiv.loosen 10 rfl, rfl⟩

/-- `1 << 3` -/
theorem evaluation_defined_iff_shift :
    (Expr.binaryOp .left (.constant (.integer 1)) (.constant (.integer 3))).ast noTables 0 =
      .ok (constantsAst .left 1 3) ∧
    (∃ r s', evaluateNode noRecording 1 (constantsAst .left 1 3) .noFlags {} = some (r, s') ∧
      s'.overshift = false) ∧
    ∀ c, Reaches noRecording 1 ⟨constantsAst .left 1 3, .noFlags, {}⟩ c →
      ¬ c.Undefined noRecording 1 := by
  obtain ⟨hoperator, hexpression⟩ := evaluation_defined_iff noRecording 1
  have hast : (Expr.binaryOp .left (.constant (.integer 1)) (.constant (.integer 3))).ast
      noTables 0 = .ok (constantsAst .left 1 3) := rfl
  have hrun := (hoperator noTables 0 .left (.constant (.integer 1)) (.constant (.integer 3)) _ _ _
    rfl rfl ⟨rfl, rfl⟩ ⟨rfl, rfl⟩ hast .noFlags {} 1 {} 3 {} rfl rfl ⟨rfl, rfl⟩ rfl ⟨rfl, rfl⟩).mpr
    fun h => absurd h.2.2 (by decide)
  exact ⟨hast, hrun, (hexpression _ _ _ rfl).mp hrun⟩

/-- `1 / 0` is accepted, and ends the debugger. -/
theorem division_by_zero_traps :
    ¬ ∀ T scope text ast, ExprParse T scope text ast → ∀ env step,
      ∃ r s', evaluateNode env step ast .noFlags {} = some (r, s') ∧ s'.overshift = false := by
  intro h
  obtain ⟨r, s', hrun, _⟩ := h _ _ _ _ exprParse_zeroDivisorText noRecording 1
  cases hrun

end FlightRec.Expressions
