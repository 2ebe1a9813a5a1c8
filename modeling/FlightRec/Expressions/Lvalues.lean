/-
# `FlightRec.Expressions.Lvalues` — addresses and what is at them

`evaluate_node` is asked for the address of a node or for its value, and a parent
that needs a place asks its operand for the address.  So `&`, `*`, `.`, `->`, `[]`
and pointer addition say the same thing in several ways: `*&x` is `x`, `(&s)->f` is
`s.f`, `(*p).f` is `p->f`, and `*(p + n)` is `p[n]`.

The last is checked when it is written as a subscript and not otherwise, and in the
first a failure is noticed later; what is compared are evaluations that succeed.
-/
import FlightRec.Expressions.Members

namespace FlightRec.Expressions

open Hoare

/-! ## Evaluations that succeed -/

/-- Wherever `x` succeeds, `y` does with the same value. -/
def SucceedsAs (x y : Eval NodeValue) : Prop :=
  ∀ s v s', s'.error = none → x s = some (v, s') → y s = some (v, s')

/-- The node has this value at the step. -/
def Evaluates (env : Env) (step : Nat) (n : AstNode) (v : NodeValue) : Prop :=
  ∃ s, evaluateNode env step n .noFlags {} = some (v, s) ∧ s.error = none

/-- `get_eval_result` succeeds, and adds these fields. -/
def Shows (env : Env) (id : Nat) (step : Nat) (n : AstNode) (r : EvalResult) : Prop :=
  ∃ s, getEvalResult env id n step {} = some (some r, s)

/-- Where both trees have a value, it is one value; and what is shown for them is the same. -/
structure SameValue (env : Env) (step : Nat) (m n : AstNode) : Prop where
  value : ∀ v w, Evaluates env step m v → Evaluates env step n w → v = w
  shown : ∀ id r r', Shows env id step m r → Shows env id step n r' → r = r'

section
variable {env : Env} {step : Nat} {a : Attrs} {addr v : NodeValue} {flags : Flags}
  {x : Eval NodeValue} {s s' : Status}

/-- Some error has been reported. -/
def Failed (s : Status) : Prop := s.error ≠ none

theorem failed_allowsFail : AllowsFail Failed := fun _ msg _ => Option.some_ne_none msg

theorem lvalue_started (hs' : s'.error = none)
    (hrun : lvalue env a addr step flags s = some (v, s')) : s.error = none := by
  by_contra hs
  exact keeps_run (keeps_lvalue failed_allowsFail) hs hrun hs'

theorem check_some (hs' : s'.error = none) :
    check x s = some (v, s') ↔ s.error = none ∧ x s = some (v, s') := by
  cases hs : s.error with
  | none => rw [check_eq hs, and_iff_right rfl]
  | some msg =>
      refine iff_of_false ?_ ?_
      · intro hrun
        have hstop : check x s = some (0, s) := check_failed (by rw [hs]; nofun)
        rw [hstop] at hrun
        cases hrun
        rw [hs] at hs'
        cases hs'
      · rintro ⟨h, _⟩
        cases h

end

/-! ## Places -/

/-- `whole` is `place` and then what is there, as far as it succeeds. -/
def ReadsPlace (env : Env) (step : Nat) (a : Attrs) (flags : Flags)
    (place whole : Eval NodeValue) : Prop :=
  ∀ s v s', s'.error = none → (whole s = some (v, s') ↔
    ∃ addr s₁, place s = some (addr, s₁) ∧ lvalue env a addr step flags s₁ = some (v, s'))

section
variable {env : Env} {step : Nat} {a : Attrs} {flags : Flags} {place whole : Eval NodeValue}

theorem readsPlace_pure (addr : NodeValue) :
    ReadsPlace env step a flags (lvalue env a addr step .addr) (lvalue env a addr step flags) := by
  intro s v s' _
  constructor
  · intro hrun
    exact ⟨addr, s, rfl, hrun⟩
  · rintro ⟨_, _, hplace, hrun⟩
    cases hplace
    exact hrun

theorem readsPlace_fail (msg : String) :
    ReadsPlace env step a flags (fail msg) (fail msg) := by
  intro s v s' hs'
  refine iff_of_false ?_ ?_
  · intro hrun
    cases hrun
    cases hs'
  · rintro ⟨addr, s₁, hplace, hrun⟩
    have hs₁ : s₁.error = none := lvalue_started hs' hrun
    cases hplace
    cases hs₁

theorem readsPlace_bind {α : Type} {x : Eval α} {place whole : α → Eval NodeValue}
    (h : ∀ b, ReadsPlace env step a flags (place b) (whole b)) :
    ReadsPlace env step a flags (x >>= place) (x >>= whole) := by
  intro s v s' hs'
  rw [bind_run]
  constructor
  · rintro ⟨b, s₀, hx, hwhole⟩
    obtain ⟨addr, s₁, hplace, hrun⟩ := (h b s₀ v s' hs').mp hwhole
    exact ⟨addr, s₁, bind_run.mpr ⟨b, s₀, hx, hplace⟩, hrun⟩
  · rintro ⟨addr, s₁, hbind, hrun⟩
    obtain ⟨b, s₀, hx, hplace⟩ := bind_run.mp hbind
    exact ⟨b, s₀, hx, (h b s₀ v s' hs').mpr ⟨addr, s₁, hplace, hrun⟩⟩

theorem readsPlace_check (h : ReadsPlace env step a flags place whole) :
    ReadsPlace env step a flags (check place) (check whole) := by
  intro s v s' hs'
  rw [check_some hs', h s v s' hs']
  constructor
  · rintro ⟨hs, addr, s₁, hplace, hrun⟩
    exact ⟨addr, s₁, (check_eq hs).trans hplace, hrun⟩
  · rintro ⟨addr, s₁, hcheck, hrun⟩
    obtain ⟨hs, hplace⟩ := (check_some (lvalue_started hs' hrun)).mp hcheck
    exact ⟨hs, addr, s₁, hplace, hrun⟩

theorem readsPlace_node {n : AstNode} (hn : n.hasAddress) (flags : Flags) :
    ReadsPlace env step n.attrs flags (evaluateNode env step n .addr)
      (evaluateNode env step n flags) := by
  cases n with
  | var a name id =>
      simp only [evaluateNode]
      cases env.varAddress id step with
      | none => exact readsPlace_fail _
      | some addr => exact readsPlace_pure addr
  | field a object member start =>
      simp only [evaluateNode]
      exact readsPlace_bind fun addr => readsPlace_check (readsPlace_pure _)
  | item a object member =>
      simp only [evaluateNode]
      exact readsPlace_bind fun addr => readsPlace_check <|
        readsPlace_bind fun index => readsPlace_bind fun _ => readsPlace_pure _
  | unaryOp a op left =>
      cases op with
      | deref =>
          simp only [evaluateNode]
          exact readsPlace_bind fun addr => readsPlace_pure addr
      | _ => cases hn
  | _ => cases hn

end

/-! ## What is shown -/

section
variable {env : Env} {id step : Nat} {m n : AstNode} {x y : Eval NodeValue} {r : EvalResult}
  {s s' : Status}

theorem shown_iff {k : NodeValue → Eval (Option EvalResult)} :
    (do
      let res ← x
      if ← failed then return none
      k res) s = some (some r, s') ↔
      ∃ res s₁, x s = some (res, s₁) ∧ s₁.error = none ∧ k res s₁ = some (some r, s') := by
  rw [bind_run]
  refine exists_congr fun res => exists_congr fun s₁ => and_congr_right fun _ => ?_
  have hfailed : failed s₁ = some (s₁.error.isSome, s₁) := rfl
  rw [bind_eq hfailed]
  cases s₁.error with
  | none => exact (and_iff_right rfl).symm
  | some msg =>
      refine iff_of_false ?_ ?_
      · intro hrest
        cases hrest
      · rintro ⟨h, _⟩
        cases h

theorem shown_eq {k : NodeValue → Eval (Option EvalResult)} {res : NodeValue} {s₁ : Status}
    (hx : x s = some (res, s₁)) (hs₁ : s₁.error = none) :
    (do
      let res ← x
      if ← failed then return none
      k res) s = k res s₁ := by
  rw [bind_eq hx, bind_eq (failed_eq hs₁)]
  rfl

theorem getEvalResult_pointer {addr dim : NodeValue} {underKind : Nat} {s₁ : Status}
    (hpointer : n.indirect ≠ 0) (hdetails : (if n.typeOffset = 0 then
      some (env.dim, env.underKind) else env.typeDetails n.typeOffset) = some (dim, underKind))
    (hrun : evaluateNode env step n .noFlags s = some (addr, s₁)) (hs₁ : s₁.error = none) :
    getEvalResult env id n step s =
      if addr = 0 then some (some { result := some .null }, s₁)
      else evalPointer env id n.attrs addr underKind s₁ := by
  unfold getEvalResult
  rw [if_neg fun h => hpointer h.1, hdetails]
  dsimp only
  rw [if_neg fun h => hpointer h.1, if_pos hpointer, shown_eq hrun hs₁]
  split
  · rfl
  · rfl

theorem shown_from {k : NodeValue → Eval (Option EvalResult)}
    (h : SucceedsAs x y)
    (hrun : (do
      let res ← x
      if ← failed then return none
      k res) s = some (some r, s')) :
    (do
      let res ← y
      if ← failed then return none
      k res) s = some (some r, s') := by
  obtain ⟨res, s₁, hx, hs₁, hrest⟩ := shown_iff.mp hrun
  exact shown_iff.mpr ⟨res, s₁, h s res s₁ hs₁ hx, hs₁, hrest⟩

theorem shows_of_succeedsAs (hattrs : m.attrs = n.attrs)
    (h : ∀ flags, SucceedsAs (evaluateNode env step m flags) (evaluateNode env step n flags))
    (hm : Shows env id step m r) : Shows env id step n r := by
  obtain ⟨s, hrun⟩ := hm
  refine ⟨s, ?_⟩
  have hoffset : m.typeOffset = n.typeOffset := congrArg Attrs.typeOffset hattrs
  have hkind : m.typeKind = n.typeKind := congrArg Attrs.typeKind hattrs
  have hindirect : m.indirect = n.indirect := congrArg Attrs.indirect hattrs
  unfold getEvalResult at hrun ⊢
  rw [hoffset, hkind, hindirect, hattrs] at hrun
  split
  next hnumber =>
    rw [if_pos hnumber] at hrun
    exact shown_from (h .noFlags) hrun
  next hnumber =>
    rw [if_neg hnumber] at hrun
    generalize (if n.typeOffset = 0 then some (env.dim, env.underKind)
      else env.typeDetails n.typeOffset) = details at hrun ⊢
    cases details with
    | none => exact hrun
    | some details =>
        dsimp only at hrun ⊢
        split
        next hstruct =>
          rw [if_pos hstruct] at hrun
          exact shown_from (h .addr) hrun
        next hstruct =>
          rw [if_neg hstruct] at hrun
          split
          next hpointer =>
            rw [if_pos hpointer] at hrun
            exact shown_from (h .noFlags) hrun
          next hpointer =>
            rw [if_neg hpointer] at hrun
            exact shown_from (h .addr) hrun

/-- Trees of one type have one value if one succeeds as the other does. -/
theorem SameValue.of_succeedsAs (hattrs : m.attrs = n.attrs)
    (h : ∀ flags, SucceedsAs (evaluateNode env step m flags) (evaluateNode env step n flags)) :
    SameValue env step m n := by
  constructor
  · rintro v w ⟨s, hm, hs⟩ ⟨s', hn, _⟩
    have hn' := h .noFlags {} v s hs hm
    rw [hn] at hn'
    cases hn'
    rfl
  · rintro id r r' hm ⟨s', hn⟩
    obtain ⟨s, hn'⟩ := shows_of_succeedsAs hattrs h hm
    rw [hn] at hn'
    cases hn'
    rfl

theorem SameValue.symm (h : SameValue env step m n) : SameValue env step n m :=
  ⟨fun v w hn hm => (h.value w v hm hn).symm, fun id r r' hn hm => (h.shown id r' r hm hn).symm⟩

end

/-! ## The laws -/

section
variable {env : Env} {step : Nat} {a b : Attrs} {object : AstNode} {flags : Flags}

theorem deref_addr (hx : isLvalue object) :
    SucceedsAs (evaluateNode env step object flags)
      (evaluateNode env step (.unaryOp object.attrs .deref (.unaryOp a .addr object)) flags) := by
  intro s v s' hs' hrun
  have hplace := (readsPlace_node (hasAddress_of_isLvalue hx) flags s v s' hs').mp hrun
  simp only [evaluateNode]
  exact bind_run.mpr hplace

/-- Who needs the place of `*p` needs the value of `p`. -/
theorem evaluateNode_deref_addr :
    evaluateNode env step (.unaryOp a .deref object) .addr =
      evaluateNode env step object .noFlags := by
  simp only [evaluateNode]
  exact bind_pure _

theorem field_congr {other : AstNode} {member : String} {start : Nat}
    (h : evaluateNode env step object .addr = evaluateNode env step other .addr) :
    evaluateNode env step (.field a object member start) flags =
      evaluateNode env step (.field a other member start) flags := by
  simp only [evaluateNode, h]

theorem succeedsAs_of_eq {x y : Eval NodeValue} (h : x = y) : SucceedsAs x y := by
  intro s v s' _ hrun
  rw [← h]
  exact hrun

theorem quiet_of_keeps {x : Eval NodeValue} {w : NodeValue} {s s' : Status}
    (h : ∀ P, AllowsFail P → Keeps P x) (hs' : s'.error = none)
    (hrun : x s = some (w, s')) : s' = s := by
  have hallows : AllowsFail fun t => t = s ∨ Failed t := fun _ msg _ =>
    .inr (Option.some_ne_none msg)
  obtain hsame | hfailed := keeps_run (h _ hallows) (.inl rfl) hrun
  · exact hsame
  · exact absurd hs' hfailed

theorem itemBounds_quiet {addr index w : NodeValue} {s s' : Status} (hs' : s'.error = none)
    (hrun : itemBounds env a addr index s = some (w, s')) : s' = s :=
  quiet_of_keeps (fun _ h => keeps_itemBounds h) hs' hrun

theorem lvalue_quiet {addr v : NodeValue} {s s' : Status} (hs' : s'.error = none)
    (hrun : lvalue env a addr step flags s = some (v, s')) : s' = s :=
  quiet_of_keeps (fun _ h => keeps_lvalue h) hs' hrun

theorem pointerOffset_signed {n : AstNode} : (pointerOffset n).typeKind = .signed := by
  unfold pointerOffset
  split
  · rfl
  next h => exact not_not.mp h

/-- The integer that is added to a pointer is the integer: a cast keeps its bits. -/
theorem pointerOffset_succeeds {n : AstNode} (hkind : n.typeKind.isInteger)
    (hdirect : n.indirect = 0) : SucceedsAs (evaluateNode env step n .noFlags)
      (evaluateNode env step (pointerOffset n) .noFlags) := by
  obtain hk | hk := isInteger_iff.mp hkind
  · have hsame : pointerOffset n = n := if_neg (not_not_intro hk)
    rw [hsame]
    exact succeedsAs_of_eq rfl
  · have hcast : pointerOffset n = castToSigned n := if_pos (by rw [hk]; decide)
    rw [hcast]
    intro s v s' hs' hrun
    have haggregate : isAggregate n.typeKind = false := by rw [hk]; rfl
    have hvalue : castValue env.floatOps { typeKind := .signed, size := 8 } n.attrs v =
        pure v := by
      have hk' : n.attrs.typeKind = .unsigned := hk
      have hdirect' : n.attrs.indirect = 0 := hdirect
      simp [castValue, hk', hdirect']
    simp only [castToSigned, evaluateNode, haggregate, Bool.false_eq_true, if_false]
    rw [bind_eq hrun, check_eq hs', hvalue]
    rfl

theorem item_deref {p n : AstNode} (hp : p.indirect ≠ 0) (hkind : n.typeKind.isInteger)
    (hdirect : n.indirect = 0) (hsize : a.size = p.size) :
    SucceedsAs (evaluateNode env step (.item a p n) flags)
      (evaluateNode env step
        (.unaryOp a .deref (.binaryOp p.attrs .add p (pointerOffset n))) flags) := by
  intro s v s' hs' hrun
  simp only [evaluateNode, if_pos hp] at hrun
  obtain ⟨addr, s₁, hleft, hchecked⟩ := bind_run.mp hrun
  obtain ⟨hs₁, hmember⟩ := (check_some hs').mp hchecked
  obtain ⟨index, s₂, hindex, hitem⟩ := bind_run.mp hmember
  obtain ⟨_, s₃, hbounds, hread⟩ := bind_run.mp hitem
  have hs₃ : s₃.error = none := lvalue_started hs' hread
  have hquiet : s₃ = s₂ := itemBounds_quiet hs₃ hbounds
  rw [hquiet] at hs₃ hread
  have hright := pointerOffset_succeeds hkind hdirect s₁ index s₂ hs₃ hindex
  have hsum : evaluateNode env step (.binaryOp p.attrs .add p (pointerOffset n)) .noFlags s =
      some (addr + index * BitVec.ofNat 64 a.size, s₂) := by
    have hpointer : dispatch p.attrs .add p.attrs (pointerOffset n).attrs = .pointer := if_pos hp
    have hsigned : (pointerOffset n).attrs.typeKind = .signed := pointerOffset_signed
    have hsize' : p.attrs.size = a.size := hsize.symm
    simp only [evaluateNode, evaluateBinary, hpointer, pointerOp]
    rw [if_neg (fun hguard => hguard.1 ⟨trivial, hsigned⟩), bind_eq hleft, check_eq hs₁,
      if_pos hsigned, bind_eq hright, check_eq hs₃, if_pos trivial, hsize']
    rfl
  rw [evaluateNode, bind_eq hsum]
  exact hread

end

/-! ## Accepted expressions -/

section
variable {T : Tables} {scope : Nat} {e : Expr} {object member n : AstNode} {name : String}

theorem unaryAction_addr (h : unaryAction .addr object = .ok n) :
    isLvalue object ∧
      n = .unaryOp { object.attrs with indirect := object.indirect + 1 } .addr object := by
  obtain ⟨hlvalue, hn⟩ := ok_of_ite h
  cases hn
  exact ⟨by simpa using hlvalue, rfl⟩

theorem unaryAction_deref (h : unaryAction .deref object = .ok n) :
    n = .unaryOp { object.attrs with indirect := object.indirect - 1 } .deref object := by
  obtain ⟨_, hn⟩ := ok_of_ite h
  cases hn
  rfl

theorem fieldAction_ok (h : fieldAction T object name = .ok n) :
    ∃ a start, T.fieldDetails name object.typeOffset = some (a, start) ∧
      n = .field a object name start := by
  unfold fieldAction at h
  split at h
  next a start hdetails =>
    cases h
    exact ⟨a, start, hdetails, rfl⟩
  · cases h

theorem arrowAction_ok (h : arrowAction T object name = .ok n) :
    ∃ a start, T.fieldDetails name object.typeOffset = some (a, start) ∧
      n = .field a (.unaryOp { object.attrs with indirect := 0 } .deref object) name start := by
  obtain ⟨_, h⟩ := ok_of_ite h
  obtain ⟨_, h⟩ := ok_of_ite h
  exact fieldAction_ok h

theorem subscriptAction_pointer (hkind : object.typeKind ≠ .array)
    (h : subscriptAction T object member = .ok n) :
    n = .item { object.attrs with indirect := object.indirect - 1 } object member := by
  obtain ⟨_, h⟩ := ok_of_ite h
  obtain ⟨_, h⟩ := ok_of_ite h
  rw [if_neg hkind] at h
  cases h
  rfl

theorem additionAction_pointer (hpointer : object.indirect ≠ 0)
    (h : additionAction object member = .ok n) :
    member.indirect = 0 ∧ member.typeKind.isInteger ∧
      n = .binaryOp object.attrs .add object (pointerOffset member) := by
  unfold additionAction at h
  rw [if_pos hpointer] at h
  obtain ⟨hmember, h⟩ := ok_of_ite h
  cases h
  simp only [not_or, Bool.not_eq_true', Bool.not_eq_false, ne_eq, not_not] at hmember
  exact ⟨hmember.1, hmember.2, rfl⟩

theorem castAction_ok {a : Attrs} (h : castAction a object = .ok n) :
    n = .type a object ∧ (a.indirect ≠ 0 ∨ a.typeKind.isNumeric) := by
  unfold castAction at h
  split at h
  next hcast =>
    cases h
    refine ⟨rfl, ?_⟩
    rcases hcast with
      ⟨hpointer, _⟩ | ⟨hpointer, _⟩ | ⟨hpointer, _⟩ | ⟨_, hinteger, _⟩ | ⟨hnumber, _⟩
    · exact .inl hpointer
    · exact .inl hpointer
    · exact .inl hpointer
    · exact .inr (isNumeric_of_isInteger hinteger)
    · exact .inr hnumber
  · cases h

variable {env : Env} {step : Nat} {a : Attrs} {x p i : Expr} {f : String} {m : AstNode}

theorem sameValue_deref_addr (hm : (Expr.unaryOp .deref (.unaryOp .addr x)).ast T scope = .ok m)
    (hn : x.ast T scope = .ok n) : SameValue env step m n := by
  obtain ⟨place, hplace, hderef⟩ := ok_of_bind hm
  obtain ⟨object, hobject, haddr⟩ := ok_of_bind hplace
  obtain rfl : object = n := Except.ok.inj (hobject.symm.trans hn)
  obtain ⟨hlvalue, rfl⟩ := unaryAction_addr haddr
  obtain rfl := unaryAction_deref hderef
  have hattrs : ({ object.attrs with indirect := object.indirect + 1 - 1 } : Attrs) =
      object.attrs := by
    have hindirect : object.indirect + 1 - 1 = object.attrs.indirect := Int.add_sub_cancel ..
    rw [hindirect]
  change SameValue env step (.unaryOp { object.attrs with indirect := object.indirect + 1 - 1 }
    .deref (.unaryOp _ .addr object)) object
  rw [hattrs]
  exact (SameValue.of_succeedsAs (by rfl) fun flags => deref_addr hlvalue).symm

theorem sameValue_arrow_addr (hm : (Expr.arrow (.unaryOp .addr x) f).ast T scope = .ok m)
    (hn : (Expr.field x f).ast T scope = .ok n) : SameValue env step m n := by
  obtain ⟨place, hplace, harrow⟩ := ok_of_bind hm
  obtain ⟨object, hobject, haddr⟩ := ok_of_bind hplace
  obtain ⟨object', hobject', hfield⟩ := ok_of_bind hn
  obtain rfl : object = object' := Except.ok.inj (hobject.symm.trans hobject')
  obtain ⟨_, rfl⟩ := unaryAction_addr haddr
  obtain ⟨a, start, hdetails, rfl⟩ := arrowAction_ok harrow
  obtain ⟨a', start', hdetails', rfl⟩ := fieldAction_ok hfield
  -- the type of `&x` is that of `x`, so one field was found
  cases hdetails.symm.trans hdetails'
  refine SameValue.of_succeedsAs rfl fun flags => succeedsAs_of_eq (field_congr ?_)
  rw [evaluateNode_deref_addr, evaluateNode]

theorem sameValue_field_deref (hm : (Expr.field (.unaryOp .deref p) f).ast T scope = .ok m)
    (hn : (Expr.arrow p f).ast T scope = .ok n) : SameValue env step m n := by
  obtain ⟨place, hplace, hfield⟩ := ok_of_bind hm
  obtain ⟨object, hobject, hderef⟩ := ok_of_bind hplace
  obtain ⟨object', hobject', harrow⟩ := ok_of_bind hn
  obtain rfl : object = object' := Except.ok.inj (hobject.symm.trans hobject')
  obtain rfl := unaryAction_deref hderef
  obtain ⟨a, start, hdetails, rfl⟩ := fieldAction_ok hfield
  obtain ⟨a', start', hdetails', rfl⟩ := arrowAction_ok harrow
  cases hdetails.symm.trans hdetails'
  refine SameValue.of_succeedsAs rfl fun flags => succeedsAs_of_eq (field_congr ?_)
  rw [evaluateNode_deref_addr, evaluateNode_deref_addr]

theorem sameValue_deref_add (hp : p.ast T scope = .ok object) (hpointer : object.indirect ≠ 0)
    (hkind : object.typeKind ≠ .array)
    (hm : (Expr.unaryOp .deref (.binaryOp .add p i)).ast T scope = .ok m)
    (hn : (Expr.item p i).ast T scope = .ok n) : SameValue env step m n := by
  obtain ⟨sum, hsum, hderef⟩ := ok_of_bind hm
  obtain ⟨left, hleft, hright⟩ := ok_of_bind hsum
  obtain ⟨member, hmember, hadd⟩ := ok_of_bind hright
  obtain ⟨left', hleft', hright'⟩ := ok_of_bind hn
  obtain ⟨member', hmember', hsubscript⟩ := ok_of_bind hright'
  obtain rfl : object = left := Except.ok.inj (hp.symm.trans hleft)
  obtain rfl : object = left' := Except.ok.inj (hp.symm.trans hleft')
  obtain rfl : member = member' := Except.ok.inj (hmember.symm.trans hmember')
  obtain ⟨hdirect, hinteger, rfl⟩ := additionAction_pointer hpointer hadd
  obtain rfl := unaryAction_deref hderef
  obtain rfl := subscriptAction_pointer hkind hsubscript
  refine (SameValue.of_succeedsAs (by rfl) fun flags => ?_).symm
  exact item_deref hpointer hinteger hdirect rfl

end

/-- Two ways to write one lvalue have one value, where both have one. -/
theorem lvalue_algebra (T : Tables) (scope : Nat) (env : Env) (step : Nat) :
    (∀ x m n, (Expr.unaryOp .deref (.unaryOp .addr x)).ast T scope = .ok m →
      x.ast T scope = .ok n → SameValue env step m n) ∧
    (∀ x f m n, (Expr.arrow (.unaryOp .addr x) f).ast T scope = .ok m →
      (Expr.field x f).ast T scope = .ok n → SameValue env step m n) ∧
    (∀ p f m n, (Expr.field (.unaryOp .deref p) f).ast T scope = .ok m →
      (Expr.arrow p f).ast T scope = .ok n → SameValue env step m n) ∧
    (∀ p i a m n, p.ast T scope = .ok a → a.indirect = 1 → a.typeKind.isNumeric →
      (Expr.unaryOp .deref (.binaryOp .add p i)).ast T scope = .ok m →
      (Expr.item p i).ast T scope = .ok n → SameValue env step m n) := by
  refine ⟨?_, ?_, ?_, ?_⟩
  · intro x m n hm hn
    exact sameValue_deref_addr hm hn
  · intro x f m n hm hn
    exact sameValue_arrow_addr hm hn
  · intro p f m n hm hn
    exact sameValue_field_deref hm hn
  · intro p i a m n hp hsingle hnumeric hm hn
    have hpointer : a.indirect ≠ 0 := by
      rw [hsingle]
      decide
    have hkind : a.typeKind ≠ .array := by
      intro harray
      rw [harray] at hnumeric
      cases hnumeric
    exact sameValue_deref_add hp hpointer hkind hm hn

/-! ### Example -/

/-- `int *p`, `struct { int g, f; } s` and a pointer `q` to such a struct. -/
def lvalueTables : Tables where
  varDetails name _ :=
    if name = "p" then some (1, ⟨5, .signed, 4, 1⟩)
    else if name = "s" then some (2, ⟨7, .struct, 8, 0⟩)
    else if name = "q" then some (3, ⟨7, .struct, 8, 1⟩)
    else none
  fieldDetails name offset :=
    if name = "f" ∧ offset = 7 then some (⟨5, .signed, 4, 0⟩, 4) else none
  baseTypeDetails _ := none
  structDetails _ := none
  typeDetails _ := none

/-- One segment: `p`, then `s`, then `q`, which points to `s`, then what `p` points to. -/
def lvalueRecording : Env :=
  { noRecording with
    mem := some [⟨64, 1, [88, 0, 0, 0, 0, 0, 0, 0, 1, 0, 0, 0, 2, 0, 0, 0,
      72, 0, 0, 0, 0, 0, 0, 0, 3, 0, 0, 0, 4, 0, 0, 0]⟩]
    varAddress := fun id _ => some (BitVec.ofNat 64 (56 + 8 * id))
    typeSize := fun _ => some (4, 0) }

/-- The two expressions are accepted, and both have the value. -/
def BothEvaluate (e₁ e₂ : Expr) (v : NodeValue) : Prop :=
  ∃ m n, e₁.ast lvalueTables 0 = .ok m ∧ e₂.ast lvalueTables 0 = .ok n ∧
    Evaluates lvalueRecording 1 m v ∧ Evaluates lvalueRecording 1 n v ∧
      SameValue lvalueRecording 1 m n

theorem lvalue_algebra_sample :
    BothEvaluate (.unaryOp .deref (.unaryOp .addr (.field (.identifier "s") "f")))
      (.field (.identifier "s") "f") 2 ∧
    BothEvaluate (.arrow (.unaryOp .addr (.identifier "s")) "f")
      (.field (.identifier "s") "f") 2 ∧
    BothEvaluate (.field (.unaryOp .deref (.identifier "q")) "f")
      (.arrow (.identifier "q") "f") 2 ∧
    BothEvaluate (.unaryOp .deref (.binaryOp .add (.identifier "p") (.constant (.integer 1))))
      (.item (.identifier "p") (.constant (.integer 1))) 4 := by
  obtain ⟨hderef, harrow, hfield, hitem⟩ := lvalue_algebra lvalueTables 0 lvalueRecording 1
  refine ⟨?_, ?_, ?_, ?_⟩
  · exact ⟨_, _, rfl, rfl, ⟨{}, by rfl, rfl⟩, ⟨{}, by rfl, rfl⟩,
      hderef (.field (.identifier "s") "f") _ _ rfl rfl⟩
  · exact ⟨_, _, rfl, rfl, ⟨{}, by rfl, rfl⟩, ⟨{}, by rfl, rfl⟩,
      harrow (.identifier "s") "f" _ _ rfl rfl⟩
  · exact ⟨_, _, rfl, rfl, ⟨{}, by rfl, rfl⟩, ⟨{}, by rfl, rfl⟩,
      hfield (.identifier "q") "f" _ _ rfl rfl⟩
  · exact ⟨_, _, rfl, rfl, ⟨{}, by rfl, rfl⟩, ⟨{}, by rfl, rfl⟩,
      hitem (.identifier "p") (.constant (.integer 1)) _ _ _ rfl rfl rfl rfl rfl⟩

end FlightRec.Expressions
