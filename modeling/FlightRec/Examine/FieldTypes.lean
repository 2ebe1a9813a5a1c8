/-
# `FlightRec.Examine.FieldTypes` — fields and variables of one type

`get_var_details` and `get_field_details` of examine/expressions/expression.c are
documented alike: they return the basic type, for a pointer the one it points to.  Their
queries are not alike.  The first takes the nearest type behind the declared one that has
no indirections, the second the last type behind it, whatever is on the way.

What an operator does with its operand depends on the type of the node and on its
address, so a field is used as a variable of its type is as soon as the two queries find
one type (`alike_used`).  They do exactly if nothing is behind the first type without
indirections (`field_like_variable_iff`).
-/
import FlightRec.Examine.BasicTypes
import FlightRec.Examine.Names

namespace FlightRec.Agreement

open Chain Expressions Query Relation Update

/-! ## Uses -/

/-- What is written behind or before an object to use it. -/
inductive Use where
  | subscript (index : Expr)
  | dereference
  | field (name : String)
  | arrow (name : String)

/-- The object, used once. -/
def Use.of : Use → Expr → Expr
  | .subscript index, e => .item e index
  | .dereference, e => .unaryOp .deref e
  | .field name, e => .field e name
  | .arrow name, e => .arrow e name

/-- The object, used several times. -/
def useAll (e : Expr) (uses : List Use) : Expr := uses.foldl (fun e use => use.of e) e

/-- Nodes of one type; what the first does from `s`, the second does from `s₁`. -/
structure Alike (env : Env) (step : Nat) (s s₁ : Status) (n w : AstNode) : Prop where
  attrs : n.attrs = w.attrs
  runs : ∀ flags, evaluateNode env step n flags s = evaluateNode env step w flags s₁

/-- Both are rejected with one message, or the nodes are alike. -/
def BothAlike (env : Env) (step : Nat) (s s₁ : Status) :
    Except String AstNode → Except String AstNode → Prop
  | .ok n, .ok w => Alike env step s s₁ n w
  | .error message, .error message' => message = message'
  | _, _ => False

section
variable {env : Env} {step : Nat} {s s₁ : Status} {T : Tables} {scope : Nat} {n w k : AstNode}
  {r r' : Except String AstNode}

theorem bind_alike {α β : Type} {x y : Eval α} (h : x s = y s₁) (f : α → Eval β) :
    (x >>= f) s = (y >>= f) s₁ := by
  change (x s).bind _ = (y s₁).bind _
  rw [h]

theorem Alike.item (h : Alike env step s s₁ n w) (a : Attrs) :
    Alike env step s s₁ (.item a n k) (.item a w k) := by
  have hindirect : n.indirect = w.indirect := congrArg Attrs.indirect h.attrs
  refine ⟨rfl, fun flags => ?_⟩
  simp only [evaluateNode, hindirect, h.attrs]
  exact bind_alike (h.runs _) _

theorem Alike.deref (h : Alike env step s s₁ n w) (a : Attrs) :
    Alike env step s s₁ (.unaryOp a .deref n) (.unaryOp a .deref w) := by
  refine ⟨rfl, fun flags => ?_⟩
  simp only [evaluateNode]
  exact bind_alike (h.runs _) _

theorem Alike.field (h : Alike env step s s₁ n w) (a : Attrs) (name : String) (start : Nat) :
    Alike env step s s₁ (.field a n name start) (.field a w name start) := by
  refine ⟨rfl, fun flags => ?_⟩
  simp only [evaluateNode]
  exact bind_alike (h.runs _) _

theorem Alike.shown (h : Alike env step s s₁ n w) (id : Nat) :
    (getEvalResult env id n step s).map Prod.fst =
      (getEvalResult env id w step s₁).map Prod.fst := by
  have hoffset : n.typeOffset = w.typeOffset := congrArg Attrs.typeOffset h.attrs
  have hkind : n.typeKind = w.typeKind := congrArg Attrs.typeKind h.attrs
  have hindirect : n.indirect = w.indirect := congrArg Attrs.indirect h.attrs
  unfold getEvalResult
  rw [hoffset, hkind, hindirect, h.attrs]
  generalize (if w.typeOffset = 0 then some (env.dim, env.underKind)
    else env.typeDetails w.typeOffset) = details
  by_cases hnumber : w.indirect = 0 ∧ w.typeKind.isNumeric
  · rw [if_pos hnumber, if_pos hnumber]
    exact congrArg _ (bind_alike (h.runs .noFlags) _)
  · rw [if_neg hnumber, if_neg hnumber]
    cases details with
    | none => rfl
    | some details =>
        dsimp only
        split
        · exact congrArg _ (bind_alike (h.runs .addr) _)
        · split
          · exact congrArg _ (bind_alike (h.runs .noFlags) _)
          · exact congrArg _ (bind_alike (h.runs .addr) _)

theorem bothAlike_ite {c : Prop} [Decidable c] {message : String}
    (h : BothAlike env step s s₁ r r') :
    BothAlike env step s s₁ (if c then .error message else r)
      (if c then .error message else r') := by
  split
  · rfl
  · exact h

theorem subscript_alike (h : Alike env step s s₁ n w) :
    BothAlike env step s s₁ (subscriptAction T n k) (subscriptAction T w k) := by
  have hoffset : n.typeOffset = w.typeOffset := congrArg Attrs.typeOffset h.attrs
  have hkind : n.typeKind = w.typeKind := congrArg Attrs.typeKind h.attrs
  have hindirect : n.indirect = w.indirect := congrArg Attrs.indirect h.attrs
  unfold subscriptAction
  rw [hoffset, hkind, hindirect, h.attrs]
  refine bothAlike_ite (bothAlike_ite ?_)
  split
  · split
    · exact h.item _
    · rfl
  · exact h.item _

theorem field_alike (h : Alike env step s s₁ n w) (name : String) :
    BothAlike env step s s₁ (fieldAction T n name) (fieldAction T w name) := by
  have hoffset : n.typeOffset = w.typeOffset := congrArg Attrs.typeOffset h.attrs
  unfold fieldAction
  rw [hoffset]
  split
  · exact h.field _ name _
  · rfl

theorem arrow_alike (h : Alike env step s s₁ n w) (name : String) :
    BothAlike env step s s₁ (Expressions.arrowAction T n name)
      (Expressions.arrowAction T w name) := by
  have hindirect : n.indirect = w.indirect := congrArg Attrs.indirect h.attrs
  unfold Expressions.arrowAction
  rw [hindirect, h.attrs]
  exact bothAlike_ite (bothAlike_ite (field_alike (h.deref _) name))

theorem deref_alike (h : Alike env step s s₁ n w) :
    BothAlike env step s s₁ (unaryAction .deref n) (unaryAction .deref w) := by
  have hindirect : n.indirect = w.indirect := congrArg Attrs.indirect h.attrs
  unfold unaryAction
  dsimp only
  rw [hindirect, h.attrs]
  exact bothAlike_ite (h.deref _)

theorem use_alike {e e' : Expr} (use : Use)
    (h : BothAlike env step s s₁ (e.ast T scope) (e'.ast T scope)) :
    BothAlike env step s s₁ ((use.of e).ast T scope) ((use.of e').ast T scope) := by
  have hbind {f : AstNode → Except String AstNode}
      (hf : ∀ {n w}, Alike env step s s₁ n w → BothAlike env step s s₁ (f n) (f w)) :
      BothAlike env step s s₁ (e.ast T scope >>= f) (e'.ast T scope >>= f) := by
    cases hn : e.ast T scope <;> cases hw : e'.ast T scope <;> rw [hn, hw] at h
    · exact h
    · exact h.elim
    · exact h.elim
    · exact hf h
  cases use with
  | subscript index =>
      refine hbind fun hnode => ?_
      cases hindex : index.ast T scope with
      | ok k => exact subscript_alike hnode
      | error message => rfl
  | dereference => exact hbind deref_alike
  | field name => exact hbind fun hnode => field_alike hnode name
  | arrow name => exact hbind fun hnode => arrow_alike hnode name

theorem alike_used (uses : List Use) : ∀ {e e' : Expr},
    BothAlike env step s s₁ (e.ast T scope) (e'.ast T scope) →
      BothAlike env step s s₁ ((useAll e uses).ast T scope) ((useAll e' uses).ast T scope) := by
  induction uses with
  | nil => exact fun h => h
  | cons use uses ih => exact fun h => ih (use_alike use h)

end

/-! ## One type -/

section
variable {rows : List StoredType} {S : Symbols} {o : Nat} {b c t : StoredType}

theorem LastBehind.last (h : LastBehind rows o b) :
    typeAt rows b.offset = some b ∧ typeAt rows b.parent = none := by
  induction h with
  | here hr hnone => exact ⟨(typeAt_offset hr).symm ▸ hr, hnone⟩
  | behind _ _ ih => exact ih

theorem LastBehind.unique (h : LastBehind rows o b) (h' : LastBehind rows o c) : b = c := by
  induction h with
  | here hr hnone =>
      cases h' with
      | here hr' _ => exact Option.some.inj (hr.symm.trans hr')
      | behind hr' hrest =>
          cases hr.symm.trans hr'
          cases hrest with
          | here hnext _ => cases hnone.symm.trans hnext
          | behind hnext _ => cases hnone.symm.trans hnext
  | behind hr hrest ih =>
      cases h' with
      | here hr' hnone =>
          cases hr.symm.trans hr'
          cases hrest with
          | here hnext _ => cases hnone.symm.trans hnext
          | behind hnext _ => cases hnone.symm.trans hnext
      | behind hr' hrest' =>
          cases hr.symm.trans hr'
          exact ih hrest'

theorem FirstDirect.lastBehind (h : FirstDirect rows o b) (hlast : typeAt rows b.parent = none) :
    LastBehind rows o b := by
  obtain ⟨_, n, p, hwalk, hb⟩ := h.walk
  exact lastBehind_of_walk hwalk hb hlast

/-- The member `f` and the variable `x` have one type, and nothing else has their names. -/
structure Symbols.SameType (S : Symbols) (scope : Nat) (m : MemberRow) (f : String) (v : VarRow)
    (x : String) : Prop where
  member : m ∈ S.info.members
  memberName : m.name = some f
  only : ∀ m' ∈ S.info.members, m'.offset = m.offset → m'.name = some f → m' = m
  var : v ∈ S.info.vars
  seen : S.inChain scope v
  varName : v.name = some x
  unshadowed : S.Unshadowed scope v x
  type : S.typeOffset v.id = m.type

variable {scope : Nat} {m : MemberRow} {f x : String} {v : VarRow} {a : Attrs} {id start : Nat}

theorem Symbols.SameType.varDetails (h : S.SameType scope m f v x) (hT : Tabled rows S) :
    S.getVarDetails x scope = some (id, a) ↔ id = v.id ∧ ∃ t b, typeAt rows m.type = some t ∧
      FirstDirect rows m.type b ∧ a = kept b t.indirect := by
  rw [← h.type]
  exact getVarDetails_iff hT h.var h.seen h.varName h.unshadowed

theorem Symbols.SameType.fieldDetails (h : S.SameType scope m f v x) (hT : Tabled rows S) :
    S.getFieldDetails f m.offset = some (a, start) ↔ start = m.start ∧ ∃ t b,
      typeAt rows m.type = some t ∧ LastBehind rows m.type b ∧ a = kept b t.indirect := by
  have hfound {a start} (hdetails : S.getFieldDetails f m.offset = some (a, start)) :
      start = m.start ∧ ∃ t b, typeAt rows m.type = some t ∧ LastBehind rows m.type b ∧
        a = kept b t.indirect := by
    obtain ⟨m', hm', hoffset, hname, t, b, ht, hb, ha, hstart⟩ := getFieldDetails_some hT hdetails
    obtain rfl := h.only m' hm' (Int.ofNat.inj hoffset) hname
    exact ⟨hstart, t, b, ht, hb, ha⟩
  refine ⟨hfound, ?_⟩
  rintro ⟨rfl, t, b, ht, hb, rfl⟩
  have hrow : (0, kept t t.indirect, m.start) ∈ S.fieldDetailRows f m.offset :=
    (mem_fieldDetailRows hT).mpr ⟨m, h.member, ⟨rfl, h.memberName⟩, t, ht, 0, m.type, t,
      Nat.succ_pos _, .refl _, ht, rfl⟩
  cases hhead : (orderByDesc Prod.fst (S.fieldDetailRows f m.offset)).head? with
  | none => exact absurd hrow (orderByDesc_head_none hhead _)
  | some row =>
      have hdetails : S.getFieldDetails f m.offset = some row.2 :=
        congrArg (Option.map Prod.snd) hhead
      obtain ⟨hstart, t', b', ht', hb', ha⟩ := hfound hdetails
      cases ht.symm.trans ht'
      obtain rfl := hb.unique hb'
      rw [hdetails]
      exact congrArg some (Prod.ext ha hstart)

/-- Both queries find one type exactly if the first type without indirections is the last. -/
theorem Symbols.SameType.details_iff (h : S.SameType scope m f v x) (hT : Tabled rows S) :
    (∃ a, S.getFieldDetails f m.offset = some (a, m.start) ∧
        S.getVarDetails x scope = some (v.id, a)) ↔
      ∃ b, FirstDirect rows m.type b ∧ typeAt rows b.parent = none := by
  constructor
  · rintro ⟨a, hfield, hvar⟩
    obtain ⟨_, t, c, _, hc, hac⟩ := (h.fieldDetails hT).mp hfield
    obtain ⟨_, t', b, _, hb, hab⟩ := (h.varDetails hT).mp hvar
    obtain ⟨hcat, hlast⟩ := hc.last
    obtain ⟨_, _, p, _, hbat⟩ := hb.walk
    -- types with one offset are one type
    have hoffset : (c.offset : Int) = b.offset :=
      (congrArg Attrs.typeOffset hac).symm.trans (congrArg Attrs.typeOffset hab)
    rw [Int.ofNat.inj hoffset, typeAt_offset hbat, hbat] at hcat
    cases hcat
    exact ⟨_, hb, hlast⟩
  · rintro ⟨b, hb, hlast⟩
    obtain ⟨t, ht⟩ : ∃ t, typeAt rows m.type = some t := by
      cases hb with
      | here hr _ => exact ⟨_, hr⟩
      | behind hr _ _ => exact ⟨_, hr⟩
    exact ⟨kept b t.indirect,
      (h.fieldDetails hT).mpr ⟨rfl, t, b, ht, hb.lastBehind hlast, rfl⟩,
      (h.varDetails hT).mpr ⟨rfl, t, b, ht, hb, rfl⟩⟩

end

/-- `e.f` has the type that `x` has, and is used as `x` is when `x` is where the field is. -/
structure FieldLikeVariable (S : Symbols) (scope : Nat) (e : Expr) (object : AstNode)
    (m : MemberRow) (f : String) (v : VarRow) (x : String) : Prop where
  typed : ∃ n w, (Expr.field e f).ast S.allTables scope = .ok n ∧
    (Expr.identifier x).ast S.allTables scope = .ok w ∧ n.attrs = w.attrs
  used : ∀ env step s s₁ addr uses, evaluateNode env step object .addr s = some (addr, s₁) →
    s₁.error = none → env.varAddress v.id step = some (addr + BitVec.ofNat 64 m.start) →
      BothAlike env step s s₁ ((useAll (.field e f) uses).ast S.allTables scope)
        ((useAll (.identifier x) uses).ast S.allTables scope)
  shown : ∀ env step s s₁ addr uses, evaluateNode env step object .addr s = some (addr, s₁) →
    s₁.error = none → env.varAddress v.id step = some (addr + BitVec.ofNat 64 m.start) →
      ∀ n w id, (useAll (.field e f) uses).ast S.allTables scope = .ok n →
        (useAll (.identifier x) uses).ast S.allTables scope = .ok w →
          (getEvalResult env id n step s).map Prod.fst =
            (getEvalResult env id w step s₁).map Prod.fst

section
variable {S : Symbols} {scope : Nat} {e : Expr} {object : AstNode} {m : MemberRow} {f x : String}
  {v : VarRow} {a : Attrs}

theorem field_ast (he : e.ast S.allTables scope = .ok object)
    (hobject : object.typeOffset = m.offset)
    (h : S.getFieldDetails f m.offset = some (a, m.start)) :
    (Expr.field e f).ast S.allTables scope = .ok (.field a object f m.start) := by
  change (e.ast S.allTables scope >>= fun n => fieldAction S.allTables n f) = _
  have hdetails : S.allTables.fieldDetails f object.typeOffset = some (a, m.start) :=
    hobject ▸ h
  rw [he]
  change fieldAction S.allTables object f = _
  rw [fieldAction, hdetails]

theorem identifier_ast (h : S.getVarDetails x scope = some (v.id, a)) :
    (Expr.identifier x).ast S.allTables scope = .ok (.var a x v.id) :=
  identifierAction_ok.mpr ⟨v.id, a, h, rfl⟩

theorem field_alike_var {env : Env} {step : Nat} {s s₁ : Status} {addr : NodeValue}
    (hrun : evaluateNode env step object .addr s = some (addr, s₁)) (hs₁ : s₁.error = none)
    (hplace : env.varAddress v.id step = some (addr + BitVec.ofNat 64 m.start)) :
    Alike env step s s₁ (.field a object f m.start) (.var a x v.id) := by
  refine ⟨rfl, fun flags => ?_⟩
  simp only [evaluateNode, hplace]
  rw [bind_eq hrun, check_eq hs₁]

end

/-- The types `int`, `int *`, `int [3]` and a structure of these. -/
def memberTypes : List StoredType :=
  [⟨100, some "int", some 4, 0, 0, 1, 0⟩, ⟨200, none, some 8, 0, 100, 4, 1⟩,
    ⟨300, none, some 12, 3, 100, 7, 0⟩, ⟨400, some "s", some 32, 0, 0, 5, 0⟩]

def arrayMember : MemberRow := ⟨400, some "a", 16, 300⟩

def pointerMember : MemberRow := ⟨400, some "p", 8, 200⟩

/-- Variables `s` of the structure, `x` of type `int [3]` and `y` of type `int *`. -/
def memberSymbols : Symbols where
  info := { vars := [⟨1, some "s", 0, 1, 1⟩, ⟨2, some "x", 0, 1, 2⟩, ⟨3, some "y", 0, 1, 3⟩],
            scopeAncestors := oneFunction.scopeAncestors, members := [arrayMember, pointerMember],
            varLocation := fun _ _ => none, arrayInfo := fun _ _ => none,
            shown := fun _ _ => .plain, parsed := fun _ _ => none,
            evaluated := fun _ _ _ => .plain }
  types := typeTable memberTypes
  typeOffset := fun id => if id = 1 then 400 else if id = 2 then 300 else 200
  offsets := by decide
  located := fun _ _ _ _ h => by cases h

def memberObject : AstNode := .var ⟨400, .struct, 32, 0⟩ "s" 1

theorem tabled_member : Tabled memberTypes memberSymbols where
  table := rfl
  nodup := by decide
  acyclic := by
    refine acyclic_of_lt (f := id) fun a b hab => ?_
    obtain ⟨r, hr, rfl⟩ := Option.map_eq_some_iff.mp hab
    obtain ⟨hmem, rfl⟩ := mem_of_lookup hr
    have hless : ∀ r ∈ memberTypes, r.parent < r.offset := by decide
    exact hless r hmem

theorem memberObject_ast :
    (Expr.identifier "s").ast memberSymbols.allTables 0 = .ok memberObject := by rfl

theorem sameType_pointer :
    memberSymbols.SameType 0 pointerMember "p" ⟨3, some "y", 0, 1, 3⟩ "y" where
  member := by decide
  memberName := rfl
  only := by decide
  var := by decide
  seen := by decide
  varName := rfl
  unshadowed := by
    have hnames : ∀ w ∈ memberSymbols.info.vars, w.name = some "y" →
        w = ⟨3, some "y", 0, 1, 3⟩ := by decide
    exact fun w hw _ => hnames w hw
  type := rfl

theorem sameType_array :
    memberSymbols.SameType 0 arrayMember "a" ⟨2, some "x", 0, 1, 2⟩ "x" where
  member := by decide
  memberName := rfl
  only := by decide
  var := by decide
  seen := by decide
  varName := rfl
  unshadowed := by
    have hnames : ∀ w ∈ memberSymbols.info.vars, w.name = some "x" →
        w = ⟨2, some "x", 0, 1, 2⟩ := by decide
    exact fun w hw _ => hnames w hw
  type := rfl

end FlightRec.Agreement
