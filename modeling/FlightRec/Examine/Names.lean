/-
# `FlightRec.Examine.Names` — the variable that a name means

The parser asks `get_var_details` (examine/expressions/expression.c) for the variable of
an identifier.  The query finds all variables of the name in the scopes around the frame,
each with the types behind its own that are no pointers, and takes a row that is the
nearest to its variable in the table of types.  The scopes are not compared, so what an
inner declaration hides is only hidden if it has a longer way to such a type
(`name_resolves_iff`).
-/
import FlightRec.Examine.Agreement
import FlightRec.Record.Scopes

namespace FlightRec.Agreement

open Expressions Query

/-! ## Resolution -/

/-- The parser's query for variables returns the first row of an answer; the order of
rows of one depth is left open. -/
def Symbols.Answered (S : Symbols) (T : Tables) : Prop :=
  ∀ name scope, ∃ out, Answers Prod.fst (S.varDetailRows name scope) out ∧
    T.varDetails name scope = out.head?.map Prod.snd

/-- A variable of the name is declared in the scope. -/
def Symbols.Declared (S : Symbols) (name : String) (scope : Nat) (v : VarRow) : Prop :=
  v ∈ S.info.vars ∧ v.name = some name ∧ v.scopeId = scope

/-- Wherever the order is left open, an identifier becomes a variable of the innermost
scope that declares one. -/
def Symbols.ResolvesInnermost (S : Symbols) (t : ScopeTree) (name : String) (scope : Nat) :
    Prop :=
  ∀ T, S.Answered T → ∀ r, t.Innermost (fun s => ∃ v, S.Declared name s v) scope r →
    ∃ v a, S.Declared name r v ∧ identifierAction T scope name = .ok (.var a name v.id)

/-- Behind the type of the variable, at this depth, is a type that is no pointer. -/
def Symbols.Direct (S : Symbols) (v : VarRow) (depth : Nat) : Prop :=
  ∃ t ∈ S.types, t.offset = S.typeOffset v.id ∧
    ∃ r ∈ S.typeRelation (S.types.length + 1) 0 t.offset, r.2 = depth ∧
      ∃ b ∈ S.types, b.offset = r.1 ∧ b.indirect = 0

section
variable {S : Symbols} {name : String} {scope : Nat}

theorem row_of_direct {v : VarRow} {depth : Nat} (hv : v ∈ S.info.vars)
    (hseen : S.inChain scope v ∧ v.name = some name) (h : S.Direct v depth) :
    ∃ a, (depth, v.id, a) ∈ S.varDetailRows name scope := by
  obtain ⟨t, ht, hoffset, r, hr, rfl, b, hb, hdirect⟩ := h
  exact ⟨_, mem_varDetailRows.mpr ⟨v, hv, hseen, t, ht, hoffset, r, hr, b, hb, hdirect, rfl⟩⟩

theorem direct_of_row {depth id : Nat} {a : Attrs}
    (h : (depth, id, a) ∈ S.varDetailRows name scope) :
    ∃ v ∈ S.info.vars, (S.inChain scope v ∧ v.name = some name) ∧ v.id = id ∧ S.Direct v depth := by
  obtain ⟨v, hv, hseen, t, ht, hoffset, r, hr, b, hb, hdirect, heq⟩ := mem_varDetailRows.mp h
  obtain ⟨hdepth, hrest⟩ := Prod.mk.inj heq
  exact ⟨v, hv, hseen, (Prod.mk.inj hrest).1, t, ht, hoffset, r, hr, hdepth, b, hb, hdirect⟩

theorem exists_answered {out : List (Nat × Nat × Attrs)}
    (h : Answers Prod.fst (S.varDetailRows name scope) out) (T : Tables) :
    ∃ T', S.Answered T' ∧ T'.varDetails name scope = out.head?.map Prod.snd := by
  refine ⟨{ T with varDetails := fun name' scope' =>
    if name' = name ∧ scope' = scope then out.head?.map Prod.snd
    else S.getVarDetails name' scope' }, fun name' scope' => ?_, if_pos ⟨rfl, rfl⟩⟩
  by_cases hquery : name' = name ∧ scope' = scope
  · obtain ⟨rfl, rfl⟩ := hquery
    exact ⟨out, h, if_pos ⟨rfl, rfl⟩⟩
  · exact ⟨_, orderBy_answers _ _, if_neg hquery⟩

/-- What is true of all answers is true of the rows of least depth. -/
theorem forall_answered_iff {P : Option (Nat × Attrs) → Prop} :
    (∀ T, S.Answered T → P (T.varDetails name scope)) ↔
      (S.varDetailRows name scope = [] → P none) ∧
        ∀ r ∈ S.varDetailRows name scope,
          (∀ x ∈ S.varDetailRows name scope, r.1 ≤ x.1) → P (some r.2) := by
  refine Iff.trans ?_ (forall_answers_head_iff (P := fun r => P (r.map Prod.snd)))
  constructor
  · intro h out hout
    obtain ⟨T, hT, heq⟩ := exists_answered hout noTables
    rw [← heq]
    exact h T hT
  · intro h T hT
    obtain ⟨out, hout, heq⟩ := hT name scope
    rw [heq]
    exact h out hout

theorem inChain_iff {t : ScopeTree} (hscopes : S.info.scopeAncestors = t.scopeAncestors)
    {v : VarRow} : S.inChain scope v ↔ t.Visible scope v.scopeId := by
  rw [ScopeTree.visible_iff, Symbols.inChain, hscopes, ScopeTree.mem_scopeAncestors_iff]

theorem identifier_resolves_iff {T : Tables} {r : Nat} :
    (∃ v a, S.Declared name r v ∧ identifierAction T scope name = .ok (.var a name v.id)) ↔
      ∃ v a, S.Declared name r v ∧ T.varDetails name scope = some (v.id, a) := by
  refine exists_congr fun v => exists_congr fun a => and_congr_right fun _ => ?_
  rw [identifierAction_ok]
  constructor
  · rintro ⟨id, b, hdetails, heq⟩
    cases heq
    exact hdetails
  · exact fun h => ⟨v.id, a, h, rfl⟩

/-- All rows of least depth are of one scope exactly if one of its variables has a row
before those of all others. -/
theorem least_rows_iff {t : ScopeTree} (hscopes : S.info.scopeAncestors = t.scopeAncestors)
    (hids : (S.info.vars.map (·.id)).Nodup) {r : Nat} (hr : t.Visible scope r) :
    (S.varDetailRows name scope ≠ [] ∧ ∀ x ∈ S.varDetailRows name scope,
        (∀ y ∈ S.varDetailRows name scope, x.1 ≤ y.1) → ∃ v, S.Declared name r v ∧ v.id = x.2.1) ↔
      ∃ v depth, S.Declared name r v ∧ S.Direct v depth ∧ ∀ w r' depth', S.Declared name r' w →
        t.Visible scope r' → r' ≠ r → S.Direct w depth' → depth < depth' := by
  have hrow {v : VarRow} {s depth : Nat} (hv : S.Declared name s v) (hs : t.Visible scope s)
      (hdirect : S.Direct v depth) : ∃ a, (depth, v.id, a) ∈ S.varDetailRows name scope :=
    row_of_direct hv.1 ⟨(inChain_iff hscopes).mpr (hv.2.2 ▸ hs), hv.2.1⟩ hdirect
  constructor
  · rintro ⟨hne, hleast⟩
    obtain ⟨x, hx, hmin⟩ : ∃ x ∈ S.varDetailRows name scope,
        ∀ y ∈ S.varDetailRows name scope, x.1 ≤ y.1 := by
      cases hhead : (orderBy Prod.fst (S.varDetailRows name scope)).head? with
      | none =>
          exact absurd (List.eq_nil_iff_forall_not_mem.mpr (orderBy_head_none hhead)) hne
      | some x => exact ⟨x, orderBy_head hhead⟩
    obtain ⟨v, hv, hid⟩ := hleast x hx hmin
    obtain ⟨u, hu, _, huid, hdirect⟩ := direct_of_row hx
    obtain rfl : u = v := List.inj_on_of_nodup_map hids hu hv.1 (huid.trans hid.symm)
    refine ⟨u, x.1, hv, hdirect, fun w r' depth' hw hr' hother hdirect' => ?_⟩
    obtain ⟨a, hrow'⟩ := hrow hw hr' hdirect'
    refine Nat.lt_of_le_of_ne (hmin _ hrow') fun heq => hother ?_
    -- a row as near of another scope could come first
    have hmin' : ∀ y ∈ S.varDetailRows name scope, depth' ≤ y.1 := heq ▸ hmin
    obtain ⟨v', hv', hid'⟩ := hleast _ hrow' hmin'
    obtain rfl : v' = w := List.inj_on_of_nodup_map hids hv'.1 hw.1 hid'
    exact hw.2.2.symm.trans hv'.2.2
  · rintro ⟨v, depth, hv, hdirect, hbefore⟩
    obtain ⟨a, hmem⟩ := hrow hv hr hdirect
    refine ⟨List.ne_nil_of_mem hmem, fun x hx hmin => ?_⟩
    obtain ⟨w, hw, hseen, hid, hdirect'⟩ := direct_of_row hx
    refine ⟨w, ⟨hw, hseen.2, ?_⟩, hid⟩
    by_contra hother
    have hlt := hbefore w w.scopeId x.1 ⟨hw, hseen.2, rfl⟩ ((inChain_iff hscopes).mp hseen.1)
      hother hdirect'
    exact absurd (hmin _ hmem) (Nat.not_le_of_lt hlt)

end

/-- An identifier means the variable of the innermost scope that declares one exactly if
its way to a type that is no pointer is the shortest of those that can be seen. -/
theorem name_resolves_iff (S : Symbols) (t : ScopeTree)
    (hscopes : S.info.scopeAncestors = t.scopeAncestors) (hids : (S.info.vars.map (·.id)).Nodup)
    (name : String) (scope : Nat) :
    S.ResolvesInnermost t name scope ↔
      ∀ r, t.Innermost (fun s => ∃ v, S.Declared name s v) scope r →
        ∃ v depth, S.Declared name r v ∧ S.Direct v depth ∧
          ∀ w r' depth', S.Declared name r' w → t.Visible scope r' → r' ≠ r →
            S.Direct w depth' → depth < depth' := by
  have hanswers (r : Nat) : (∀ T, S.Answered T → ∃ v a, S.Declared name r v ∧
      identifierAction T scope name = .ok (.var a name v.id)) ↔
      (S.varDetailRows name scope ≠ [] ∧ ∀ x ∈ S.varDetailRows name scope,
        (∀ y ∈ S.varDetailRows name scope, x.1 ≤ y.1) →
          ∃ v, S.Declared name r v ∧ v.id = x.2.1) := by
    simp only [identifier_resolves_iff]
    refine (forall_answered_iff
      (P := fun d => ∃ v a, S.Declared name r v ∧ d = some (v.id, a))).trans ?_
    refine and_congr ?_ (forall₂_congr fun x _ => forall_congr' fun _ => ?_)
    · refine forall_congr' fun _ => ⟨?_, False.elim⟩
      rintro ⟨v, a, _, h⟩
      cases h
    · constructor
      · rintro ⟨v, a, hv, heq⟩
        exact ⟨v, hv, (congrArg Prod.fst (Option.some.inj heq)).symm⟩
      · rintro ⟨v, hv, hid⟩
        exact ⟨v, x.2.2, hv, congrArg some (Prod.ext hid.symm rfl)⟩
  constructor
  · intro h r hr
    exact (least_rows_iff hscopes hids hr.visible).mp ((hanswers r).mp fun T hT => h T hT r hr)
  · intro h T hT r hr
    exact (hanswers r).mpr ((least_rows_iff hscopes hids hr.visible).mpr (h r hr)) T hT

/-! ### Examples -/

/-- A function. -/
def oneFunction : ScopeTree where
  scopes := [⟨1, 0, 1, 0x1000, 0x1010⟩]
  ids := by decide
  parents := by decide

/-- A global `x` and one of a function, of type `int` (100) or `int *` (200). -/
def twoX (outer inner : Nat) : Symbols where
  info := { vars := [⟨1, some "x", 0, 1, 1⟩, ⟨2, some "x", 1, 1, 4⟩],
            scopeAncestors := oneFunction.scopeAncestors, members := [],
            varLocation := fun _ _ => none, arrayInfo := fun _ _ => none,
            shown := fun _ _ => .plain, parsed := fun _ _ => none,
            evaluated := fun _ _ _ => .plain }
  types := [⟨100, some "int", 4, 0, 1, 0⟩, ⟨200, none, 8, 100, 4, 1⟩]
  typeOffset := fun id => if id = 1 then outer else inner
  offsets := by decide
  located := fun _ _ _ _ h => by cases h

example : (twoX 200 100).getVarDetails "x" 1 = some (2, ⟨100, .signed, 4, 0⟩) := by rfl

theorem innermost_twoX (outer inner : Nat) :
    oneFunction.Innermost (fun s => ∃ v, (twoX outer inner).Declared "x" s v) 1 1 where
  visible := .refl
  holds := ⟨⟨2, some "x", 1, 1, 4⟩, by simp [twoX], rfl, rfl⟩
  innermost := fun _ h _ => h

/-- An `int` hides a global pointer to `int`. -/
theorem name_resolves_iff_int : (twoX 200 100).ResolvesInnermost oneFunction "x" 1 := by
  refine (name_resolves_iff (twoX 200 100) oneFunction rfl (by decide) "x" 1).mpr fun r hr => ?_
  obtain rfl := hr.unique (innermost_twoX 200 100)
  refine ⟨⟨2, some "x", 1, 1, 4⟩, 0, ⟨by simp [twoX], rfl, rfl⟩, ?_, ?_⟩
  · exact ⟨⟨100, some "int", 4, 0, 1, 0⟩, by simp [twoX], rfl, (100, 0), List.mem_cons_self, rfl,
      ⟨100, some "int", 4, 0, 1, 0⟩, by simp [twoX], rfl, rfl⟩
  · rintro w r' depth' ⟨hw, _, hscope⟩ _ hother
      ⟨type, htype, hoffset, row, hrow, rfl, b, hb, hdirect⟩
    obtain rfl : w = ⟨1, some "x", 0, 1, 1⟩ := by
      simp only [twoX, List.mem_cons, List.not_mem_nil, or_false] at hw
      rcases hw with rfl | rfl
      · rfl
      · exact absurd hscope.symm hother
    have hway : ∀ type ∈ (twoX 200 100).types, type.offset = 200 →
        ∀ row ∈ (twoX 200 100).typeRelation 3 0 type.offset,
          ∀ b ∈ (twoX 200 100).types, b.offset = row.1 ∧ b.indirect = 0 → 0 < row.2 := by decide
    exact hway type htype hoffset row hrow b hb hdirect

/-- An `int *` does not hide a global `int`. -/
theorem pointer_hides_nothing :
    ¬ ∀ (S : Symbols) (t : ScopeTree), S.info.scopeAncestors = t.scopeAncestors →
      (S.info.vars.map (·.id)).Nodup → ∀ name scope, S.ResolvesInnermost t name scope := by
  intro h
  have hanswered : (twoX 100 200).Answered ((twoX 100 200).tables noTables) :=
    fun name scope => ⟨_, orderBy_answers _ _, rfl⟩
  obtain ⟨v, a, hv, hresolved⟩ := h (twoX 100 200) oneFunction rfl (by decide) "x" 1
    ((twoX 100 200).tables noTables) hanswered 1 (innermost_twoX 100 200)
  have houter : identifierAction ((twoX 100 200).tables noTables) 1 "x" =
      .ok (.var ⟨100, .signed, 4, 0⟩ "x" 1) := by rfl
  rw [houter] at hresolved
  have hinner : ∀ v ∈ (twoX 100 200).info.vars, v.scopeId = 1 → 1 ≠ v.id := by decide
  injection hresolved with hnode
  injection hnode with _ _ hid
  exact hinner v hv.1 hv.2.2 hid

end FlightRec.Agreement
