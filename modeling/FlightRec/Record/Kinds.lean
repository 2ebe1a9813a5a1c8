/-
# `FlightRec.Record.Kinds` — kinds of qualified types

A qualified type has no kind of its own and gets the flags of the type that it refers to,
when `alter_db` comes to its row.  If that is another qualified type whose row comes
later, there is no kind to be had yet and none is left (`KindFrom`).
-/
import FlightRec.Record.Indirect
import FlightRec.Record.TypeSizes

namespace FlightRec

open Update

/-- The kind of the row of a type is that of this row as it is read in. -/
inductive KindFrom (g : TypeGraph) : Nat → StoredType → Prop
  | own {r : StoredType} : r ∈ g.rows → r.kind ≠ 0 → KindFrom g r.offset r
  | parent {r p b : StoredType} : r ∈ g.rows → r.kind = 0 → typeAt g.rows r.parent = some p →
      p.kind ≠ 0 ∨ Before g.order r.parent r.offset → KindFrom g r.parent b →
      KindFrom g r.offset b

/-- A chain of typedefs and qualified types that ends in a type. -/
inductive NameChain (g : TypeGraph) (t : TypeDie) : Nat → Prop
  | ends : NameChain g t t.offset
  | names {d : TypeDie} {p : Nat} : d ∈ g.dies → d.body.named = some p → NameChain g t p →
      NameChain g t d.offset

/-- What the type at the end of a chain can be, with what its row has from it. -/
inductive EndRow (t : TypeDie) (k : StoredType) : Prop
  | base {size : Nat} {encoding : Encoding} : t.body = .base size encoding →
      k.flags = encoding.flags → EndRow t k
  | pointer {size : Nat} {type : Option Nat} : t.body = .custom .pointer size type →
      k.flags = tkindPointer → k.parent = type.getD 0 → EndRow t k
  | subroutine {size : Nat} {type : Option Nat} : t.body = .custom .subroutine size type →
      k.flags = tkindFunc → EndRow t k
  | array {elem : Nat} {bounds : List (Option Nat)} : t.body = .array elem bounds →
      k.flags = tkindArray → k.parent = elem → EndRow t k
  | aggr {tag : AggrTag} {size : Nat} {members : List DieMember} :
      t.body = .aggr tag size members → k.flags = tag.flags → EndRow t k

/-- The row that is found when typedefs are followed. -/
inductive Typedefs (g : TypeGraph) : Nat → StoredType → Prop
  | ends {r : StoredType} : r ∈ g.rows → r.flags ≠ tkindAlias → Typedefs g r.offset r
  | typedef {r q : StoredType} : r ∈ g.rows → r.flags = tkindAlias → Typedefs g r.parent q →
      Typedefs g r.offset q

theorem CustomTag.qualifies_of_kind {tag : CustomTag} (h : tag.flags % 0x10000 = 0) :
    tag.qualifies := by
  cases tag <;> revert h <;> decide

theorem CustomTag.alias_lt_flags {tag : CustomTag} (h : tag.qualifies) :
    tkindAlias < tag.flags := by
  cases tag <;> revert h <;> decide

/-- The type has a size in the end: it comes with one, inherits one, or is an array that
finds the size of its items. -/
inductive Sized (g : TypeGraph) : Nat → Prop
  | own {r : StoredType} {n : Nat} : r ∈ g.rows → r.size = some n → n ≠ 0 → Sized g r.offset
  | inherited {o : Nat} : Reached g o → Sized g o
  | items {d : TypeDie} {elem : Nat} {bounds : List (Option Nat)} : d ∈ g.dies →
      d.body = .array elem bounds → itemCount bounds.head?.join ≠ 0 →
      Before g.order elem d.offset → Sized g elem → Sized g d.offset
  | late {d : TypeDie} {elem : Nat} {bounds : List (Option Nat)} : d ∈ g.dies →
      d.body = .array elem bounds → itemCount bounds.head?.join ≠ 0 → Reached g elem →
      Sized g d.offset

namespace TypeGraph

variable {g : TypeGraph} {kinds : List StoredType} {r b b' k : StoredType} {o : Nat}

theorem kindFrom_row (h : KindFrom g o b) : b ∈ g.rows ∧ b.kind ≠ 0 := by
  induction h with
  | own hr hkind => exact ⟨hr, hkind⟩
  | parent _ _ _ _ _ ih => exact ih

/-! ## The statement -/

theorem or_kind {a f : Nat} (ha : a % 0x10000 = 0) : (a ||| f) % 0x10000 = f % 0x10000 := by
  have hmod : (a ||| f) % 2 ^ 16 = a % 2 ^ 16 ||| f % 2 ^ 16 := Nat.or_mod_two_pow
  have ha' : a % 2 ^ 16 = 0 := ha
  rw [ha', Nat.zero_or] at hmod
  exact hmod

theorem kinds_typeAt (hkinds : propagateFlags (setDerived (setPointers g.rows)) = some kinds)
    (hr : typeAt g.rows o = some r) :
    ∃ k, typeAt kinds o = some k ∧ k.offset = r.offset ∧ k.parent = r.parent ∧
      (r.kind ≠ 0 → k.flags = r.flags) ∧
      (r.kind = 0 → ∃ f, k.flags = r.flags ||| f ∧
        (Before g.order r.parent r.offset → (typeAt kinds r.parent).map (·.flags) = some f) ∧
        (¬ Before g.order r.parent r.offset →
          (typeAt g.rows r.parent).map (·.flags) = some f)) := by
  obtain ⟨indirect, hderived⟩ := derived_row hr
  have hnodup : ((setDerived (setPointers g.rows)).map (·.offset)).Nodup :=
    derived_offsets.symm ▸ rows_nodup
  obtain ⟨flags, hflags, hkind⟩ := propagateFlags_row hnodup hkinds hderived
  refine ⟨_, hflags, rfl, rfl, fun hne => ?_, fun hzero => ?_⟩
  · have hne' : ({ r with indirect } : StoredType).kind ≠ 0 := hne
    rwa [if_neg hne'] at hkind
  · have hzero' : ({ r with indirect } : StoredType).kind = 0 := hzero
    rw [if_pos hzero'] at hkind
    obtain ⟨p, hp, rfl⟩ := hkind
    have hp' : (if Before g.order r.parent r.offset then typeAt kinds r.parent
        else typeAt (setDerived (setPointers g.rows)) r.parent) = some p := by
      rw [parentRow, derived_offsets] at hp
      exact hp
    refine ⟨p.flags, rfl, fun hbefore => ?_, fun hbefore => ?_⟩
    · rw [if_pos hbefore] at hp'
      rw [hp']
      rfl
    · rw [if_neg hbefore, setDerived_typeAt, setPointers_typeAt, Option.map_map] at hp'
      obtain ⟨q, hq, rfl⟩ := Option.map_eq_some_iff.mp hp'
      rw [hq]
      rfl

theorem not_before_zero : ¬ Before g.order 0 o := by
  intro hbefore
  obtain ⟨q, hq, hzero⟩ := before_mem hbefore
  have hat : typeAt g.rows q.offset = some q := lookup_of_mem rows_nodup hq
  rw [hzero, typeAt_zero] at hat
  cases hat

theorem qualified_die (hkinds : propagateFlags (setDerived (setPointers g.rows)) = some kinds)
    (hr : r ∈ g.rows) (hkind : r.kind = 0) : ∃ d ∈ g.dies, d.row = some r ∧ ∃ tag size,
      d.body = .custom tag size (some r.parent) ∧ tag.qualifies ∧ r.flags = tag.flags := by
  obtain ⟨k, _, _, _, _, hzero⟩ := kinds_typeAt hkinds (lookup_of_mem rows_nodup hr)
  obtain ⟨f, _, _, hlater⟩ := hzero hkind
  have hparent : r.parent ≠ 0 := by
    intro hzero
    rw [hzero, typeAt_zero] at hlater
    cases hlater not_before_zero
  obtain ⟨d, hd, hrow⟩ := mem_rows.mp hr
  refine ⟨d, hd, hrow, ?_⟩
  cases row_cases hrow with
  | base | aggr => exact absurd rfl hparent
  | @custom tag size type _ hbody hcustom =>
      cases type with
      | none => exact absurd (custom_columns hcustom).2.2.2.1 hparent
      | some p =>
          cases hcustom
          exact ⟨tag, size, hbody, CustomTag.qualifies_of_kind hkind, rfl⟩
  | array => cases hkind

theorem kind_of_from (hkinds : propagateFlags (setDerived (setPointers g.rows)) = some kinds)
    (h : KindFrom g o b) : ∃ k, typeAt kinds o = some k ∧ k.kind = b.kind := by
  induction h with
  | @own r hr hkind =>
      obtain ⟨k, hk, _, _, hflags, _⟩ := kinds_typeAt hkinds (lookup_of_mem rows_nodup hr)
      exact ⟨k, hk, congrArg (· % 0x10000) (hflags hkind)⟩
  | @parent r p b hr hkind hp hknown _ ih =>
      obtain ⟨k, hk, _, _, _, hzero⟩ := kinds_typeAt hkinds (lookup_of_mem rows_nodup hr)
      obtain ⟨f, hflags, hbefore, hafter⟩ := hzero hkind
      obtain ⟨q, hq, hqkind⟩ := ih
      have hor : k.kind = f % 0x10000 := by
        rw [StoredType.kind, hflags]
        exact or_kind hkind
      refine ⟨k, hk, hor.trans (Eq.trans ?_ hqkind)⟩
      by_cases hplace : Before g.order r.parent r.offset
      · rw [hq] at hbefore
        obtain rfl : q.flags = f := Option.some.inj (hbefore hplace)
        rfl
      · rw [hp] at hafter
        obtain ⟨k', hk', _, _, hplain, _⟩ := kinds_typeAt hkinds hp
        cases hq.symm.trans hk'
        obtain rfl : p.flags = f := Option.some.inj (hafter hplace)
        rw [StoredType.kind, hplain (hknown.resolve_right hplace)]

/-- And there is no other way to a kind; induction on the place of the row. -/
theorem from_of_kind (hkinds : propagateFlags (setDerived (setPointers g.rows)) = some kinds)
    (hr : r ∈ g.rows) (hk : typeAt kinds r.offset = some k) (hne : k.kind ≠ 0) :
    ∃ b, KindFrom g r.offset b := by
  induction hplace : g.order.idxOf r.offset using Nat.strongRecOn generalizing r k with
  | ind place ih =>
      by_cases hkind : r.kind = 0
      · obtain ⟨k', hk', _, _, _, hzero⟩ := kinds_typeAt hkinds (lookup_of_mem rows_nodup hr)
        cases hk.symm.trans hk'
        obtain ⟨f, hflags, hbefore, hafter⟩ := hzero hkind
        have hor : f % 0x10000 ≠ 0 := by
          rw [StoredType.kind, hflags, or_kind hkind] at hne
          exact hne
        by_cases hearlier : Before g.order r.parent r.offset
        · obtain ⟨q, hq, hqflags⟩ := Option.map_eq_some_iff.mp (hbefore hearlier)
          obtain ⟨p, hp, hoffset⟩ := before_mem hearlier
          have hp' : typeAt g.rows r.parent = some p := hoffset ▸ lookup_of_mem rows_nodup hp
          have hqkind : q.kind ≠ 0 := by
            rw [StoredType.kind, hqflags]
            exact hor
          have hless : g.order.idxOf p.offset < place := by
            rw [hoffset, ← hplace]
            exact hearlier
          obtain ⟨b, hb⟩ := ih _ hless hp (hoffset ▸ hq) hqkind rfl
          exact ⟨b, .parent hr hkind hp' (.inr hearlier) (hoffset ▸ hb)⟩
        · obtain ⟨p, hp, hpflags⟩ := Option.map_eq_some_iff.mp (hafter hearlier)
          obtain ⟨hmem, hoffset⟩ := mem_of_lookup hp
          have hpkind : p.kind ≠ 0 := by
            rw [StoredType.kind, hpflags]
            exact hor
          exact ⟨p, .parent hr hkind hp (.inl hpkind) (hoffset ▸ .own hmem hpkind)⟩
      · exact ⟨r, .own hr hkind⟩

theorem alias_iff (hkinds : propagateFlags (setDerived (setPointers g.rows)) = some kinds)
    (hr : r ∈ g.rows) (hk : typeAt kinds r.offset = some k) :
    k.flags = tkindAlias ↔ r.flags = tkindAlias := by
  obtain ⟨k', hk', _, _, hplain, hzero⟩ := kinds_typeAt hkinds (lookup_of_mem rows_nodup hr)
  cases hk.symm.trans hk'
  by_cases hkind : r.kind = 0
  · obtain ⟨f, hflags, _⟩ := hzero hkind
    obtain ⟨_, _, _, tag, _, _, htag, hflags'⟩ := qualified_die hkinds hr hkind
    have hlt : tkindAlias < r.flags := hflags' ▸ CustomTag.alias_lt_flags htag
    have hle : r.flags ≤ k.flags := hflags ▸ Nat.left_le_or
    exact iff_of_false (Nat.ne_of_gt (Nat.lt_of_lt_of_le hlt hle)) (Nat.ne_of_gt hlt)
  · rw [hplain hkind]

/-! ## Rows in the end -/

section
variable {rows' : List StoredType}

/-- **Kinds**: a row has the kind of the one that it comes from, and none if it comes
from none; typedefs stay what they are. -/
theorem final_row (h : alterTypes g.members g.rows = some rows') (hr : r ∈ g.rows) :
    ∃ r', typeAt rows' r.offset = some r' ∧ r'.offset = r.offset ∧ r'.parent = r.parent ∧
      (r'.flags = tkindAlias ↔ r.flags = tkindAlias) ∧
      (∀ b, KindFrom g r.offset b → r'.kind = b.kind) ∧
      ((∀ b, ¬ KindFrom g r.offset b) → r'.kind = 0) := by
  obtain ⟨kinds, sizes, arrays, hkinds, hsizes, harrays, rfl⟩ := alterTypes_stages h
  obtain ⟨k, hk, hoffset, hparent, _⟩ := kinds_typeAt hkinds (lookup_of_mem rows_nodup hr)
  have hnodup : (kinds.map (·.offset)).Nodup := by
    rw [propagateFlags_offsets hkinds, derived_offsets]
    exact rows_nodup
  obtain ⟨size, dim, hrow⟩ : ∃ size dim,
      typeAt (countMembers g.members arrays) r.offset = some { k with size, dim } :=
    later_row hnodup hsizes harrays hk
  have halias := alias_iff hkinds hr hk
  refine ⟨_, hrow, hoffset, hparent, halias, fun b hb => ?_, fun hnone => ?_⟩
  · obtain ⟨k', hk', hkind⟩ := kind_of_from hkinds hb
    cases hk.symm.trans hk'
    exact hkind
  · by_contra hne
    obtain ⟨b, hb⟩ := from_of_kind hkinds hr hk hne
    exact hnone b hb

end

/-! ## Sizes of qualified types -/

section
variable {rows' : List StoredType} {s s' : Nat → Option Nat} {p : StoredType} {d : TypeDie}
  {n : Nat}

theorem kindFrom_own (h : KindFrom g o b) (hp : typeAt g.rows o = some p) (hkind : p.kind ≠ 0) :
    b = p := by
  cases h with
  | own hr _ => exact Option.some.inj ((lookup_of_mem rows_nodup hr).symm.trans hp)
  | parent hr hzero _ _ _ =>
      cases (lookup_of_mem rows_nodup hr).symm.trans hp
      exact absurd hzero hkind

theorem qualified_named (h : alterTypes g.members g.rows = some rows') (hr : r ∈ g.rows)
    (hkind : r.kind = 0) : ∃ d ∈ g.dies, d.offset = r.offset ∧ d.body.named = some r.parent ∧
      r.size = some 0 := by
  obtain ⟨kinds, _, _, hkinds, _⟩ := alterTypes_stages h
  obtain ⟨d, hd, hrow, tag, size, hbody, htag, _⟩ := qualified_die hkinds hr hkind
  have hnames : tag.names := by
    cases tag <;> first | rfl | cases htag
  have hnamed : d.body.named = some r.parent := by
    rw [hbody, DieBody.named, if_pos hnames]
  obtain ⟨r', hrow', hsize, _⟩ := named_row hd hnamed
  cases hrow.symm.trans hrow'
  exact ⟨d, hd, (row_offset hrow).symm, hnamed, hsize⟩

theorem inherits_unsized (h : Inherits g o n) (hp : typeAt g.rows o = some p) :
    p.size = some 0 := by
  cases h with
  | direct hr hsize _ _ =>
      cases (lookup_of_mem rows_nodup hr).symm.trans hp
      exact hsize
  | through hr hsize _ _ _ =>
      cases (lookup_of_mem rows_nodup hr).symm.trans hp
      exact hsize

/-- The size comes the way of the kind. -/
theorem inherits_from (h : alterTypes g.members g.rows = some rows') (hfrom : KindFrom g o b)
    (hsize : b.size = some n) (hn : n ≠ 0) : o = b.offset ∨ Inherits g o n := by
  induction hfrom with
  | own => exact .inl rfl
  | @parent r p b hr hkind hp hknown hfrom ih =>
      obtain ⟨_, _, _, _, hunsized⟩ := qualified_named h hr hkind
      have hat : sizeAt g.rows r.parent = p.size := by
        rw [sizeAt, hp]
        rfl
      by_cases hpkind : p.kind = 0
      · have hbefore := hknown.resolve_left (not_not.mpr hpkind)
        rcases ih hsize with heq | hinherits
        · obtain ⟨hb, hbkind⟩ := kindFrom_row hfrom
          have hbat : typeAt g.rows b.offset = some b := lookup_of_mem rows_nodup hb
          rw [← heq, hp] at hbat
          cases hbat
          exact absurd hpkind hbkind
        · have hzero : sizeAt g.rows r.parent = some 0 := hat.trans (inherits_unsized hinherits hp)
          exact .inr (.through hr hunsized hzero hbefore hinherits)
      · cases kindFrom_own hfrom hp hpkind
        exact .inr (.direct hr hunsized (hat.trans hsize) hn)

theorem size_from_own (h : alterTypes g.members g.rows = some rows') (c : SizeColumns g s s')
    (hd : d ∈ g.dies) (hrow : d.row = some b) (hown : d.body.ownSize = some n)
    (hfrom : KindFrom g o b) : (s' o).getD 0 = n := by
  induction hfrom with
  | own =>
      rw [row_offset hrow]
      exact c.final_own hd hown
  | @parent r p b hr hkind hp hknown hfrom ih =>
      obtain ⟨d', hd', hoffset, hnamed, _⟩ := qualified_named h hr hkind
      obtain ⟨hreached, hunreached⟩ := c.final_named hd' hnamed
      rw [← hoffset]
      by_cases hreach : Reached g d'.offset
      · rw [hreached hreach]
        exact ih hrow
      · rw [hunreached hreach]
        by_contra hn
        obtain ⟨b', hrow', hsize, _⟩ := own_row hown
        cases hrow.symm.trans hrow'
        rcases inherits_from h (.parent hr hkind hp hknown hfrom) hsize (Ne.symm hn) with heq | hi
        · obtain ⟨hb, hbkind⟩ := kindFrom_row hfrom
          have hbat : typeAt g.rows b.offset = some b := lookup_of_mem rows_nodup hb
          have hrat : typeAt g.rows r.offset = some r := lookup_of_mem rows_nodup hr
          rw [heq, hbat] at hrat
          cases hrat
          exact hbkind hkind
        · exact hreach ⟨n, hoffset ▸ hi⟩

/-! ### Which types have a size -/

theorem reached_row (h : Reached g o) : ∃ r ∈ g.rows, r.offset = o := by
  obtain ⟨_, h⟩ := h
  cases h with
  | direct hr => exact ⟨_, hr, rfl⟩
  | through hr => exact ⟨_, hr, rfl⟩

theorem final_reached (c : SizeColumns g s s') (h : Reached g o) : (s' o).getD 0 ≠ 0 := by
  obtain ⟨r, hr, rfl⟩ := reached_row h
  obtain ⟨n, hinherits⟩ := h
  obtain ⟨hs, hn⟩ := c.of_inherits hinherits
  rw [c.kept hr fun h => hn (Option.some.inj (hs.symm.trans h)), hs]
  exact hn

theorem final_of_sized (c : SizeColumns g s s') (h : Sized g o) : (s' o).getD 0 ≠ 0 := by
  induction h with
  | own hr hsize hn =>
      have hs := c.of_raw ((sizeAt_row hr).trans hsize) hn
      rw [c.kept hr fun h => hn (Option.some.inj (hs.symm.trans h)), hs]
      exact hn
  | inherited hreached => exact final_reached c hreached
  | @items d elem bounds hd hbody hdim hbefore _ ih =>
      by_cases hreached : Reached g d.offset
      · exact final_reached c hreached
      · rw [c.final_array hd hbody (before_mem hbefore) (.dimension hreached (.inl hbefore))]
        exact Nat.mul_ne_zero hdim ih
  | @late d elem bounds hd hbody hdim helem =>
      by_cases hreached : Reached g d.offset
      · exact final_reached c hreached
      · rw [c.final_array hd hbody (reached_row helem) (.dimension hreached (.inr helem))]
        exact Nat.mul_ne_zero hdim (final_reached c helem)

theorem array_die {d : TypeDie} (hrow : d.row = some r) (harray : r.flags = tkindArray) :
    ∃ elem bounds, d.body = .array elem bounds := by
  cases row_cases hrow with
  | @base _ encoding => cases encoding <;> cases harray
  | @custom tag _ _ _ _ hcustom =>
      obtain ⟨_, _, _, _, hflags, _⟩ := custom_columns hcustom
      cases tag <;> cases hflags.symm.trans harray
  | array hbody => exact ⟨_, _, hbody⟩
  | @aggr tag => cases tag <;> cases harray

theorem final_array_elem {elem : Nat} {bounds : List (Option Nat)} (c : SizeColumns g s s')
    (hd : d ∈ g.dies) (hbody : d.body = .array elem bounds) (hfinal : (s' d.offset).getD 0 ≠ 0) :
    ∃ q ∈ g.rows, q.offset = elem := by
  by_contra hnone
  have hmem := mem_of_row hd (array_row hbody)
  have hat : sizeAt g.rows elem = none := by
    cases hat : typeAt g.rows elem with
    | none => rw [sizeAt, hat]; rfl
    | some q =>
        obtain ⟨hq, hoffset⟩ := mem_of_lookup hat
        exact absurd ⟨q, hq, hoffset⟩ hnone
  have hs : s d.offset = if Before g.order elem d.offset then s elem else sizeAt g.rows elem :=
    (c.inherited _ hmem).trans (if_pos rfl)
  rw [if_neg (hnone ∘ before_mem), hat] at hs
  have hne : s d.offset ≠ some 0 := by
    rw [hs]
    exact (Option.some_ne_none 0).symm
  have hs' : s' d.offset = s d.offset := (c.items _ hmem rfl).trans (if_neg hne)
  rw [hs', hs] at hfinal
  exact hfinal rfl

theorem sized_of_final (c : SizeColumns g s s') (hr : r ∈ g.rows)
    (hfinal : (s' r.offset).getD 0 ≠ 0) : Sized g r.offset := by
  induction hplace : g.order.idxOf r.offset using Nat.strongRecOn generalizing r with
  | ind place ih =>
      obtain ⟨d, hd, hrow⟩ := mem_rows.mp hr
      obtain ⟨n, hn⟩ := row_size hrow
      by_cases hsize : n = 0
      · rw [hsize] at hn
        by_cases hreached : Reached g r.offset
        · exact .inherited hreached
        · have harray : r.flags = tkindArray := by
            refine (dim_or_array hr).resolve_left fun hdim => hfinal ?_
            rw [c.others r hr hdim, c.unreached hr hn hreached]
          obtain ⟨elem, bounds, hbody⟩ := array_die hrow harray
          rw [row_offset hrow] at hfinal hreached hplace ⊢
          obtain ⟨q, hq, rfl⟩ := final_array_elem c hd hbody hfinal
          obtain ⟨factor, hfactor⟩ := itemFactor_exists g d.offset q.offset bounds
          rw [c.final_array hd hbody ⟨q, hq, rfl⟩ hfactor] at hfinal
          obtain ⟨hfactor0, helem0⟩ := Nat.mul_ne_zero_iff.mp hfinal
          cases hfactor with
          | inherited h => exact absurd h hreached
          | dimension _ hknown =>
              rcases hknown with hbefore | helem
              · exact .items hd hbody hfactor0 hbefore
                  (ih _ (hplace ▸ hbefore) hq helem0 rfl)
              · exact .late hd hbody hfactor0 helem
          | unknown => exact absurd rfl hfactor0
      · exact .own hr hn hsize

end

/-! ## Chains of names -/

section
variable {rows' : List StoredType} {t d : TypeDie} {q : StoredType} {n : Nat}

theorem names_row (hnamed : d.body.named = some n) :
    ∃ r, d.row = some r ∧ r.parent = n ∧ (r.flags = tkindAlias ∨ r.kind = 0) := by
  obtain ⟨tag, size, hbody, hnames⟩ := named_body hnamed
  have htag : tag.flags = tkindAlias ∨ tag.flags % 0x10000 = 0 := by
    cases tag <;> revert hnames <;> decide
  exact ⟨_, by rw [TypeDie.row, hbody]; rfl, rfl, htag⟩

theorem nameChain_row (hchain : NameChain g t r.offset) (hr : r ∈ g.rows) :
    r.offset = t.offset ∨ (NameChain g t r.parent ∧ (r.flags = tkindAlias ∨ r.kind = 0)) := by
  generalize ho : r.offset = o at hchain
  cases hchain with
  | ends => exact .inl rfl
  | names hd hnamed hp =>
      obtain ⟨r', hrow, hparent, hflags⟩ := names_row hnamed
      have hr' := mem_of_row hd hrow
      have hoffset : r.offset = r'.offset := ho.trans (row_offset hrow).symm
      obtain rfl : r = r' := List.inj_on_of_nodup_map rows_nodup hr hr' hoffset
      exact .inr ⟨hparent ▸ hp, hflags⟩

theorem end_cases (hrow : t.row = some k) (hend : t.body.named = none) : EndRow t k := by
  cases row_cases hrow with
  | base hbody => exact .base hbody rfl
  | @custom tag _ type _ hbody hcustom =>
      obtain ⟨_, _, _, hparent, hflags, _⟩ := custom_columns hcustom
      cases tag with
      | pointer => exact .pointer hbody hflags hparent
      | subroutine => exact .subroutine hbody hflags
      | typedef | const | restrict | volatile =>
          rw [hbody] at hend
          cases type with
          | none => cases hcustom
          | some p => cases hend
  | array hbody => exact .array hbody rfl rfl
  | aggr hbody => exact .aggr hbody rfl

/-- It has come with a kind, if the statement succeeds, and is no typedef. -/
theorem end_row (h : alterTypes g.members g.rows = some rows') (ht : t ∈ g.dies)
    (hrow : t.row = some k) (hend : t.body.named = none) : k.kind ≠ 0 ∧ k.flags ≠ tkindAlias := by
  constructor
  · intro hzero
    obtain ⟨d, hd, hoffset, hnamed, _⟩ := qualified_named h (mem_of_row ht hrow) hzero
    obtain rfl : d = t :=
      List.inj_on_of_nodup_map g.offsets hd ht (hoffset.trans (row_offset hrow))
    cases hnamed.symm.trans hend
  · intro halias
    cases end_cases hrow hend with
    | @base _ encoding _ hflags => cases encoding <;> cases hflags.symm.trans halias
    | pointer _ hflags _ => cases hflags.symm.trans halias
    | subroutine _ hflags => cases hflags.symm.trans halias
    | array _ hflags _ => cases hflags.symm.trans halias
    | @aggr tag _ _ _ hflags => cases tag <;> cases hflags.symm.trans halias

theorem typedefs_exists (ht : t ∈ g.dies) (hrow : t.row = some k) (hplain : k.flags ≠ tkindAlias)
    (hchain : NameChain g t o) : ∃ q, Typedefs g o q := by
  induction hchain with
  | ends => exact ⟨k, row_offset hrow ▸ .ends (mem_of_row ht hrow) hplain⟩
  | @names d p hd hnamed hp ih =>
      obtain ⟨r, hr, hparent, _⟩ := names_row hnamed
      have hmem := mem_of_row hd hr
      rw [← row_offset hr]
      by_cases halias : r.flags = tkindAlias
      · obtain ⟨q, hq⟩ := ih
        exact ⟨q, .typedef hmem halias (hparent ▸ hq)⟩
      · exact ⟨r, .ends hmem halias⟩

theorem nameChain_typedefs (ht : t ∈ g.dies) (hrow : t.row = some k)
    (hplain : k.flags ≠ tkindAlias) (htypedefs : Typedefs g o q) (hchain : NameChain g t o) :
    q ∈ g.rows ∧ NameChain g t q.offset ∧ q.flags ≠ tkindAlias := by
  induction htypedefs with
  | ends hr hflags => exact ⟨hr, hchain, hflags⟩
  | @typedef r q hr halias _ ih =>
      refine ih ((nameChain_row hchain hr).resolve_left fun hoffset => ?_).1
      have hk := mem_of_row ht hrow
      obtain rfl : r = k :=
        List.inj_on_of_nodup_map rows_nodup hr hk (hoffset.trans (row_offset hrow).symm)
      exact hplain halias

/-- On a chain a kind comes from the type at the end, or is that of a typedef. -/
theorem kindFrom_chain (hfrom : KindFrom g o b) (ht : t ∈ g.dies) (hrow : t.row = some k)
    (hkind : k.kind ≠ 0) (hchain : NameChain g t o) : b = k ∨ b.flags = tkindAlias := by
  have hk := mem_of_row ht hrow
  have hoffset := row_offset hrow
  induction hfrom with
  | @own r hr hne =>
      rcases nameChain_row hchain hr with heq | ⟨_, halias | hzero⟩
      · exact .inl (List.inj_on_of_nodup_map rows_nodup hr hk (heq.trans hoffset.symm))
      · exact .inr halias
      · exact absurd hzero hne
  | @parent r p b hr hzero _ _ _ ih =>
      refine ih ((nameChain_row hchain hr).resolve_left fun heq => ?_).1
      obtain rfl : r = k := List.inj_on_of_nodup_map rows_nodup hr hk (heq.trans hoffset.symm)
      exact hkind hzero

end

end TypeGraph

end FlightRec
