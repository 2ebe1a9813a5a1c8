/-
# `FlightRec.Record.Indirect` — levels of indirection

Column `indirect` of a type is to say how often a value of it can be dereferenced.
`alter_db` does not count: a pointer gets 1, and what is not a typedef and has a pointer
anywhere behind it gets one more.  That is the number of pointers for chains that have
no more than two (`indirect_iff`).
-/
import FlightRec.Record.Types

namespace FlightRec

open Chain Update Relation

/-! ## Pointers -/

/-- A qualified type. -/
def CustomTag.qualifies : CustomTag → Bool
  | .const | .restrict | .volatile => true
  | .typedef | .pointer | .subroutine => false

/-- The type is no pointer, no qualified type and no typedef; a qualified `void` is an
end too, though it has no row. -/
def DieBody.ends : DieBody → Bool
  | .base .. | .array .. | .aggr .. => true
  | .custom .subroutine _ _ => true
  | .custom tag _ none => tag.qualifies
  | _ => false

/-- A chain of pointers and qualified types has so many pointers and this end; the end
of `void *` is 0, where no type is. -/
inductive PointerCount (g : TypeGraph) : Nat → Nat → Nat → Prop
  | ends {d : TypeDie} : d ∈ g.dies → d.body.ends → PointerCount g d.offset 0 d.offset
  | void {d : TypeDie} {size : Nat} : d ∈ g.dies → d.body = .custom .pointer size none →
      PointerCount g d.offset 1 0
  | pointer {d : TypeDie} {size p k e : Nat} : d ∈ g.dies →
      d.body = .custom .pointer size (some p) → PointerCount g p k e →
      PointerCount g d.offset (k + 1) e
  | qualified {d : TypeDie} {tag : CustomTag} {size p k e : Nat} : d ∈ g.dies →
      d.body = .custom tag size (some p) → tag.qualifies → PointerCount g p k e →
      PointerCount g d.offset k e

/-- The type is a pointer itself. -/
def StoredType.pointers (r : StoredType) : Nat := if r.kind = tkindPointer then 1 else 0

/-- One type is behind the other. -/
def Behind (g : TypeGraph) : Nat → Nat → Prop := TransGen (Next (parentAt g.rows))

/-- Some pointer is behind the type. -/
def PointerBehind (g : TypeGraph) (offset : Nat) : Prop :=
  ∃ a ∈ g.rows, a.kind = tkindPointer ∧ Behind g offset a.offset

/-- There is one pointer at most behind the type, and one if the end of the chain has
pointers behind it, as an array of pointers. -/
def Counted (g : TypeGraph) (r : StoredType) (k e : Nat) : Prop :=
  k ≤ r.pointers + 1 ∧ (k = r.pointers → ¬ PointerBehind g e)

/-- The chain of the type comes to a typedef, or to a type that is no pointer and has
none behind it; `void *` does not. -/
def Based (g : TypeGraph) (offset : Nat) : Prop :=
  ∃ a ∈ g.rows, ReflTransGen (Next (parentAt g.rows)) offset a.offset ∧
    (a.flags = tkindAlias ∨ (a.kind ≠ tkindPointer ∧ ¬ PointerBehind g a.offset))

/-! ## The column -/

namespace TypeGraph

variable {g : TypeGraph} {r : StoredType} {o p k e : Nat}

theorem mem_chain_parentAt (hacyclic : Acyclic (parentAt g.rows)) {fuel : Nat}
    (hfuel : g.rows.length < fuel) :
    p ∈ chain (parentAt g.rows) fuel o ↔ ReflTransGen (Next (parentAt g.rows)) o p := by
  have hrows (y z : Nat) (h : parentAt g.rows y = some z) : y ∈ g.order := by
    obtain ⟨r, hr, _⟩ := Option.map_eq_some_iff.mp h
    exact lookup_isSome.mp (Option.isSome_iff_exists.mpr ⟨r, hr⟩)
  have hlength : g.order.length = g.rows.length := List.length_map _
  exact mem_chain_iff hacyclic hrows (hlength ▸ hfuel)

theorem setPointers_parents (rows : List StoredType) :
    parentAt (setPointers rows) = parentAt rows := by
  funext o
  rw [parentAt, parentAt, setPointers_typeAt, Option.map_map]
  rfl

theorem mem_setPointers {rows : List StoredType} {b : StoredType} : b ∈ setPointers rows ↔
    ∃ a ∈ rows, { a with indirect := if a.kind = tkindPointer then 1 else a.indirect } = b := by
  rw [setPointers, List.mem_map]
  refine exists_congr fun a => and_congr_right fun _ => ?_
  split <;> rfl

theorem behindPointer_iff (hacyclic : Acyclic (parentAt g.rows)) :
    behindPointer (setPointers g.rows) r = true ↔ PointerBehind g r.offset := by
  have hmem (p : Nat) : p ∈ typeAncestors (setPointers g.rows) r.offset ↔
      ReflTransGen (Next (parentAt g.rows)) r.offset p := by
    rw [typeAncestors, setPointers_parents, setPointers, List.length_map]
    exact mem_chain_parentAt hacyclic (Nat.lt_succ_self _)
  have hbehind (a : StoredType) : ((a.kind = tkindPointer && a.offset ≠ r.offset &&
      (typeAncestors (setPointers g.rows) r.offset).contains a.offset) = true) ↔
        a.kind = tkindPointer ∧ Behind g r.offset a.offset := by
    rw [Bool.and_eq_true, Bool.and_eq_true, decide_eq_true_eq, decide_eq_true_eq,
      List.contains_iff_mem, hmem, and_assoc]
    refine and_congr_right fun _ => ⟨fun h => ?_, fun h => ⟨?_, h.to_reflTransGen⟩⟩
    · exact (reflTransGen_iff_eq_or_transGen.mp h.2).resolve_left h.1
    · intro heq
      rw [heq] at h
      exact hacyclic r.offset h
  unfold behindPointer
  rw [List.any_eq_true]
  constructor
  · rintro ⟨b, hb, h⟩
    obtain ⟨a, ha, rfl⟩ := mem_setPointers.mp hb
    exact ⟨a, ha, (hbehind _).mp h⟩
  · rintro ⟨a, ha, h⟩
    exact ⟨_, mem_setPointers.mpr ⟨a, ha, rfl⟩, (hbehind _).mpr h⟩

theorem row_indirect (hr : r ∈ g.rows) : r.indirect = 0 := by
  obtain ⟨d, _, hrow⟩ := mem_rows.mp hr
  cases row_cases hrow with
  | custom _ hcustom => exact (custom_columns hcustom).2.2.2.2.2
  | base | array | aggr => rfl

/-- **The column**: one for a pointer, and one if there is a pointer behind what is not a
typedef. -/
theorem indirect_row {rows' : List StoredType} (hacyclic : Acyclic (parentAt g.rows))
    (h : alterTypes g.members g.rows = some rows') (hr : typeAt g.rows o = some r) :
    ∃ r', typeAt rows' o = some r' ∧ r'.offset = r.offset ∧ r'.name = r.name ∧
      r'.parent = r.parent ∧
      (r.flags ≠ tkindAlias ∧ PointerBehind g o → r'.indirect = r.pointers + 1) ∧
      (¬ (r.flags ≠ tkindAlias ∧ PointerBehind g o) → r'.indirect = r.pointers) := by
  have hzero : r.indirect = 0 := row_indirect (mem_of_lookup hr).1
  have hoffset : r.offset = o := (mem_of_lookup hr).2
  have hderived : typeAt (setDerived (setPointers g.rows)) o = some { r with
      indirect := r.pointers +
        if behindPointer (setPointers g.rows) r ∧ r.flags ≠ tkindAlias then 1 else 0 } := by
    rw [setDerived_typeAt, setPointers_typeAt, hr, StoredType.pointers, ← hzero]
    rfl
  obtain ⟨r', hr', hoffset', hname, hparent, hindirect⟩ := alterTypes_row rows_nodup h hderived
  refine ⟨r', hr', hoffset', hname, hparent, fun hbehind => ?_, fun hbehind => ?_⟩
  · rw [hindirect, if_pos ⟨(behindPointer_iff hacyclic).mpr (hoffset ▸ hbehind.2), hbehind.1⟩]
  · rw [hindirect, if_neg, Nat.add_zero]
    exact fun h => hbehind ⟨h.2, hoffset ▸ (behindPointer_iff hacyclic).mp h.1⟩

theorem alterTypes_parents {rows' : List StoredType} (hacyclic : Acyclic (parentAt g.rows))
    (h : alterTypes g.members g.rows = some rows') : parentAt rows' = parentAt g.rows := by
  funext o
  cases hat : typeAt g.rows o with
  | none => rw [parentAt, parentAt, typeAt_none (alterTypes_offsets h) hat, hat]
  | some r =>
      obtain ⟨r', hr', _, _, hparent, _⟩ := indirect_row hacyclic h hat
      rw [parentAt, parentAt, hr', hat]
      exact congrArg some hparent

/-! ## The count -/

theorem not_behind_of_none (hnone : typeAt g.rows o = none) : ¬ PointerBehind g o := by
  rintro ⟨a, _, _, hbehind⟩
  obtain ⟨p, hnext, _⟩ := TransGen.head'_iff.mp hbehind
  obtain ⟨r, hr, _⟩ := Option.map_eq_some_iff.mp hnext
  cases hnone.symm.trans hr

theorem pointerBehind_iff (hr : typeAt g.rows o = some r) : PointerBehind g o ↔
    ∃ q, typeAt g.rows r.parent = some q ∧ (q.kind = tkindPointer ∨ PointerBehind g r.parent) := by
  have hnext : Next (parentAt g.rows) o r.parent := by
    rw [Next, parentAt, hr]
    rfl
  constructor
  · rintro ⟨a, ha, hkind, hbehind⟩
    obtain ⟨p, hp, hreaches⟩ := TransGen.head'_iff.mp hbehind
    cases hnext.symm.trans hp
    have hat : typeAt g.rows a.offset = some a := lookup_of_mem rows_nodup ha
    rcases ReflTransGen.cases_head hreaches with heq | ⟨c, hc, hca⟩
    · exact ⟨a, heq ▸ hat, .inl hkind⟩
    · obtain ⟨q, hq, _⟩ := Option.map_eq_some_iff.mp hc
      exact ⟨q, hq, .inr ⟨a, ha, hkind, TransGen.head' hc hca⟩⟩
  · rintro ⟨q, hq, hkind | ⟨a, ha, hkind, hbehind⟩⟩
    · obtain ⟨hmem, hoffset⟩ := mem_of_lookup hq
      exact ⟨q, hmem, hkind, .single (hoffset.symm ▸ hnext)⟩
    · exact ⟨a, ha, hkind, .head hnext hbehind⟩

/-- How the count of a type goes with what is behind it. -/
structure CountOf (g : TypeGraph) (o k e : Nat) : Prop where
  row : ∀ r, typeAt g.rows o = some r → r.flags ≠ tkindAlias ∧ r.pointers ≤ k ∧
    (PointerBehind g o ↔ r.pointers < k ∨ PointerBehind g e)
  noRow : typeAt g.rows o = none → k = 0 ∧ ¬ PointerBehind g e

theorem CountOf.child (c : CountOf g p k e) (hr : typeAt g.rows o = some r)
    (hparent : r.parent = p) : PointerBehind g o ↔ 0 < k ∨ PointerBehind g e := by
  rw [pointerBehind_iff hr, hparent]
  cases hat : typeAt g.rows p with
  | none =>
      obtain ⟨rfl, hbehind⟩ := c.noRow hat
      refine iff_of_false ?_ fun h => h.elim (Nat.lt_irrefl 0) hbehind
      rintro ⟨q, hq, _⟩
      cases hq
  | some q =>
      obtain ⟨_, hle, hiff⟩ := c.row q hat
      have hpointer : q.kind = tkindPointer ↔ q.pointers = 1 := by
        unfold StoredType.pointers
        split
        case isTrue h => exact iff_of_true h rfl
        case isFalse h => exact iff_of_false h Nat.zero_ne_one
      constructor
      · rintro ⟨_, ⟨⟩, hkind | hbehind⟩
        · exact .inl (Nat.lt_of_lt_of_le (hpointer.mp hkind ▸ Nat.one_pos) hle)
        · exact (hiff.mp hbehind).imp_left (Nat.lt_of_le_of_lt (Nat.zero_le _))
      · intro h
        refine ⟨q, rfl, ?_⟩
        by_cases hkind : q.kind = tkindPointer
        · exact .inl hkind
        · have hzero : q.pointers = 0 := if_neg hkind
          exact .inr (hiff.mpr (hzero.symm ▸ h))

theorem custom_row {d : TypeDie} {tag : CustomTag} {size : Nat} (hd : d ∈ g.dies)
    (hbody : d.body = .custom tag size (some p)) :
    ∃ r, typeAt g.rows d.offset = some r ∧ r.parent = p ∧ r.flags = tag.flags := by
  rw [typeAt_die hd, TypeDie.row, hbody]
  exact ⟨_, rfl, rfl, rfl⟩

theorem void_row {d : TypeDie} {size : Nat} (hd : d ∈ g.dies)
    (hbody : d.body = .custom .pointer size none) :
    ∃ r, typeAt g.rows d.offset = some r ∧ r.parent = 0 ∧ r.flags = tkindPointer := by
  rw [typeAt_die hd, TypeDie.row, hbody]
  exact ⟨_, rfl, rfl, rfl⟩

theorem pointers_of_pointer (h : r.flags = tkindPointer) :
    r.flags ≠ tkindAlias ∧ r.pointers = 1 := by
  rw [StoredType.pointers, StoredType.kind, h]
  decide

theorem pointers_of_qualified {tag : CustomTag} (htag : tag.qualifies) (h : r.flags = tag.flags) :
    r.flags ≠ tkindAlias ∧ r.pointers = 0 := by
  rw [StoredType.pointers, StoredType.kind, h]
  cases tag <;> first | decide | cases htag

theorem pointers_of_ends {d : TypeDie} (hends : d.body.ends) (hrow : d.row = some r) :
    r.flags ≠ tkindAlias ∧ r.pointers = 0 := by
  cases row_cases hrow with
  | @base _ encoding => cases encoding <;> exact ⟨Nat.ne_of_beq_eq_false rfl, rfl⟩
  | @custom tag _ type _ hbody hcustom =>
      rw [hbody] at hends
      cases tag <;> cases type <;> cases hends <;> cases hcustom <;>
        exact ⟨Nat.ne_of_beq_eq_false rfl, rfl⟩
  | array => exact ⟨Nat.ne_of_beq_eq_false rfl, rfl⟩
  | @aggr tag => cases tag <;> exact ⟨Nat.ne_of_beq_eq_false rfl, rfl⟩

theorem countOf (h : PointerCount g o k e) : CountOf g o k e := by
  induction h with
  | @ends d hd hends =>
      refine ⟨fun r hr => ?_, fun hnone => ⟨rfl, not_behind_of_none hnone⟩⟩
      obtain ⟨hflags, hzero⟩ := pointers_of_ends hends ((typeAt_die hd).symm.trans hr)
      rw [hzero]
      exact ⟨hflags, Nat.le_refl 0, (or_iff_right (Nat.lt_irrefl 0)).symm⟩
  | @void d size hd hbody =>
      obtain ⟨r, hrow, hparent, hpointer⟩ := void_row hd hbody
      obtain ⟨hflags, hone⟩ := pointers_of_pointer hpointer
      refine ⟨fun r' hr' => ?_, fun hnone => ?_⟩
      · cases hrow.symm.trans hr'
        have hbehind : ¬ PointerBehind g d.offset := by
          refine mt (pointerBehind_iff hrow).mp ?_
          rw [hparent, typeAt_zero]
          rintro ⟨q, hq, _⟩
          cases hq
        rw [hone]
        refine ⟨hflags, Nat.le_refl 1, iff_of_false hbehind ?_⟩
        exact fun h => h.elim (Nat.lt_irrefl 1) (not_behind_of_none typeAt_zero)
      · cases hrow.symm.trans hnone
  | pointer hd hbody _ ih =>
      obtain ⟨r, hrow, hparent, hpointer⟩ := custom_row hd hbody
      obtain ⟨hflags, hone⟩ := pointers_of_pointer hpointer
      refine ⟨fun r' hr' => ?_, fun hnone => ?_⟩
      · cases hrow.symm.trans hr'
        rw [ih.child hrow hparent, hone]
        exact ⟨hflags, Nat.le_add_left 1 _, or_congr_left (by rw [Nat.lt_add_left_iff_pos])⟩
      · cases hrow.symm.trans hnone
  | qualified hd hbody htag _ ih =>
      obtain ⟨r, hrow, hparent, hqualified⟩ := custom_row hd hbody
      obtain ⟨hflags, hzero⟩ := pointers_of_qualified htag hqualified
      refine ⟨fun r' hr' => ?_, fun hnone => ?_⟩
      · cases hrow.symm.trans hr'
        rw [ih.child hrow hparent, hzero]
        exact ⟨hflags, Nat.zero_le _, Iff.rfl⟩
      · cases hrow.symm.trans hnone

/-- **A count is right** if and only if there are no more than two pointers for a pointer,
and no more than one for other types. -/
theorem indirect_iff {rows' : List StoredType} {r' : StoredType}
    (hacyclic : Acyclic (parentAt g.rows)) (h : alterTypes g.members g.rows = some rows')
    (hcount : PointerCount g o k e) (hr : typeAt g.rows o = some r)
    (hr' : typeAt rows' o = some r') : r'.indirect = k ↔ Counted g r k e := by
  obtain ⟨t, ht, _, _, _, hone, hzero⟩ := indirect_row hacyclic h hr
  cases hr'.symm.trans ht
  obtain ⟨hflags, hle, hiff⟩ := (countOf hcount).row r hr
  unfold Counted
  by_cases hbehind : PointerBehind g o
  · rw [hone ⟨hflags, hbehind⟩]
    constructor
    · rintro rfl
      exact ⟨Nat.le_refl _, fun h => absurd h (Nat.succ_ne_self _)⟩
    · rintro ⟨hle', hend⟩
      rcases hiff.mp hbehind with hlt | he
      · exact Nat.le_antisymm hlt hle'
      · exact Nat.le_antisymm (Nat.lt_of_le_of_ne hle fun heq => hend heq.symm he) hle'
  · obtain ⟨hnlt, he⟩ := not_or.mp (hbehind ∘ hiff.mpr)
    have heq : k = r.pointers := Nat.le_antisymm (Nat.not_lt.mp hnlt) hle
    rw [hzero fun h => hbehind h.2]
    exact iff_of_true heq.symm ⟨Nat.le_succ_of_le (Nat.le_of_eq heq), fun _ => he⟩

/-- Types of no indirection are typedefs, and what is no pointer and has none behind it. -/
theorem indirect_zero_iff {rows' : List StoredType} {r' : StoredType}
    (hacyclic : Acyclic (parentAt g.rows)) (h : alterTypes g.members g.rows = some rows')
    (hr : typeAt g.rows o = some r) (hr' : typeAt rows' o = some r') :
    r'.indirect = 0 ↔ r.flags = tkindAlias ∨ (r.kind ≠ tkindPointer ∧ ¬ PointerBehind g o) := by
  obtain ⟨t, ht, _, _, _, hone, hzero⟩ := indirect_row hacyclic h hr
  cases hr'.symm.trans ht
  by_cases hbehind : r.flags ≠ tkindAlias ∧ PointerBehind g o
  · rw [hone hbehind]
    refine iff_of_false (Nat.succ_ne_zero _) ?_
    rintro (halias | ⟨_, hnot⟩)
    · exact hbehind.1 halias
    · exact hnot hbehind.2
  · rw [hzero hbehind, StoredType.pointers]
    constructor
    · intro hpointers
      have hkind : r.kind ≠ tkindPointer := fun hkind => by
        rw [if_pos hkind] at hpointers
        cases hpointers
      by_cases halias : r.flags = tkindAlias
      · exact .inl halias
      · exact .inr ⟨hkind, fun h => hbehind ⟨halias, h⟩⟩
    · rintro (halias | ⟨hkind, _⟩)
      · rw [StoredType.kind, halias]
        rfl
      · exact if_neg hkind

theorem based_iff {rows' : List StoredType} (hacyclic : Acyclic (parentAt g.rows))
    (h : alterTypes g.members g.rows = some rows') : Based g o ↔
      ∃ p, ReflTransGen (Next (parentAt g.rows)) o p ∧
        ∃ q, typeAt rows' p = some q ∧ q.indirect = 0 := by
  constructor
  · rintro ⟨a, ha, hreaches, hdirect⟩
    have hat : typeAt g.rows a.offset = some a := lookup_of_mem rows_nodup ha
    obtain ⟨q, hq, _⟩ := indirect_row hacyclic h hat
    exact ⟨a.offset, hreaches, q, hq, (indirect_zero_iff hacyclic h hat hq).mpr hdirect⟩
  · rintro ⟨p, hreaches, q, hq, hdirect⟩
    cases hat : typeAt g.rows p with
    | none => cases (typeAt_none (alterTypes_offsets h) hat).symm.trans hq
    | some a =>
        obtain ⟨ha, rfl⟩ := mem_of_lookup hat
        exact ⟨a, ha, hreaches, (indirect_zero_iff hacyclic h hat hq).mp hdirect⟩

end TypeGraph

end FlightRec
