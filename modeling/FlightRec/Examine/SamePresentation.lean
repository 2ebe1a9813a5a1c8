/-
# `FlightRec.Examine.SamePresentation` — variables in the list and in the watch

Whether a variable is a leaf or a container is decided twice.  `add_var_entry` goes by the
type behind all typedefs, `get_eval_result` by the type and the indirections that
`get_var_details` has for the name:

                variables                      evaluate
    integer     its number                     its number
    enum        its number                     an array
    struct      named children                 named children
    union       named children                 an array
    array       indexed children or a string   indexed children or a string
    pointer     items of the pointer's type    items of the type it points to
    typedef     what it names                  an array

So they agree on few types (`same_presentation_iff`).
-/
import FlightRec.Examine.Presentations
import FlightRec.Record.Kinds

namespace FlightRec.Presentations

open Agreement Chain Entries Expressions Hoare Update

/-! ## Agreement -/

/-- The type behind all typedefs. -/
def actualType (rows : List StoredType) (o : Nat) : Option StoredType :=
  (typeAt rows o).bind (drillDown rows (rows.length + 1))

/-- Both are the same, with a number for integers and enums. -/
def SamePresentation (S : Symbols) (T : Tables) (rows : List StoredType)
    (members : List (Nat × DieMember)) (c : Contents) (E : Env) (frames : List Frame)
    (frame : Frame) (exprId : Nat) (frameId : Int) (v : VarRow) (name : String) : Prop :=
  ∃ p, Lists S rows members c frames frame.scope v p ∧
    Evaluates S T rows c E frames exprId frameId name p ∧
    ∀ t, actualType rows (S.typeOffset v.id) = some t →
      (tkind t).isInteger ∨ tkind t = .enum → ∃ n, p = .leaf (some n)

/-- `evaluate` shows a pointer without children. -/
def EvalLeaf (rows : List StoredType) (c : Contents) (heap : Nat → UInt8) (addr : Nat)
    (b : StoredType) : Prop :=
  let target := evalTarget c heap addr (typeSize b)
  target = 0 ∨ ∀ size, block c target.toNat = .success size → isText rows b

/-- Types for which the two requests do the same: numbers of a size that is supported,
structs, arrays of what is no character if they have not only one struct, and pointers
without children. -/
def AlikeFor (rows : List StoredType) (c : Contents) (heap : Nat → UInt8) (addr : Nat)
    (t : StoredType) : Prop :=
  if t.indirect = 0 then
    match tkind t with
    | .signed | .unsigned | .float => supported (tkind t) (typeSize t)
    | .struct => True
    | .union | .enum | .pointer => False
    | .array => ∃ item, typeAt rows t.parent = some item ∧ isShown item = isText rows t ∧
        ¬ (t.dim = 1 ∧ isCompound item)
    | _ => t.flags ≠ tkindAlias ∧ isText rows t
  else
    ListedLeaf rows c addr t ∧ ∃ b, FirstDirect rows t.offset b ∧ EvalLeaf rows c heap addr b

/-- An integer or an enum that is 0. -/
def IsZero (c : Contents) (addr : Nat) (t : StoredType) : Prop :=
  ((tkind t).isInteger ∧ integerSize (typeSize t) ∨ tkind t = .enum ∧ enumSize (typeSize t)) ∧
    c.loadAt addr (typeSize t) (typeSize t) = 0

/-- The variable has an address, and its name is neither a word of the lexer nor a type, and
its type is one of these.  Or the name is `NULL`, and the variable is 0. -/
def ShownAlike (S : Symbols) (rows : List StoredType) (c : Contents) (heap : Nat → UInt8)
    (v : VarRow) (name : String) : Prop :=
  ∃ addr type, S.info.varLocation v.id c.curStep = some (addr, type) ∧
    ((lexWord name = .word name ∧ S.getTypeDetails name = none ∧
        ∃ t, typeAt rows type = some t ∧ AlikeFor rows c heap addr t) ∨
      (lexWord name = .constant .null ∧ ∃ t, actualType rows type = some t ∧ IsZero c addr t))

/-! ## The rows of a recording -/

section
variable {g : TypeGraph} {rows : List StoredType} {o : Nat} {t b : StoredType}

theorem recorded_row (haltered : alterTypes g.members g.rows = some rows)
    (ht : typeAt rows o = some t) : ∃ r, typeAt g.rows o = some r := by
  refine Option.isSome_iff_exists.mp (lookup_isSome.mpr ?_)
  rw [← alterTypes_offsets haltered]
  exact lookup_isSome.mp (Option.isSome_iff_exists.mpr ⟨t, ht⟩)

theorem typedef_direct (hacyclic : Acyclic (parentAt g.rows))
    (haltered : alterTypes g.members g.rows = some rows) (ht : typeAt rows o = some t)
    (halias : t.flags = tkindAlias) : t.indirect = 0 := by
  obtain ⟨r, hr⟩ := recorded_row haltered ht
  obtain ⟨hmem, rfl⟩ := mem_of_lookup hr
  obtain ⟨r', hr', _, _, hflags, _⟩ := TypeGraph.final_row haltered hmem
  cases ht.symm.trans hr'
  exact (TypeGraph.indirect_zero_iff hacyclic haltered hr ht).mpr (.inl (hflags.mp halias))

theorem pointerBehind_of_kind (h : KindFrom g o b) (hb : b.kind = tkindPointer) {r : StoredType}
    (hr : typeAt g.rows o = some r) : r.kind = tkindPointer ∨ PointerBehind g o := by
  induction h generalizing r with
  | own hmem _ =>
      cases (lookup_of_mem TypeGraph.rows_nodup hmem).symm.trans hr
      exact .inl hb
  | parent hmem _ hp _ _ ih =>
      exact .inr ((TypeGraph.pointerBehind_iff (lookup_of_mem TypeGraph.rows_nodup hmem)).mpr
        ⟨_, hp, ih hb hp⟩)

theorem pointer_indirect (hacyclic : Acyclic (parentAt g.rows))
    (haltered : alterTypes g.members g.rows = some rows) (ht : typeAt rows o = some t)
    (hkind : t.kind = tkindPointer) : t.indirect ≠ 0 := by
  obtain ⟨r, hr⟩ := recorded_row haltered ht
  obtain ⟨hmem, rfl⟩ := mem_of_lookup hr
  obtain ⟨r', hr', _, _, hflags, hfrom, hnone⟩ := TypeGraph.final_row haltered hmem
  cases ht.symm.trans hr'
  have hplain : r.flags ≠ tkindAlias := by
    intro halias
    have hk : t.kind = tkindAlias % 0x10000 := congrArg (· % 0x10000) (hflags.mpr halias)
    exact absurd (hkind.symm.trans hk) (by decide)
  rw [Ne, TypeGraph.indirect_zero_iff hacyclic haltered hr ht]
  rintro (halias | ⟨hnot, hbehind⟩)
  · exact hplain halias
  · by_cases hkinds : ∃ b, KindFrom g r.offset b
    · obtain ⟨b, hb⟩ := hkinds
      exact (pointerBehind_of_kind hb ((hfrom b hb).symm.trans hkind) hr).elim hnot hbehind
    · have hzero := hnone fun b hb => hkinds ⟨b, hb⟩
      exact absurd (hkind.symm.trans hzero) (by decide)

theorem kind_of_tkind (h : tkind t = .pointer) : t.kind = tkindPointer := by
  have hflags : (typeRow t).flags % 0x10000 = t.kind := rfl
  rw [tkind, TypeRow.kind, hflags] at h
  split at h <;> cases h
  assumption

end

/-! ## Both requests -/

section
variable {rows : List StoredType} {members : List (Nat × DieMember)} {c : Contents}
  {heap : Nat → UInt8} {addr o k : Nat} {t b : StoredType} {p : Presentation}

theorem actualType_plain (ht : typeAt rows o = some t) (hplain : t.flags ≠ tkindAlias) :
    actualType rows o = some t := by
  rw [actualType, ht]
  exact if_neg hplain

theorem actualType_flags (h : actualType rows o = some t) :
    t.flags ≠ tkindAlias ∧ typeAt rows t.offset = some t := by
  obtain ⟨n, x, hsteps, hx⟩ := steps_of_drillDown h
  obtain ⟨_, rfl⟩ := mem_of_lookup hx
  refine ⟨fun halias => ?_, hx⟩
  cases hsteps.ends.symm.trans (nextTypedef_some.mpr ⟨t, hx, halias, rfl⟩)

theorem listed_actual (h : actualType rows o = some t) :
    Entries.addVarEntry rows members c addr o 0 = typeEntry rows members c t addr 0 := by
  rw [Entries.addVarEntry]
  have hactual : (typeAt rows o).bind (drillDown rows (rows.length + 1)) = some t := h
  rw [hactual]

theorem readInteger_zero_iff {signed : Bool} {size : Nat} :
    readInteger c.mem signed addr size c.curStep = 0 ↔ c.loadAt addr size size = 0 := by
  rw [readInteger, integerOf_eq_zero, ← @integerOf_eq_zero false, Contents.loadAt]
  exact Int.ofNat_eq_zero

theorem listed_integer_zero {signed : Bool} {size : Nat} :
    (some (some { values := [integerValue c signed addr size] })).join.map listed =
      some (.leaf (some 0)) ↔ integerSize size ∧ c.loadAt addr size size = 0 := by
  by_cases hsize : integerSize size
  · have hzero : readInteger c.mem signed addr size c.curStep = 0 ↔ _ := readInteger_zero_iff
    rw [integerValue, if_pos hsize, ← hzero]
    simp only [Option.join_some, Option.map_some, Option.some.injEq, listed_value, entryNumber,
      Presentation.leaf.injEq, hsize, true_and]
  · rw [integerValue, if_neg hsize]
    exact iff_of_false (by rintro ⟨⟩) fun h => hsize h.1

theorem listed_enum_zero {size : Nat} :
    (some (some { values := [enumValue members c o addr size] })).join.map listed =
      some (.leaf (some 0)) ↔ enumSize size ∧ c.loadAt addr size size = 0 := by
  have hnumber (v : EntryValue) (hv : entryNumber v = some (c.loadAt addr size size : Int)) :
      (some (some { values := [v] })).join.map listed = some (.leaf (some 0)) ↔
        c.loadAt addr size size = 0 := by
    have hlisted : (some (some { values := [v] })).join.map listed =
        some (.leaf (some (c.loadAt addr size size : Int))) := by
      rw [← hv, ← listed_value]
      rfl
    rw [hlisted, Option.some.injEq, Presentation.leaf.injEq, Option.some.injEq]
    exact Int.ofNat_eq_zero
  by_cases hsize : enumSize size
  · rw [enumValue, if_pos hsize]
    refine (hnumber _ ?_).trans (and_iff_right hsize).symm
    dsimp only
    split <;> rfl
  · rw [enumValue, if_neg hsize]
    exact iff_of_false (by rintro ⟨⟩) fun h => hsize h.1

theorem listed_zero_iff :
    (Entries.addVarEntry rows members c addr o 0).join.map listed = some (.leaf (some 0)) ↔
      ∃ t, actualType rows o = some t ∧ IsZero c addr t := by
  cases hactual : actualType rows o with
  | none =>
      have hnone : (typeAt rows o).bind (drillDown rows (rows.length + 1)) = none := hactual
      rw [Entries.addVarEntry, hnone]
      exact iff_of_false (by rintro ⟨⟩) (by rintro ⟨_, ⟨⟩, _⟩)
  | some t =>
      have hnot (hinteger : ¬ (tkind t).isInteger) (henum : tkind t ≠ .enum) :
          ¬ IsZero c addr t := by
        rintro ⟨⟨h, _⟩ | ⟨h, _⟩, _⟩
        · exact hinteger h
        · exact henum h
      rw [listed_actual hactual, typeEntry, if_neg (not_not.mpr rfl)]
      simp only [Option.some.injEq, exists_eq_left']
      cases hkind : tkind t with
      | signed | unsigned =>
          refine listed_integer_zero.trans ?_
          rw [IsZero, hkind]
          refine and_congr_left fun _ => ⟨fun h => .inl ⟨rfl, h⟩, ?_⟩
          rintro (⟨_, h⟩ | ⟨⟨⟩, _⟩)
          exact h
      | enum =>
          refine listed_enum_zero.trans ?_
          rw [IsZero, hkind]
          refine and_congr_left fun _ => ⟨fun h => .inr ⟨rfl, h⟩, ?_⟩
          rintro (⟨⟨⟩, _⟩ | ⟨_, h⟩)
          exact h
      | pointer =>
          refine iff_of_false (fun h => ?_)
            (hnot (by rw [hkind]; rintro ⟨⟩) (by rw [hkind]; rintro ⟨⟩))
          cases listed_pointer_number h
      | array =>
          refine iff_of_false (fun h => ?_)
            (hnot (by rw [hkind]; rintro ⟨⟩) (by rw [hkind]; rintro ⟨⟩))
          cases listed_items_number rfl h
      | float =>
          refine iff_of_false (fun h => ?_)
            (hnot (by rw [hkind]; rintro ⟨⟩) (by rw [hkind]; rintro ⟨⟩))
          dsimp only at h
          split at h <;> cases h
      | _ =>
          exact iff_of_false (by rintro ⟨⟩)
            (hnot (by rw [hkind]; rintro ⟨⟩) (by rw [hkind]; rintro ⟨⟩))

theorem evalView_pointer (hk : k ≠ 0) (h : evalView rows c heap addr b k = some p) :
    p = .leaf none ∨ ∃ a n, p = .container a b.offset none (some n) := by
  have hitems (a n : NodeValue) (hp : some (evalItemsView rows b a n) = some p) :
      p = .leaf none ∨ ∃ a n, p = .container a b.offset none (some n) := by
    rw [← Option.some.inj hp, evalItemsView]
    split
    · exact .inl rfl
    · exact .inr ⟨_, _, rfl⟩
  rw [evalView, if_neg hk] at h
  dsimp only at h
  split at h
  · exact .inl (Option.some.inj h).symm
  · split at h
    · split at h
      · exact hitems _ _ h
      · split at h
        · cases h
        · exact hitems _ _ h
    · exact .inl (Option.some.inj h).symm

theorem evalItems_leaf {a n : NodeValue} :
    evalItemsView rows b a n = .leaf none ↔ isText rows b := by
  rw [evalItemsView]
  split
  case isTrue htext => exact iff_of_true rfl htext
  case isFalse hplain => exact iff_of_false nofun hplain

theorem evalLeaf_iff (hk : k ≠ 0) :
    evalView rows c heap addr b k = some (.leaf none) ↔ EvalLeaf rows c heap addr b := by
  rw [evalView, if_neg hk, EvalLeaf]
  dsimp only
  generalize evalTarget c heap addr (typeSize b) = target
  by_cases hnull : target = 0
  · rw [if_pos hnull]
    exact iff_of_true rfl (.inl hnull)
  · rw [if_neg hnull, or_iff_right hnull]
    cases block c target.toNat with
    | success size =>
        dsimp only
        simp only [Heap.PointerSize.success.injEq, forall_eq']
        by_cases hzero : BitVec.ofNat 64 size = 0
        · rw [if_pos hzero, Option.some.injEq, evalItems_leaf]
        · rw [if_neg hzero]
          by_cases hempty : typeSize b = 0
          · rw [if_pos hempty]
            refine iff_of_false (by rintro ⟨⟩) fun htext => ?_
            exact absurd (hempty.symm.trans (isText_iff.mp htext).1) (by decide)
          · rw [if_neg hempty, Option.some.injEq, evalItems_leaf]
    | memReleased | memNotfound | failure => exact iff_of_true rfl (by rintro _ ⟨⟩)

/-- Of a type with indirections both show leaves, or else different types. -/
theorem view_indirect_iff (ht : typeAt rows t.offset = some t) (hplain : t.flags ≠ tkindAlias)
    (hindirect : t.indirect ≠ 0) :
    (∃ p, (Entries.addVarEntry rows members c addr t.offset 0).join.map listed = some p ∧
      (∃ b, FirstDirect rows t.offset b ∧ evalView rows c heap addr b t.indirect = some p) ∧
      ∀ t', actualType rows t.offset = some t' → (tkind t').isInteger ∨ tkind t' = .enum →
        ∃ n, p = .leaf (some n)) ↔
      ListedLeaf rows c addr t ∧
        ∃ b, FirstDirect rows t.offset b ∧ EvalLeaf rows c heap addr b := by
  have hactual := actualType_plain ht hplain
  have hleaf : (typeEntry rows members c t addr 0).join.map listed = some (.leaf none) ∧ _ ↔
      ListedLeaf rows c addr t := listed_leaf_iff
  rw [listed_actual hactual, ← hleaf]
  constructor
  · rintro ⟨p, hlisted, ⟨b, hb, hview⟩, hnumber⟩
    rcases evalView_pointer hindirect hview with rfl | ⟨a, n, rfl⟩
    · refine ⟨⟨hlisted, fun hkind => ?_⟩, b, hb, (evalLeaf_iff hindirect).mp hview⟩
      obtain ⟨n, hn⟩ := hnumber t hactual hkind
      cases hn
    · obtain ⟨hdirect, m, x, _, hx⟩ := hb.walk
      have hoffset : b.offset = t.offset := Int.ofNat.inj (listed_type hlisted)
      rw [← typeAt_offset hx, hoffset, ht] at hx
      cases hx
      exact absurd hdirect hindirect
  · rintro ⟨⟨hlisted, hkind⟩, b, hb, hleaf⟩
    refine ⟨_, hlisted, ⟨b, hb, (evalLeaf_iff hindirect).mpr hleaf⟩, fun t' ht' hkind' => ?_⟩
    cases hactual.symm.trans ht'
    exact absurd hkind' hkind

theorem view_typedef (ht : typeAt rows t.offset = some t) (halias : t.flags = tkindAlias) :
    ¬ ∃ p, (Entries.addVarEntry rows members c addr t.offset 0).join.map listed = some p ∧
      evalView rows c heap addr t 0 = some p ∧
      ∀ t', actualType rows t.offset = some t' → (tkind t').isInteger ∨ tkind t' = .enum →
        ∃ n, p = .leaf (some n) := by
  rintro ⟨p, hlisted, hview, hnumber⟩
  have hkind : tkind t = .alias := kind_of_alias halias
  rw [evalView, if_pos rfl, hkind] at hview
  obtain rfl := Option.some.inj hview
  cases hactual : actualType rows t.offset with
  | none =>
      have hnone : (typeAt rows t.offset).bind (drillDown rows (rows.length + 1)) = none := hactual
      rw [Entries.addVarEntry, hnone] at hlisted
      cases hlisted
  | some t' =>
      obtain ⟨hplain, ht'⟩ := actualType_flags hactual
      rw [listed_actual hactual] at hlisted
      by_cases htext : isText rows t
      · -- what looks like a character is the parent of the typedef, an integer
        obtain ⟨_, hunder⟩ := isText_iff.mp htext
        cases hparent : typeAt rows t.parent with
        | none =>
            rw [actualType, ht, Option.bind_some, drillDown, if_pos halias, hparent] at hactual
            cases hactual
        | some q =>
            rw [underKind, hparent] at hunder
            have hinteger : (tkind q).isInteger := tkind_integer.mpr hunder
            have hqplain : q.flags ≠ tkindAlias := by
              intro hq
              have hk : tkind q = .alias := kind_of_alias hq
              rw [hk] at hinteger
              cases hinteger
            have hsteps : Steps (nextTypedef rows) 1 t.offset t.parent :=
              .step (nextTypedef_some.mpr ⟨t, ht, halias, rfl⟩)
                (.done (nextTypedef_none hparent hqplain))
            have hq : actualType rows t.offset = some q :=
              drillDown_steps hsteps hparent (Nat.lt_succ_of_le (steps_le_length hsteps))
            obtain ⟨n, hn⟩ := hnumber q hq (.inl hinteger)
            rw [evalItemsView, if_pos htext] at hn
            cases hn
      · rw [evalItemsView, if_neg htext] at hlisted
        have hoffset : t.offset = t'.offset := Int.ofNat.inj (listed_type hlisted)
        rw [← hoffset, ht] at ht'
        cases ht'
        exact hplain halias

theorem evalItems_ne {a n : NodeValue} :
    evalItemsView rows b a n = .leaf none ∨
      evalItemsView rows b a n = .container a b.offset none (some n) := by
  rw [evalItemsView]
  split
  · exact .inl rfl
  · exact .inr rfl

theorem view_integer {signed : Bool} {size : Nat} {kind : Prop} :
    (∃ p, (some (some { values := [integerValue c signed addr size] })).join.map listed = some p ∧
      (if integerSize size then some (.leaf (some (readInteger c.mem signed addr size c.curStep)))
        else none) = some p ∧ (kind → ∃ n, p = .leaf (some n))) ↔ integerSize size := by
  by_cases hsize : integerSize size
  · rw [if_pos hsize, integerValue, if_pos hsize]
    exact iff_of_true ⟨_, rfl, rfl, fun _ => ⟨_, rfl⟩⟩ hsize
  · rw [if_neg hsize]
    refine iff_of_false ?_ hsize
    rintro ⟨p, _, hview, _⟩
    cases hview

theorem view_float {size value : Nat} {kind : Prop} (hkind : ¬ kind) :
    (∃ p, (some (some { values :=
        [if floatSize size then .float size value else .unsupported] })).join.map listed = some p ∧
      (if floatSize size then some (.leaf none) else none) = some p ∧
        (kind → ∃ n, p = .leaf (some n))) ↔ floatSize size := by
  by_cases hsize : floatSize size
  · rw [if_pos hsize, if_pos hsize]
    exact iff_of_true ⟨_, rfl, rfl, fun h => absurd h hkind⟩ hsize
  · rw [if_neg hsize, if_neg hsize]
    refine iff_of_false ?_ hsize
    rintro ⟨p, _, hview, _⟩
    cases hview

theorem view_array {kind : Prop} (hkind : ¬ kind) :
    (∃ p, (itemsEntry rows c t addr 0 t.dim 0 []).join.map listed = some p ∧
      some (evalItemsView rows t (.ofNat 64 addr) (.ofNat 64 t.dim)) = some p ∧
      (kind → ∃ n, p = .leaf (some n))) ↔
      ∃ item, typeAt rows t.parent = some item ∧ isShown item = isText rows t ∧
        ¬ (t.dim = 1 ∧ isCompound item) := by
  cases hitem : typeAt rows t.parent with
  | none =>
      rw [listed_items_none hitem]
      refine iff_of_false ?_ nofun
      rintro ⟨p, hlisted, _⟩
      cases hlisted
  | some item =>
      have hnumber {p : Presentation} (h : kind) : ∃ n, p = .leaf (some n) := absurd h hkind
      have hempty : ¬ ((0 : Nat) ≠ 0 ∧ typeSize item = 0) := fun h => h.1 rfl
      rw [listed_items rfl hitem, if_neg hempty, if_neg (not_not.mpr rfl)]
      simp only [Option.some.injEq, exists_eq_left']
      cases htext : isText rows t with
      | true =>
          rw [evalItemsView, if_pos htext]
          by_cases hshown : isShown item
          · rw [if_pos hshown]
            exact iff_of_true ⟨_, rfl, rfl, hnumber⟩
              ⟨hshown, fun h => not_compound_of_shown hshown h.2⟩
          · rw [if_neg hshown]
            refine iff_of_false ?_ fun h => hshown h.1
            rintro ⟨p, hlisted, rfl, _⟩
            split at hlisted <;> cases hlisted
      | false =>
          have hplain : ¬ isText rows t := by
            rw [htext]
            nofun
          rw [evalItemsView, if_neg hplain]
          by_cases hshown : isShown item
          · rw [if_pos hshown]
            refine iff_of_false ?_ fun h => ?_
            · rintro ⟨p, hlisted, rfl, _⟩
              cases hlisted
            · cases hshown.symm.trans h.1
          · rw [if_neg hshown]
            by_cases hsingle : t.dim = 1 ∧ isCompound item
            · rw [if_pos hsingle]
              refine iff_of_false ?_ fun h => h.2 hsingle
              rintro ⟨p, hlisted, rfl, _⟩
              cases (Presentation.container.inj (Option.some.inj hlisted)).2.2.2
            · rw [if_neg hsingle]
              exact iff_of_true ⟨_, rfl, rfl, hnumber⟩ ⟨Bool.eq_false_iff.mpr hshown, hsingle⟩

/-- Of a type without indirections both show the same for these kinds. -/
theorem view_direct_iff (ht : typeAt rows t.offset = some t) (hplain : t.flags ≠ tkindAlias)
    (hpointer : tkind t ≠ .pointer) :
    (∃ p, (Entries.addVarEntry rows members c addr t.offset 0).join.map listed = some p ∧
      evalView rows c heap addr t 0 = some p ∧
      ∀ t', actualType rows t.offset = some t' → (tkind t').isInteger ∨ tkind t' = .enum →
        ∃ n, p = .leaf (some n)) ↔
      match tkind t with
      | .signed | .unsigned | .float => supported (tkind t) (typeSize t)
      | .struct => True
      | .union | .enum | .pointer => False
      | .array => ∃ item, typeAt rows t.parent = some item ∧ isShown item = isText rows t ∧
          ¬ (t.dim = 1 ∧ isCompound item)
      | _ => t.flags ≠ tkindAlias ∧ isText rows t := by
  have hactual := actualType_plain ht hplain
  have hexists {x y : Option Presentation} :
      (∃ p, x = some p ∧ y = some p ∧ ∀ t', actualType rows t.offset = some t' →
        (tkind t').isInteger ∨ tkind t' = .enum → ∃ n, p = .leaf (some n)) ↔
        ∃ p, x = some p ∧ y = some p ∧
          ((tkind t).isInteger ∨ tkind t = .enum → ∃ n, p = .leaf (some n)) := by
    simp only [hactual, Option.some.injEq, forall_eq']
  rw [hexists, listed_actual hactual, evalView, if_pos rfl, typeEntry, if_neg (not_not.mpr rfl)]
  cases hkind : tkind t with
  | signed | unsigned => exact view_integer
  | float => exact view_float (by rintro (⟨⟨⟩⟩ | ⟨⟨⟩⟩))
  | struct => exact iff_of_true ⟨_, rfl, rfl, by rintro (⟨⟨⟩⟩ | ⟨⟨⟩⟩)⟩ trivial
  | union =>
      refine iff_of_false ?_ id
      rintro ⟨p, hlisted, hview, _⟩
      rw [← Option.some.inj hview] at hlisted
      rcases evalItems_ne with hitems | hitems <;> rw [hitems] at hlisted <;> cases hlisted
  | enum =>
      refine iff_of_false ?_ id
      rintro ⟨p, _, hview, hnumber⟩
      obtain ⟨n, rfl⟩ := hnumber (.inr rfl)
      have hleaf := Option.some.inj hview
      rcases evalItems_ne with hitems | hitems <;> rw [hitems] at hleaf <;> cases hleaf
  | pointer => exact absurd hkind hpointer
  | array => exact view_array (by rintro (⟨⟨⟩⟩ | ⟨⟨⟩⟩))
  | _ =>
      by_cases htext : isText rows t
      · rw [evalItemsView, if_pos htext]
        exact iff_of_true ⟨_, rfl, rfl, by rintro (⟨⟨⟩⟩ | ⟨⟨⟩⟩)⟩ ⟨hplain, htext⟩
      · rw [evalItemsView, if_neg htext]
        refine iff_of_false ?_ fun h => htext h.2
        rintro ⟨p, hlisted, hview, _⟩
        rw [← Option.some.inj hview] at hlisted
        cases hlisted

/-- **One type**: both requests do the same for what is listed above. -/
theorem alikeFor_iff {g : TypeGraph} (hacyclic : Acyclic (parentAt g.rows))
    (haltered : alterTypes g.members g.rows = some rows) (ht : typeAt rows o = some t) :
    (∃ p, (Entries.addVarEntry rows members c addr o 0).join.map listed = some p ∧
      (∃ b, FirstDirect rows o b ∧ evalView rows c heap addr b t.indirect = some p) ∧
      ∀ t', actualType rows o = some t' → (tkind t').isInteger ∨ tkind t' = .enum →
        ∃ n, p = .leaf (some n)) ↔
      AlikeFor rows c heap addr t := by
  obtain ⟨_, rfl⟩ := mem_of_lookup ht
  rw [AlikeFor]
  by_cases hindirect : t.indirect = 0
  · have hfirst {p : Presentation} :
        (∃ b, FirstDirect rows t.offset b ∧ evalView rows c heap addr b t.indirect = some p) ↔
          evalView rows c heap addr t 0 = some p := by
      rw [hindirect]
      constructor
      · rintro ⟨b, hb, hview⟩
        rwa [hb.unique (.here ht hindirect)] at hview
      · exact fun hview => ⟨t, .here ht hindirect, hview⟩
    simp only [hfirst]
    rw [if_pos hindirect]
    by_cases halias : t.flags = tkindAlias
    · have hkind : tkind t = .alias := kind_of_alias halias
      rw [hkind]
      exact iff_of_false (view_typedef ht halias) fun h => h.1 halias
    · refine view_direct_iff ht halias fun hkind => ?_
      exact pointer_indirect hacyclic haltered ht (kind_of_tkind hkind) hindirect
  · rw [if_neg hindirect]
    refine view_indirect_iff ht (fun halias => ?_) hindirect
    exact hindirect (typedef_direct hacyclic haltered ht halias)

end

section
variable {S : Symbols} {rows : List StoredType} {members : List (Nat × DieMember)} {c : Contents}
  {frames : List Frame} {frame : Frame} {v : VarRow} {p : Presentation}

theorem lists_iff (htop : frames.head? = some frame) (hstep : frame.step = c.curStep) :
    Lists S rows members c frames frame.scope v p ↔
      ∃ addr type, S.info.varLocation v.id c.curStep = some (addr, type) ∧
        (Entries.addVarEntry rows members c addr type 0).join.map listed = some p := by
  have hfirst : variablesStep c.curStep frames frame.scope = .ok c.curStep := by
    rw [variablesStep]
    split
    · rfl
    · obtain ⟨rest, rfl⟩ : ∃ rest, frames = frame :: rest := List.head?_eq_some_iff.mp htop
      have hfind : (frame :: rest).find? (fun curFrame => curFrame.scope == frame.scope) =
          some frame := List.find?_cons_of_pos (beq_self_eq_true frame.scope)
      rw [hfind]
      exact congrArg _ hstep
  constructor
  · rintro ⟨step, addr, type, e, hat, hlocation, hentry, rfl⟩
    cases hfirst.symm.trans hat
    refine ⟨addr, type, hlocation, ?_⟩
    rw [hentry]
    rfl
  · rintro ⟨addr, type, hlocation, hlisted⟩
    obtain ⟨e, he, rfl⟩ := Option.map_eq_some_iff.mp hlisted
    exact ⟨_, addr, type, e, hfirst, hlocation, Option.join_eq_some_iff.mp he, rfl⟩

end

/-- **Leaves and containers**: in the top frame `evaluate` shows a variable as `variables` does
exactly if its type is one of those that both treat alike. -/
theorem same_presentation_iff {g : TypeGraph} {rows : List StoredType} {S : Symbols}
    (hacyclic : Acyclic (parentAt g.rows)) (haltered : alterTypes g.members g.rows = some rows)
    (hS : S.types = typeTable rows) {T : Tables} {c : Contents} {E : Env} {frames : List Frame}
    {frame : Frame} {exprId : Nat} {frameId : Int} {v : VarRow} {name : String}
    (htop : frames.head? = some frame)
    (hframe : findFrame frames (toUnsigned (jsonInt64 frameId)) = some frame)
    (hstep : frame.step = c.curStep)
    (hv : v ∈ S.scopeVars frames frame.scope) (hname : v.name = some name)
    (hunshadowed : S.Unshadowed frame.scope v name) :
    SamePresentation S T rows g.members c E frames frame exprId frameId v name ↔
      ShownAlike S rows c E.heap v name := by
  have hT : Tabled rows S := by
    refine ⟨hS, (alterTypes_offsets haltered).symm ▸ TypeGraph.rows_nodup, ?_⟩
    rw [TypeGraph.alterTypes_parents hacyclic haltered]
    exact hacyclic
  have hzero : typeAt rows 0 = none :=
    typeAt_none (alterTypes_offsets haltered) TypeGraph.typeAt_zero
  obtain ⟨hvar, hchain⟩ := mem_scopeVars hv
  have hdetails {id : Nat} {a : Attrs} :
      S.getVarDetails name frame.scope = some (id, a) ↔ id = v.id ∧ ∃ t b,
        typeAt rows (S.typeOffset v.id) = some t ∧ FirstDirect rows (S.typeOffset v.id) b ∧
          a = kept b t.indirect := getVarDetails_iff hT hvar hchain hname hunshadowed
  have hrow {o : Nat} {b : StoredType} (hb : FirstDirect rows o b) :
      typeAt rows b.offset = some b ∧ b.offset ≠ 0 := by
    obtain ⟨_, n, x, _, hx⟩ := hb.walk
    obtain rfl := typeAt_offset hx
    refine ⟨hx, fun h => ?_⟩
    rw [h, hzero] at hx
    cases hx
  rw [SamePresentation, ShownAlike]
  constructor
  · rintro ⟨p, hlists, hevaluates, hnumber⟩
    obtain ⟨addr, type, hlocation, hlisted⟩ := (lists_iff htop hstep).mp hlists
    obtain rfl := S.located _ _ _ _ hlocation
    refine ⟨addr, _, hlocation, ?_⟩
    rcases (evaluates_iff hframe).mp hevaluates with ⟨hnull, rfl⟩ | ⟨hword, htype, id, a, ha, hall⟩
    · exact .inr ⟨hnull, listed_zero_iff.mp hlisted⟩
    · obtain ⟨rfl, t, b, ht, hb, rfl⟩ := hdetails.mp ha
      obtain ⟨hat, hoffset⟩ := hrow hb
      rw [hstep] at hall
      have hview := (evaluates_var_iff hat hoffset hlocation).mp hall
      exact .inl ⟨hword, htype, t, ht, (alikeFor_iff hacyclic haltered ht).mp
        ⟨p, hlisted, ⟨b, hb, hview⟩, hnumber⟩⟩
  · rintro ⟨addr, type, hlocation, halike⟩
    obtain rfl := S.located _ _ _ _ hlocation
    rcases halike with ⟨hword, htype, t, ht, halike⟩ | ⟨hnull, hzeros⟩
    · have hboth : ∃ p, (Entries.addVarEntry rows g.members _ _ _ 0).join.map listed = some p ∧
          _ := (alikeFor_iff hacyclic haltered ht).mpr halike
      obtain ⟨p, hlisted, ⟨b, hb, hview⟩, hnumber⟩ := hboth
      obtain ⟨hat, hoffset⟩ := hrow hb
      refine ⟨p, (lists_iff htop hstep).mpr ⟨addr, _, hlocation, hlisted⟩,
        (evaluates_iff hframe).mpr (.inr ⟨hword, htype, v.id, _, hdetails.mpr
          ⟨rfl, t, b, ht, hb, rfl⟩, ?_⟩), hnumber⟩
      rw [hstep]
      exact (evaluates_var_iff hat hoffset hlocation).mpr hview
    · exact ⟨_, (lists_iff htop hstep).mpr ⟨addr, _, hlocation, listed_zero_iff.mpr hzeros⟩,
        (evaluates_iff hframe).mpr (.inl ⟨hnull, rfl⟩), fun _ _ _ => ⟨0, rfl⟩⟩

/-! ### Examples -/

/-- `int` and `union number { int i; float f; }` -/
def numberTypes : TypeGraph where
  dies := [⟨100, some "int", .base 4 .signed⟩,
    ⟨200, some "number", .aggr .unionType 4 [⟨some "i", 0⟩, ⟨some "f", 0⟩]⟩]
  offsets := by decide
  nonzero := by decide
  sizes := by simp

/-- The table of types. -/
def numberRows : List StoredType :=
  [⟨100, some "int", some 4, 0, 0, 1, 0⟩, ⟨200, some "number", some 4, 2, 0, 6, 0⟩]

/-- `int x` and `union number u` in a function. -/
def numberSymbols : Symbols where
  info := { vars := [⟨1, some "x", 1, 1, 10⟩, ⟨2, some "u", 1, 1, 11⟩]
            scopeAncestors := [⟨1, 0⟩], members := []
            varLocation := fun id _ =>
              if id = 1 then some (64, 100) else if id = 2 then some (68, 200) else none
            arrayInfo := fun _ _ => none, shown := fun _ _ => .plain, parsed := fun _ _ => none
            evaluated := fun _ _ _ => .plain }
  types := typeTable numberRows
  typeOffset := fun id => if id = 1 then 100 else 200
  offsets := by decide
  located := by
    intro varId step addr type h
    dsimp only at h
    split at h
    · cases h
      exact (if_pos ‹_›).symm
    · split at h <;> cases h
      exact (if_neg ‹_›).symm

def numberContents : Contents where
  mem := [⟨64, 1, 7 :: List.replicate 31 0⟩]
  heap := []
  funcName := fun _ => none
  curStep := 5

def numberFrame : Frame := ⟨0, 1, 5, 1, 20⟩

theorem acyclic_numberTypes : Acyclic (parentAt numberTypes.rows) := by
  have hless : ∀ r ∈ numberTypes.rows, r.parent < r.offset := by decide
  refine acyclic_of_lt (f := id) fun a b hab => ?_
  obtain ⟨r, hr, rfl⟩ := Option.map_eq_some_iff.mp hab
  obtain ⟨hmem, rfl⟩ := mem_of_lookup hr
  exact hless r hmem

theorem altered_numberTypes :
    alterTypes numberTypes.members numberTypes.rows = some numberRows := by rfl

theorem unshadowed_number (v : VarRow) (name : String)
    (h : ∀ w ∈ numberSymbols.info.vars, w.name = some name → w = v) :
    numberSymbols.Unshadowed 1 v name := fun w hw _ hname => h w hw hname

/-- The integer is shown alike. -/
theorem same_presentation_iff_integer :
    SamePresentation numberSymbols noTables numberRows numberTypes.members numberContents
      noRecording [numberFrame] numberFrame 1 0 ⟨1, some "x", 1, 1, 10⟩ "x" :=
  (same_presentation_iff acyclic_numberTypes altered_numberTypes rfl rfl rfl rfl (by decide) rfl
    (unshadowed_number _ _ (by decide))).mpr ⟨64, 100, rfl, .inl ⟨by decide, by decide,
      ⟨100, some "int", some 4, 0, 0, 1, 0⟩, rfl, (rfl : supported .signed 4 = true)⟩⟩

/-- The union is shown with two fields by `variables`, and with two items by `evaluate`. -/
theorem union_shown_as_array :
    ¬ SamePresentation numberSymbols noTables numberRows numberTypes.members numberContents
      noRecording [numberFrame] numberFrame 1 0 ⟨2, some "u", 1, 1, 11⟩ "u" := by
  rintro ⟨p, hlists, hevaluates, _⟩
  have hframe : findFrame [numberFrame] (toUnsigned (jsonInt64 0)) = some numberFrame := rfl
  have hdetails : numberSymbols.getVarDetails "u" numberFrame.scope =
      some (2, kept ⟨200, some "number", some 4, 2, 0, 6, 0⟩ 0) := by rfl
  have hlocation : numberSymbols.info.varLocation 2 numberContents.curStep = some (68, 200) := rfl
  obtain ⟨addr, type, hlocation', hlisted⟩ := (lists_iff rfl rfl).mp hlists
  cases hlocation.symm.trans hlocation'
  cases hlisted
  rcases (evaluates_iff hframe).mp hevaluates with ⟨_, hp⟩ | ⟨_, _, id, a, ha, hall⟩
  · cases hp
  · cases hdetails.symm.trans ha
    have hview := (evaluates_var_iff (E := noRecording) (b :=
      ⟨200, some "number", some 4, 2, 0, 6, 0⟩) rfl (by decide) hlocation).mp hall
    cases hview

end FlightRec.Presentations
