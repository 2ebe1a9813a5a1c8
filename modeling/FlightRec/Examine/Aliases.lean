/-
# `FlightRec.Examine.Aliases` — values of aliased and qualified types

A variable is to be shown in the same way whether its type is a type or a name of it, with
or without `const`, `volatile` and `restrict`.  For typedefs that is the work of a loop in
`add_var_entry`, which goes on as long as the flags are those of a typedef and nothing
else; the row of a qualified type is used as it is.  It has no more than the kind and the
size of what is qualified, if `alter_db` has come to them in time.

    what qualified types lose    (`AlikeBehind`, `Supported`)
    values by the kind of a type (`enum_same_iff` and the like)
    when nothing is lost         (`same_value_iff`)
-/
import FlightRec.Examine.Entries
import FlightRec.Record.Kinds

namespace FlightRec.Entries

open Agreement Chain Expressions Query Update

/-! ## What qualified types lose -/

/-- What is shown is the same for both types, wherever and whenever. -/
def SameValue (g : TypeGraph) (rows : List StoredType) (o o' : Nat) : Prop :=
  ∀ c addr, shownValues (addVarEntry rows g.members c addr o 0) =
    shownValues (addVarEntry rows g.members c addr o' 0)

/-- The row has the kind of a function. -/
def FunctionType (g : TypeGraph) (o : Nat) : Prop := ∃ b, KindFrom g o b ∧ b.kind = tkindFunc

/-- The row has the kind of an integer of one byte. -/
def CharType (g : TypeGraph) (o : Nat) : Prop :=
  ∃ b, KindFrom g o b ∧ (b.kind = 1 ∨ b.kind = 2) ∧ b.size = some 1

/-- There is nothing to be shown of items of this type but that they are there. -/
def PlainItem (g : TypeGraph) (o : Nat) : Prop :=
  (∃ r ∈ g.rows, r.offset = o) ∧ ¬ FunctionType g o ∧ ¬ CharType g o

/-- The value does not depend on more than kind and size: items are not those of a
qualified type, and enumerators belong to the enum. -/
def AlikeBehind (g : TypeGraph) (t : TypeDie) : Prop :=
  match t.body with
  | .custom .pointer _ type => PlainItem g (type.getD 0) ∧ Sized g (type.getD 0)
  | .array elem _ => PlainItem g elem
  | .aggr .enumerationType size members =>
      enumSize size → ∀ m ∈ members, ∀ v < 256 ^ size, m.value ≠ bindUint v
  | _ => True

/-- Values of the type itself are supported. -/
def Supported (t : TypeDie) : Prop := ∃ r, t.row = some r ∧ supported (tkind r) (typeSize r)

/-- The row has the kind of this type. -/
def KindKnown (g : TypeGraph) (o : Nat) (t : TypeDie) : Prop :=
  ∃ b, KindFrom g o b ∧ b.offset = t.offset

/-- Typedefs lead to the type itself, or to a qualified type that has its kind and loses
nothing; one without the kind loses nothing if the type is not supported anyway. -/
def Transparent (g : TypeGraph) (o : Nat) (t : TypeDie) : Prop :=
  ∃ q, Typedefs g o q ∧ (q.offset = t.offset ∨ (KindKnown g q.offset t ∧ AlikeBehind g t) ∨
    (¬ KindKnown g q.offset t ∧ ¬ Supported t))

/-! ## Values by the kind of a type -/

/-- Two rows that are shown in the same way. -/
def SameEntries (rows : List StoredType) (members : List (Nat × DieMember)) (q t : StoredType) :
    Prop :=
  ∀ c addr, shownValues (typeEntry rows members c q addr 0) =
    shownValues (typeEntry rows members c t addr 0)

section
variable {rows : List StoredType} {members : List (Nat × DieMember)} {c : Contents}
  {q t item : StoredType} {addr dim pointerSize : Nat} {shown : List EntryValue}

/-- A qualified pointer, whose items are pointers: nothing is added to its value. -/
theorem pointer_same_iff (hq : tkind q = .pointer) (ht : tkind t = .pointer)
    (hqsize : typeSize q = 8) (htsize : typeSize t = 8) (hitem : typeAt rows q.parent = some item)
    (hkind : tkind item = .pointer) (hsize : typeSize item ≠ 0) :
    SameEntries rows members q t ↔ ∃ item, typeAt rows t.parent = some item ∧
      tkind item ≠ .func ∧ ¬ (typeSize item = 1 ∧ (tkind item).isInteger) ∧
      typeSize item ≠ 0 := by
  have hplain (c : Contents) (target dim pointerSize : Nat) :
      shownValues (itemsEntry rows c q target 0 dim pointerSize [.pointer target ""]) =
        some (some (if [EntryValue.pointer target ""] = [] then [.typeName]
          else [.pointer target ""])) := by
    refine itemsEntry_plain_iff.mpr ⟨item, hitem, ?_, ?_, fun _ => hsize⟩
    · rw [hkind]
      nofun
    · rw [hkind]
      nofun
  constructor
  · intro h
    obtain ⟨f, hf⟩ := exists_load (v := 1) (n := 8) (by decide)
    have hsame := h (storing f [⟨1, 1, 0, 0⟩]) 0
    rw [typeEntry_pointer hq, typeEntry_pointer ht, pointerEntry_storing hf hqsize,
      pointerEntry_storing hf htsize, hplain] at hsame
    obtain ⟨item', hitem', hfunc, hchar, hsize'⟩ := itemsEntry_plain_iff.mp hsame.symm
    exact ⟨item', hitem', hfunc, hchar, hsize' Nat.one_ne_zero⟩
  · rintro ⟨item', hitem', hfunc, hchar, hsize'⟩ c addr
    rw [typeEntry_pointer hq, typeEntry_pointer ht]
    refine pointerEntry_congr (hqsize.trans htsize.symm) fun target dim dim' pointerSize => ?_
    rw [hplain]
    exact (itemsEntry_plain_iff.mpr ⟨item', hitem', hfunc, hchar, fun _ => hsize'⟩).symm

theorem array_same_iff (hq : tkind q = .array) (ht : tkind t = .array)
    (hitem : typeAt rows q.parent = some item) (hkind : tkind item = .array) :
    SameEntries rows members q t ↔ ∃ item, typeAt rows t.parent = some item ∧
      tkind item ≠ .func ∧ ¬ (typeSize item = 1 ∧ (tkind item).isInteger) := by
  have hplain (c : Contents) (addr : Nat) : shownValues (itemsEntry rows c q addr 0 q.dim 0 []) =
      some (some (if ([] : List EntryValue) = [] then [.typeName] else [])) := by
    refine itemsEntry_plain_iff.mpr ⟨item, hitem, ?_, ?_, nofun⟩
    · rw [hkind]
      nofun
    · rw [hkind]
      nofun
  have hsame : SameEntries rows members q t ↔ ∀ c addr,
      shownValues (itemsEntry rows c t addr 0 t.dim 0 []) =
        some (some (if ([] : List EntryValue) = [] then [.typeName] else [])) := by
    refine forall₂_congr fun c addr => ?_
    rw [typeEntry_array hq, typeEntry_array ht, hplain]
    exact eq_comm
  rw [hsame]
  constructor
  · intro h
    obtain ⟨item', hitem', hfunc, hchar, _⟩ := itemsEntry_plain_iff.mp (h (storing 0 []) 0)
    exact ⟨item', hitem', hfunc, hchar⟩
  · rintro ⟨item', hitem', hfunc, hchar⟩ c addr
    exact itemsEntry_plain_iff.mpr ⟨item', hitem', hfunc, hchar, nofun⟩

theorem sameEntries_of_size (hkind : tkind q = tkind t) (hsize : typeSize q = typeSize t)
    (hpointer : tkind t ≠ .pointer) (harray : tkind t ≠ .array) (henum : tkind t ≠ .enum) :
    SameEntries rows members q t := by
  intro c addr
  rw [typeEntry, typeEntry, if_neg (not_not.mpr rfl), if_neg (not_not.mpr rfl), hkind, hsize]
  split
  · rfl
  · rfl
  · exact absurd ‹_› hpointer
  · exact absurd ‹_› harray
  · rfl
  · rfl
  · rfl
  · exact absurd ‹_› henum
  · rfl

theorem enum_same_iff (hq : tkind q = .enum) (ht : tkind t = .enum)
    (hsize : typeSize q = typeSize t) (hmembers : ∀ m ∈ members, m.1 ≠ q.offset) :
    SameEntries rows members q t ↔ (enumSize (typeSize t) → ∀ m ∈ members, m.1 = t.offset →
      ∀ v < 256 ^ typeSize t, m.2.value ≠ bindUint v) := by
  have hsame : SameEntries rows members q t ↔ ∀ c addr,
      enumValue members c q.offset addr (typeSize t) =
        enumValue members c t.offset addr (typeSize t) := by
    refine forall₂_congr fun c addr => ?_
    rw [typeEntry_enum hq, typeEntry_enum ht, hsize, Option.some.injEq, Option.some.injEq,
      List.singleton_inj]
  rw [hsame]
  constructor
  · rintro h henum m hm htype v hlt hv
    obtain ⟨f, hf⟩ := exists_load hlt
    have hroom : typeSize t ≤ memSegmentSize := by
      unfold memSegmentSize
      simp only [enumSize, Bool.or_eq_true, decide_eq_true_eq] at henum
      omega
    have hload : (storing f []).loadAt 0 (typeSize t) (typeSize t) = v :=
      (storing_loadAt hroom).trans hf
    have hvalue : m.2.value =
        bindUint ((storing f []).loadAt 0 (typeSize t) (typeSize t)) := by
      rw [hload, hv]
    obtain ⟨name, hitem⟩ := enumValue_some henum hm htype hvalue
    have hnumber : enumValue members (storing f []) q.offset 0 (typeSize t) = _ :=
      enumValue_none henum fun m hm hq => absurd hq (hmembers m hm)
    cases hnumber.symm.trans ((h (storing f []) 0).trans hitem)
  · intro h c addr
    by_cases henum : enumSize (typeSize t)
    · rw [enumValue_none henum fun m hm hq => absurd hq (hmembers m hm),
        enumValue_none henum fun m hm htype => h henum m hm htype _ ?_]
      have hlt := load_lt (fun i => (getVarValue c.mem addr (typeSize t) c.curStep).getD i 0)
        (typeSize t)
      rw [Nat.pow_mul] at hlt
      exact hlt
    · rw [enumValue, enumValue, if_neg henum, if_neg henum]

theorem unsupported_same_iff (hq : tkind q = .none ∨ tkind q = .alias) :
    SameEntries rows members q t ↔ ¬ supported (tkind t) (typeSize t) := by
  have hunsupported (c : Contents) (addr : Nat) :
      shownValues (typeEntry rows members c q addr 0) = some (some [.unsupported]) := by
    refine unsupported_iff.mpr ?_
    rcases hq with hq | hq
    · rw [hq]
      nofun
    · rw [hq]
      nofun
  constructor
  · intro h
    exact unsupported_iff.mp ((h (storing 0 []) 0).symm.trans (hunsupported _ _))
  · intro h c addr
    exact (hunsupported c addr).trans (unsupported_iff.mpr h).symm

end

/-! ## Typedefs -/

section
variable {g : TypeGraph} {rows' : List StoredType} {c : Contents} {t d : TypeDie}
  {q q' k t' r b item : StoredType} {o o' p n addr : Nat}

theorem typedefs_steps (h : alterTypes g.members g.rows = some rows') (htypedefs : Typedefs g o q) :
    ∃ n, Steps (nextTypedef rows') n o q.offset := by
  induction htypedefs with
  | ends hr hplain =>
      obtain ⟨r', hr', _, _, halias, _⟩ := TypeGraph.final_row h hr
      exact ⟨0, .done (nextTypedef_none hr' (halias.not.mpr hplain))⟩
  | typedef hr halias _ ih =>
      obtain ⟨r', hr', _, hparent, halias', _⟩ := TypeGraph.final_row h hr
      obtain ⟨n, hn⟩ := ih
      exact ⟨n + 1, .step (nextTypedef_some.mpr ⟨r', hr', halias'.mpr halias, hparent⟩) hn⟩

/-- The entry is one for the type at the end of the typedefs. -/
theorem addVarEntry_typedefs (h : alterTypes g.members g.rows = some rows')
    (htypedefs : Typedefs g o q) (hq : typeAt rows' q.offset = some q') :
    addVarEntry rows' g.members c addr o 0 = typeEntry rows' g.members c q' addr 0 := by
  obtain ⟨n, hsteps⟩ := typedefs_steps h htypedefs
  have hdrill := drillDown_steps hsteps hq (Nat.lt_succ_of_le (steps_le_length hsteps))
  rw [addVarEntry, hdrill]

theorem sameValue_typedefs (h : alterTypes g.members g.rows = some rows')
    (hq : Typedefs g o q) (hq' : typeAt rows' q.offset = some q')
    (ht : Typedefs g o' k) (ht' : typeAt rows' k.offset = some t') :
    SameValue g rows' o o' ↔ SameEntries rows' g.members q' t' := by
  refine forall₂_congr fun c addr => ?_
  rw [addVarEntry_typedefs h hq hq', addVarEntry_typedefs h ht ht']

/-! ## Items -/

theorem row_of_item (h : alterTypes g.members g.rows = some rows')
    (hitem : typeAt rows' p = some item) : ∃ r ∈ g.rows, r.offset = p := by
  cases hp : typeAt g.rows p with
  | none => cases hitem.symm.trans (typeAt_none (alterTypes_offsets h) hp)
  | some r =>
      obtain ⟨hr, hoffset⟩ := mem_of_lookup hp
      exact ⟨r, hr, hoffset⟩

theorem item_kind (h : alterTypes g.members g.rows = some rows')
    (hitem : typeAt rows' p = some item) :
    (∃ b, KindFrom g p b ∧ item.kind = b.kind) ∨ ((∀ b, ¬ KindFrom g p b) ∧ item.kind = 0) := by
  obtain ⟨r, hr, rfl⟩ := row_of_item h hitem
  obtain ⟨item', hitem', _, _, _, hkind, hnone⟩ := TypeGraph.final_row h hr
  cases hitem.symm.trans hitem'
  by_cases hfrom : ∃ b, KindFrom g r.offset b
  · obtain ⟨b, hb⟩ := hfrom
    exact .inl ⟨b, hb, hkind b hb⟩
  · exact .inr ⟨not_exists.mp hfrom, hnone (not_exists.mp hfrom)⟩

theorem kindFrom_item (h : alterTypes g.members g.rows = some rows')
    (hitem : typeAt rows' p = some item) (hb : KindFrom g p b) : item.kind = b.kind := by
  obtain ⟨r, hr, rfl⟩ := row_of_item h hitem
  obtain ⟨item', hitem', _, _, _, hkind, _⟩ := TypeGraph.final_row h hr
  cases hitem.symm.trans hitem'
  exact hkind b hb

theorem typeSize_item (hitem : typeAt rows' p = some item) :
    typeSize item = (sizeAt rows' p).getD 0 := by
  rw [sizeAt, hitem]
  rfl

theorem function_iff (h : alterTypes g.members g.rows = some rows')
    (hitem : typeAt rows' p = some item) : tkind item = .func ↔ FunctionType g p := by
  rw [tkind_func]
  constructor
  · intro hfunc
    rcases item_kind h hitem with ⟨b, hb, hkind⟩ | ⟨_, hzero⟩
    · exact ⟨b, hb, hkind.symm.trans hfunc⟩
    · cases hfunc.symm.trans hzero
  · rintro ⟨b, hb, hfunc⟩
    exact (kindFrom_item h hitem hb).trans hfunc

theorem integer_own (hb : b ∈ g.rows) (hkind : b.kind = 1 ∨ b.kind = 2) :
    ∃ d ∈ g.dies, d.row = some b ∧ ∃ n, d.body.ownSize = some n ∧ b.size = some n := by
  obtain ⟨d, hd, hrow⟩ := TypeGraph.mem_rows.mp hb
  refine ⟨d, hd, hrow, ?_⟩
  cases TypeGraph.row_cases hrow with
  | @base size encoding hbody => exact ⟨size, by rw [hbody]; rfl, rfl⟩
  | @custom tag _ _ _ _ hcustom =>
      obtain ⟨_, _, _, _, hflags, _⟩ := TypeGraph.custom_columns hcustom
      rw [StoredType.kind, hflags] at hkind
      exfalso
      revert hkind
      cases tag <;> decide
  | array =>
      exact absurd hkind (show ¬ (tkindArray % 0x10000 = 1 ∨ tkindArray % 0x10000 = 2) by decide)
  | @aggr tag =>
      have htag : tag.flags % 0x10000 = 1 ∨ tag.flags % 0x10000 = 2 := hkind
      exfalso
      revert htag
      cases tag <;> decide

theorem char_iff (h : alterTypes g.members g.rows = some rows')
    (hitem : typeAt rows' p = some item) :
    (typeSize item = 1 ∧ (tkind item).isInteger) ↔ CharType g p := by
  obtain ⟨s, columns⟩ := sizeColumns h
  have hfrom {b : StoredType} (hb : KindFrom g p b) (hint : b.kind = 1 ∨ b.kind = 2) :
      b.size = some (typeSize item) := by
    obtain ⟨d, hd, hrow, n, hown, hsize⟩ := integer_own (TypeGraph.kindFrom_row hb).1 hint
    rw [hsize, typeSize_item hitem, TypeGraph.size_from_own h columns hd hrow hown hb]
  rw [tkind_integer]
  constructor
  · rintro ⟨hone, hint⟩
    rcases item_kind h hitem with ⟨b, hb, hkind⟩ | ⟨_, hzero⟩
    · rw [hkind] at hint
      exact ⟨b, hb, hint, hone ▸ hfrom hb hint⟩
    · rw [hzero] at hint
      exact absurd hint (by decide)
  · rintro ⟨b, hb, hint, hone⟩
    rw [kindFrom_item h hitem hb]
    exact ⟨Option.some.inj ((hfrom hb hint).symm.trans hone), hint⟩

theorem plainItem_iff (h : alterTypes g.members g.rows = some rows') :
    PlainItem g p ↔ ∃ item, typeAt rows' p = some item ∧ tkind item ≠ .func ∧
      ¬ (typeSize item = 1 ∧ (tkind item).isInteger) := by
  constructor
  · rintro ⟨⟨r, hr, rfl⟩, hfunc, hchar⟩
    obtain ⟨item, hitem, _⟩ := TypeGraph.final_row h hr
    exact ⟨item, hitem, (function_iff h hitem).not.mpr hfunc, (char_iff h hitem).not.mpr hchar⟩
  · rintro ⟨item, hitem, hfunc, hchar⟩
    exact ⟨row_of_item h hitem, (function_iff h hitem).not.mp hfunc,
      (char_iff h hitem).not.mp hchar⟩

theorem sized_iff (h : alterTypes g.members g.rows = some rows')
    (hitem : typeAt rows' p = some item) : typeSize item ≠ 0 ↔ Sized g p := by
  obtain ⟨s, columns⟩ := sizeColumns h
  obtain ⟨r, hr, rfl⟩ := row_of_item h hitem
  rw [typeSize_item hitem]
  exact ⟨TypeGraph.sized_of_final columns hr, TypeGraph.final_of_sized columns⟩

theorem sizedItem_iff (h : alterTypes g.members g.rows = some rows') :
    (PlainItem g p ∧ Sized g p) ↔ ∃ item, typeAt rows' p = some item ∧ tkind item ≠ .func ∧
      ¬ (typeSize item = 1 ∧ (tkind item).isInteger) ∧ typeSize item ≠ 0 := by
  rw [plainItem_iff h]
  constructor
  · rintro ⟨⟨item, hitem, hfunc, hchar⟩, hsized⟩
    exact ⟨item, hitem, hfunc, hchar, (sized_iff h hitem).mpr hsized⟩
  · rintro ⟨item, hitem, hfunc, hchar, hsize⟩
    exact ⟨⟨item, hitem, hfunc, hchar⟩, (sized_iff h hitem).mp hsize⟩

/-! ## Qualified types -/

theorem member_die {m : Nat × DieMember} : m ∈ g.members ↔ ∃ d ∈ g.dies, ∃ tag size members,
    d.body = .aggr tag size members ∧ m.1 = d.offset ∧ m.2 ∈ members := by
  rw [TypeGraph.members, List.mem_flatMap]
  refine exists_congr fun d => and_congr_right fun _ => ?_
  unfold TypeDie.members
  split
  case h_1 tag size members hbody =>
    rw [List.mem_map]
    constructor
    · rintro ⟨a, ha, rfl⟩
      exact ⟨tag, size, members, hbody, rfl, ha⟩
    · rintro ⟨tag', size', members', hbody', hoffset, hm⟩
      cases hbody.symm.trans hbody'
      exact ⟨m.2, hm, by rw [← hoffset]⟩
  case h_2 hother =>
    refine iff_of_false List.not_mem_nil ?_
    rintro ⟨tag, size, members, hbody, _⟩
    exact hother tag size members hbody

theorem qualified_members (h : alterTypes g.members g.rows = some rows') (hq : q ∈ g.rows)
    (hkind : q.kind = 0) : ∀ m ∈ g.members, m.1 ≠ q.offset := by
  intro m hm heq
  obtain ⟨d, hd, tag, size, members, hbody, hoffset, _⟩ := member_die.mp hm
  obtain ⟨d', hd', hoffset', hnamed, _⟩ := TypeGraph.qualified_named h hq hkind
  have hsame : d = d' :=
    List.inj_on_of_nodup_map g.offsets hd hd' (hoffset.symm.trans (heq.trans hoffset'.symm))
  rw [← hsame, hbody] at hnamed
  cases hnamed

/-- What a qualified type that has the kind of a type has of it: the kind and the size
are the same, and its items are of this kind and size. -/
structure Qualified (g : TypeGraph) (rows' : List StoredType) (t : TypeDie)
    (q' t' item : StoredType) : Prop where
  kind : tkind q' = tkind t'
  size : ∀ n, t.body.ownSize = some n → typeSize q' = n ∧ typeSize t' = n
  found : typeAt rows' q'.parent = some item
  itemKind : tkind item = tkind t'
  itemSize : ∀ n, t.body.ownSize = some n → typeSize item = n
  members : ∀ m ∈ g.members, m.1 ≠ q'.offset

theorem qualified (h : alterTypes g.members g.rows = some rows') (ht : t ∈ g.dies)
    (hrow : t.row = some k) (hk : k.kind ≠ 0) (ht' : typeAt rows' t.offset = some t')
    (hq : q ∈ g.rows) (hzero : q.kind = 0) (hq' : typeAt rows' q.offset = some q')
    (hfrom : KindFrom g q.offset k) : ∃ item, Qualified g rows' t q' t' item := by
  obtain ⟨s, columns⟩ := sizeColumns h
  obtain ⟨q'', hq'', hoffset, hparent, _⟩ := TypeGraph.final_row h hq
  cases hq'.symm.trans hq''
  have hself : KindFrom g t.offset k :=
    TypeGraph.row_offset hrow ▸ .own (TypeGraph.mem_of_row ht hrow) hk
  have hbehind : (∃ p ∈ g.rows, p.offset = q.parent) ∧ KindFrom g q.parent k := by
    generalize ho : q.offset = o at hfrom
    cases hfrom with
    | own hr hne =>
        obtain rfl := List.inj_on_of_nodup_map TypeGraph.rows_nodup hq hr ho
        exact absurd hzero hne
    | parent hr _ hp _ hbehind =>
        obtain rfl := List.inj_on_of_nodup_map TypeGraph.rows_nodup hq hr ho
        obtain ⟨hp, hpoffset⟩ := mem_of_lookup hp
        exact ⟨⟨_, hp, hpoffset⟩, hbehind⟩
  obtain ⟨⟨p, hp, hpoffset⟩, hbehind⟩ := hbehind
  obtain ⟨item, hitem, _⟩ := TypeGraph.final_row h hp
  rw [hpoffset] at hitem
  have htkind := kindFrom_item h ht' hself
  refine ⟨item, ⟨tkind_congr ((kindFrom_item h hq' hfrom).trans htkind.symm), ?_,
    hparent.symm ▸ hitem, tkind_congr ((kindFrom_item h hitem hbehind).trans htkind.symm), ?_,
    hoffset.symm ▸ qualified_members h hq hzero⟩⟩
  · intro n hown
    rw [typeSize_item hq', typeSize_item ht']
    exact ⟨TypeGraph.size_from_own h columns ht hrow hown hfrom,
      TypeGraph.size_from_own h columns ht hrow hown hself⟩
  · intro n hown
    rw [typeSize_item hitem]
    exact TypeGraph.size_from_own h columns ht hrow hown hbehind

theorem forall_members (ht : t ∈ g.dies) {tag : AggrTag} {size : Nat} {members : List DieMember}
    (hbody : t.body = .aggr tag size members) {P : DieMember → Prop} :
    (∀ m ∈ g.members, m.1 = t.offset → P m.2) ↔ ∀ m ∈ members, P m := by
  constructor
  · intro h m hm
    exact h (t.offset, m) (member_die.mpr ⟨t, ht, tag, size, members, hbody, rfl, hm⟩) rfl
  · intro h m hm hoffset
    obtain ⟨d, hd, tag', size', members', hbody', hd', hmem⟩ := member_die.mp hm
    obtain rfl : d = t := List.inj_on_of_nodup_map g.offsets hd ht (hd'.symm.trans hoffset)
    cases hbody.symm.trans hbody'
    exact h m.2 hmem

theorem end_kind (h : alterTypes g.members g.rows = some rows') (ht : t ∈ g.dies)
    (hrow : t.row = some k) (hk : k.kind ≠ 0) (ht' : typeAt rows' t.offset = some t') :
    tkind t' = tkind k := by
  have hself : KindFrom g t.offset k :=
    TypeGraph.row_offset hrow ▸ .own (TypeGraph.mem_of_row ht hrow) hk
  exact tkind_congr (kindFrom_item h ht' hself)

theorem alike_pointer (h : alterTypes g.members g.rows = some rows')
    (hqual : Qualified g rows' t q' t' item) (hown : t.body.ownSize = some 8)
    (hkind : tkind t' = .pointer) :
    SameEntries rows' g.members q' t' ↔ PlainItem g t'.parent ∧ Sized g t'.parent := by
  obtain ⟨hqsize, htsize⟩ := hqual.size 8 hown
  have hitem : typeSize item ≠ 0 := by
    rw [hqual.itemSize 8 hown]
    nofun
  exact (pointer_same_iff (hqual.kind.trans hkind) hkind hqsize htsize hqual.found
    (hqual.itemKind.trans hkind) hitem).trans (sizedItem_iff h).symm

theorem alike_enum {tag : AggrTag} {size : Nat} {members : List DieMember} (ht : t ∈ g.dies)
    (hbody : t.body = .aggr tag size members) (hoffset : t'.offset = t.offset)
    (hqual : Qualified g rows' t q' t' item) (hkind : tkind t' = .enum) :
    SameEntries rows' g.members q' t' ↔ (enumSize size → ∀ m ∈ members,
      ∀ v < 256 ^ size, m.value ≠ bindUint v) := by
  obtain ⟨hqsize, htsize⟩ := hqual.size size (by rw [hbody]; rfl)
  rw [enum_same_iff (hqual.kind.trans hkind) hkind (hqsize.trans htsize.symm) hqual.members,
    htsize, hoffset]
  exact imp_congr_right fun _ => forall_members ht hbody
    (P := fun m => ∀ v < 256 ^ size, m.value ≠ bindUint v)

/-- **A qualified type that has the kind** of a type shows its values if it loses nothing;
one case for each kind of DIE. -/
theorem alike_iff (h : alterTypes g.members g.rows = some rows') (ht : t ∈ g.dies)
    (hrow : t.row = some k) (hk : k.kind ≠ 0) (hend : t.body.named = none)
    (hpointer : ∀ size type, t.body = .custom .pointer size type → size = 8)
    (ht' : typeAt rows' t.offset = some t') (hqual : Qualified g rows' t q' t' item) :
    SameEntries rows' g.members q' t' ↔ AlikeBehind g t := by
  have hkind := end_kind h ht hrow hk ht'
  obtain ⟨t'', ht'', hoffset, hparent, _⟩ :=
    TypeGraph.final_row h (TypeGraph.mem_of_row ht hrow)
  rw [TypeGraph.row_offset hrow] at ht'' hoffset
  cases ht'.symm.trans ht''
  unfold AlikeBehind
  cases TypeGraph.end_cases hrow hend with
  | @base size encoding hbody hflags =>
      have hbase := hkind.trans (tkind_of_flags hflags)
      obtain ⟨hqsize, htsize⟩ := hqual.size size (by rw [hbody]; rfl)
      rw [hbody]
      refine iff_of_true (sameEntries_of_size hqual.kind (hqsize.trans htsize.symm) ?_ ?_ ?_)
        trivial
      all_goals
        rw [hbase]
        cases encoding <;> nofun
  | @pointer size type hbody hflags hkparent =>
      have hpt : tkind t' = .pointer := hkind.trans (tkind_of_flags hflags)
      have hown : t.body.ownSize = some 8 := by
        rw [hbody, hpointer size type hbody]
        rfl
      rw [alike_pointer h hqual hown hpt, hparent, hkparent, hbody]
  | subroutine hbody hflags =>
      have hfunc : tkind t' = .func := hkind.trans (tkind_of_flags hflags)
      have hqfunc := hqual.kind.trans hfunc
      rw [hbody]
      refine iff_of_true (fun c addr => ?_) trivial
      rw [unsupported_iff.mpr (by rw [hqfunc]; nofun), unsupported_iff.mpr (by rw [hfunc]; nofun)]
  | array hbody hflags hkparent =>
      have harray : tkind t' = .array := hkind.trans (tkind_of_flags hflags)
      rw [array_same_iff (hqual.kind.trans harray) harray hqual.found
        (hqual.itemKind.trans harray), hparent, hkparent, hbody]
      exact (plainItem_iff h).symm
  | @aggr tag size members hbody hflags =>
      have haggr := hkind.trans (tkind_of_flags hflags)
      obtain ⟨hqsize, htsize⟩ := hqual.size size (by rw [hbody]; rfl)
      rw [hbody]
      cases tag with
      | structureType | unionType =>
          refine iff_of_true (sameEntries_of_size hqual.kind (hqsize.trans htsize.symm) ?_ ?_ ?_)
            trivial
          all_goals
            rw [haggr]
            nofun
      | enumerationType => exact alike_enum ht hbody hoffset hqual haggr

theorem supported_iff (h : alterTypes g.members g.rows = some rows') (ht : t ∈ g.dies)
    (hrow : t.row = some k) (hk : k.kind ≠ 0) (hend : t.body.named = none)
    (ht' : typeAt rows' t.offset = some t') :
    supported (tkind t') (typeSize t') ↔ Supported t := by
  obtain ⟨s, columns⟩ := sizeColumns h
  have hown {n : Nat} (hown : t.body.ownSize = some n) : typeSize t' = typeSize k := by
    obtain ⟨k', hrow', hsize, _⟩ := TypeGraph.own_row hown
    cases hrow.symm.trans hrow'
    rw [typeSize_item ht', columns.final_own ht hown, typeSize, hsize]
    rfl
  have hsame : supported (tkind k) (typeSize t') = supported (tkind k) (typeSize k) := by
    cases TypeGraph.end_cases hrow hend with
    | base hbody _ => rw [hown (by rw [hbody]; rfl)]
    | pointer hbody _ _ => rw [hown (by rw [hbody]; rfl)]
    | subroutine _ hflags =>
        rw [tkind_of_flags hflags]
        rfl
    | array _ hflags _ =>
        rw [tkind_of_flags hflags]
        rfl
    | aggr hbody _ => rw [hown (by rw [hbody]; rfl)]
  rw [end_kind h ht hrow hk ht', hsame]
  constructor
  · intro hsupported
    exact ⟨k, hrow, hsupported⟩
  · rintro ⟨k', hrow', hsupported⟩
    cases hrow.symm.trans hrow'
    exact hsupported

/-- Without the kind of the type at the end, a qualified type has none or that of a typedef. -/
theorem unknown_kind (h : alterTypes g.members g.rows = some rows') (ht : t ∈ g.dies)
    (hrow : t.row = some k) (hk : k.kind ≠ 0) (hchain : NameChain g t o)
    (hunknown : ¬ KindKnown g o t) (hq' : typeAt rows' o = some q') :
    tkind q' = .none ∨ tkind q' = .alias := by
  rcases item_kind h hq' with ⟨b, hb, hkind⟩ | ⟨_, hzero⟩
  · rcases TypeGraph.kindFrom_chain hb ht hrow hk hchain with rfl | halias
    · exact absurd ⟨b, hb, TypeGraph.row_offset hrow⟩ hunknown
    · have hsame : tkind q' = tkind b := tkind_congr hkind
      right
      rw [hsame, tkind, typeRow, halias]
      rfl
  · left
    have hflags : (typeRow q').flags % 0x10000 = 0 := hzero
    rw [tkind, TypeRow.kind, hflags]
    rfl

/-! ## The values of a chain -/

theorem same_row_iff (h : alterTypes g.members g.rows = some rows') (ht : t ∈ g.dies)
    (hrow : t.row = some k) (hend : t.body.named = none)
    (hpointer : ∀ size type, t.body = .custom .pointer size type → size = 8)
    (hchain : NameChain g t o) (hq : Typedefs g o q) :
    SameValue g rows' o t.offset ↔ (q.offset = t.offset ∨
      (KindKnown g q.offset t ∧ AlikeBehind g t) ∨
      (¬ KindKnown g q.offset t ∧ ¬ Supported t)) := by
  obtain ⟨hk, hplain⟩ := TypeGraph.end_row h ht hrow hend
  have hmem := TypeGraph.mem_of_row ht hrow
  have hoffset := TypeGraph.row_offset hrow
  have hself : Typedefs g t.offset k := hoffset ▸ .ends hmem hplain
  obtain ⟨hqmem, hqchain, hqplain⟩ := TypeGraph.nameChain_typedefs ht hrow hplain hq hchain
  obtain ⟨t', ht', _⟩ := TypeGraph.final_row h hmem
  obtain ⟨q', hq', _⟩ := TypeGraph.final_row h hqmem
  rw [sameValue_typedefs h hq hq' hself ht']
  rw [hoffset] at ht'
  rcases TypeGraph.nameChain_row hqchain hqmem with heq | ⟨_, hflags⟩
  · rw [heq, ht'] at hq'
    cases hq'
    exact iff_of_true (fun _ _ => rfl) (.inl heq)
  · have hzero : q.kind = 0 := hflags.resolve_left hqplain
    have hne : q.offset ≠ t.offset := by
      intro heq
      obtain rfl : q = k :=
        List.inj_on_of_nodup_map TypeGraph.rows_nodup hqmem hmem (heq.trans hoffset.symm)
      exact hk hzero
    by_cases hknown : KindKnown g q.offset t
    · obtain ⟨b, hb, hboffset⟩ := id hknown
      obtain rfl : b = k := List.inj_on_of_nodup_map TypeGraph.rows_nodup
        (TypeGraph.kindFrom_row hb).1 hmem (hboffset.trans hoffset.symm)
      obtain ⟨item, hqual⟩ := qualified h ht hrow hk ht' hqmem hzero hq' hb
      rw [alike_iff h ht hrow hk hend hpointer ht' hqual]
      simp [hne, hknown]
    · rw [unsupported_same_iff (unknown_kind h ht hrow hk hqchain hknown hq'),
        supported_iff h ht hrow hk hend ht']
      simp [hne, hknown]

/-- **Aliases and qualifiers are transparent** for the value of a variable if and only if
typedefs alone lead to the type at the end of the chain, or to a qualified type that has
come to its kind and loses nothing of the value; where it has not, if values of the type
are not supported. -/
theorem same_value_iff (h : alterTypes g.members g.rows = some rows') (ht : t ∈ g.dies)
    (hrow : t.row ≠ none) (hend : t.body.named = none)
    (hpointer : ∀ size type, t.body = .custom .pointer size type → size = 8)
    (hchain : NameChain g t o) : SameValue g rows' o t.offset ↔ Transparent g o t := by
  obtain ⟨k, hk⟩ := Option.ne_none_iff_exists'.mp hrow
  constructor
  · intro hsame
    have hplain := (TypeGraph.end_row h ht hk hend).2
    obtain ⟨q, hq⟩ := TypeGraph.typedefs_exists ht hk hplain hchain
    exact ⟨q, hq, (same_row_iff h ht hk hend hpointer hchain hq).mp hsame⟩
  · rintro ⟨q, hq, htransparent⟩
    exact (same_row_iff h ht hk hend hpointer hchain hq).mpr htransparent

end

/-- `int`, `const int` and a typedef of it. -/
def typedefConst : TypeGraph where
  dies := [⟨1, "int", .base 4 .signed⟩, ⟨2, none, .custom .const 0 (some 1)⟩,
    ⟨3, "word", .custom .typedef 0 (some 2)⟩]
  offsets := by decide
  nonzero := by decide
  sizes := by simp

theorem same_value_iff_typedefConst : ∃ rows',
    alterTypes typedefConst.members typedefConst.rows = some rows' ∧
      SameValue typedefConst rows' 3 1 := by
  refine ⟨_, rfl, (same_value_iff (t := ⟨1, "int", .base 4 .signed⟩) rfl (by decide) nofun rfl
    nofun ?_).mpr ?_⟩
  · exact .names (d := ⟨3, "word", .custom .typedef 0 (some 2)⟩) (by decide) rfl
      (.names (d := ⟨2, none, .custom .const 0 (some 1)⟩) (by decide) rfl .ends)
  · have hint : KindFrom typedefConst 1 (procBaseType 1 "int" 4 .signed) :=
      KindFrom.own (g := typedefConst) (r := procBaseType 1 "int" 4 .signed) (by decide) (by decide)
    have hconst : KindFrom typedefConst 2 (procBaseType 1 "int" 4 .signed) :=
      KindFrom.parent (g := typedefConst) (r := ⟨2, "", some 0, 0, 1, 0x10000, 0⟩) (by decide) rfl
        rfl (.inl (by decide)) hint
    have hends : Typedefs typedefConst 2 ⟨2, "", some 0, 0, 1, 0x10000, 0⟩ :=
      Typedefs.ends (g := typedefConst) (r := ⟨2, "", some 0, 0, 1, 0x10000, 0⟩) (by decide)
        (by decide)
    refine ⟨⟨2, "", some 0, 0, 1, 0x10000, 0⟩, ?_, .inr (.inl ⟨⟨_, hconst, rfl⟩, trivial⟩)⟩
    exact Typedefs.typedef (g := typedefConst) (r := ⟨3, "word", some 0, 0, 2, tkindAlias, 0⟩)
      (by decide) rfl hends

/-- `int`, a typedef of it, and the typedef with `const`. -/
def constTypedef : TypeGraph where
  dies := [⟨1, "int", .base 4 .signed⟩, ⟨2, "word", .custom .typedef 0 (some 1)⟩,
    ⟨3, none, .custom .const 0 (some 2)⟩]
  offsets := by decide
  nonzero := by decide
  sizes := by simp

/-- A variable of type `const word` is not shown. -/
theorem constTypedef_unsupported : ∃ rows',
    alterTypes constTypedef.members constTypedef.rows = some rows' ∧
      NameChain constTypedef ⟨1, "int", .base 4 .signed⟩ 3 ∧
      shownValues (addVarEntry rows' constTypedef.members (storing 0 []) 0 3 0) =
        some (some [.unsupported]) ∧
      shownValues (addVarEntry rows' constTypedef.members (storing 0 []) 0 1 0) =
        some (some [.number 0 none]) ∧
      ¬ SameValue constTypedef rows' 3 1 := by
  refine ⟨_, rfl, ?_, rfl, rfl, fun hsame => ?_⟩
  · exact .names (d := ⟨3, none, .custom .const 0 (some 2)⟩) (by decide) rfl
      (.names (d := ⟨2, "word", .custom .typedef 0 (some 1)⟩) (by decide) rfl .ends)
  · cases hsame (storing 0 []) 0

end FlightRec.Entries
