/-
# `FlightRec.Lib.Query` — the list form of a few relational operations

Tables are lists of rows in insertion order.  `orderBy` and `orderByDesc` are
`ORDER BY key` and `ORDER BY key DESC`; taking the `head?` of either is
`LIMIT 1`; `latestPerGroup` is `GROUP BY group HAVING key = MAX(key)`, and
`maxPerGroup` is `SELECT MAX(key) … GROUP BY group`.

What a user of a query needs is what the rows it returns are, not how they were
sorted.  `orderBy_filter_cases` and `orderByDesc_filter_cases` say what the first
row of a query is, and that there is none only if no row qualifies.  Where keys may
be equal, `AnswersDesc` leaves open which of these rows comes first.
-/
import Mathlib.Data.List.Basic
import Mathlib.Data.List.Sort
import Mathlib.Data.List.Dedup
import Mathlib.Data.List.MinMax

namespace FlightRec.Query

variable {α κ : Type*} [LinearOrder κ]

/-! ## ORDER BY -/

/-- `ORDER BY key`. -/
def orderBy (key : α → κ) (rows : List α) : List α :=
  rows.insertionSort (fun r r' => key r ≤ key r')

/-- `ORDER BY key DESC`. -/
def orderByDesc (key : α → κ) (rows : List α) : List α :=
  rows.insertionSort (fun r r' => key r' ≤ key r)

section
variable {key : α → κ} {rows : List α} {r : α}

@[simp] theorem mem_orderBy : r ∈ orderBy key rows ↔ r ∈ rows :=
  (List.perm_insertionSort _ rows).mem_iff

@[simp] theorem mem_orderByDesc : r ∈ orderByDesc key rows ↔ r ∈ rows :=
  (List.perm_insertionSort _ rows).mem_iff

theorem orderBy_pairwise (key : α → κ) (rows : List α) :
    (orderBy key rows).Pairwise (fun r r' => key r ≤ key r') :=
  have : Std.Total (fun r r' : α => key r ≤ key r') := ⟨fun _ _ => le_total _ _⟩
  have : IsTrans α (fun r r' => key r ≤ key r') := ⟨fun _ _ _ => le_trans⟩
  List.pairwise_insertionSort _ rows

theorem orderByDesc_eq (key : α → κ) (rows : List α) :
    orderByDesc key rows = orderBy (fun r => OrderDual.toDual (key r)) rows := rfl

theorem orderByDesc_pairwise (key : α → κ) (rows : List α) :
    (orderByDesc key rows).Pairwise (fun r r' => key r' ≤ key r) :=
  orderBy_pairwise (fun r => OrderDual.toDual (key r)) rows

theorem head_of_pairwise {R : α → α → Prop} :
    ∀ {l : List α}, l.Pairwise R → l.head? = some r → r ∈ l ∧ ∀ x ∈ l, x = r ∨ R r x
  | [], _, h => by cases h
  | y :: l, hp, h => by
      cases Option.some.inj h
      refine ⟨by simp, fun x hx => ?_⟩
      rcases List.mem_cons.mp hx with rfl | hx
      · exact Or.inl rfl
      · exact Or.inr ((List.pairwise_cons.mp hp).1 x hx)

theorem orderBy_head (h : (orderBy key rows).head? = some r) :
    r ∈ rows ∧ ∀ x ∈ rows, key r ≤ key x := by
  obtain ⟨hr, least⟩ := head_of_pairwise (orderBy_pairwise key rows) h
  refine ⟨mem_orderBy.mp hr, fun x hx => ?_⟩
  rcases least x (mem_orderBy.mpr hx) with rfl | hle
  · exact le_refl _
  · exact hle

theorem orderByDesc_head (h : (orderByDesc key rows).head? = some r) :
    r ∈ rows ∧ ∀ x ∈ rows, key x ≤ key r := by
  rw [orderByDesc_eq] at h
  exact orderBy_head h

theorem orderBy_head_none (h : (orderBy key rows).head? = none) : ∀ r, r ∉ rows := by
  intro r hr
  have : r ∈ orderBy key rows := mem_orderBy.mpr hr
  rw [List.head?_eq_none_iff.mp h] at this
  cases this

theorem orderByDesc_head_none (h : (orderByDesc key rows).head? = none) : ∀ r, r ∉ rows := by
  rw [orderByDesc_eq] at h
  exact orderBy_head_none h

theorem orderBy_filter_cases (key : α → κ) (p : α → Bool) (rows : List α) :
    (∃ r ∈ rows, p r = true ∧ (∀ x ∈ rows, p x = true → key r ≤ key x) ∧
        (orderBy key (rows.filter p)).head? = some r) ∨
      ((∀ x ∈ rows, p x = false) ∧ (orderBy key (rows.filter p)).head? = none) := by
  cases h : (orderBy key (rows.filter p)).head? with
  | some r =>
      obtain ⟨hr, least⟩ := orderBy_head h
      obtain ⟨hrows, hp⟩ := List.mem_filter.mp hr
      exact Or.inl ⟨r, hrows, hp, fun x hx hpx => least x (List.mem_filter.mpr ⟨hx, hpx⟩), rfl⟩
  | none =>
      refine Or.inr ⟨fun x hx => ?_, rfl⟩
      by_contra hp
      exact orderBy_head_none h x (List.mem_filter.mpr ⟨hx, by simpa using hp⟩)

theorem orderByDesc_filter_cases (key : α → κ) (p : α → Bool) (rows : List α) :
    (∃ r ∈ rows, p r = true ∧ (∀ x ∈ rows, p x = true → key x ≤ key r) ∧
        (orderByDesc key (rows.filter p)).head? = some r) ∨
      ((∀ x ∈ rows, p x = false) ∧ (orderByDesc key (rows.filter p)).head? = none) :=
  orderBy_filter_cases (fun r => OrderDual.toDual (key r)) p rows

theorem filter_head_cases (p : α → Bool) (rows : List α) :
    (∃ r ∈ rows, p r = true ∧ (rows.filter p).head? = some r) ∨
      ((∀ x ∈ rows, p x = false) ∧ (rows.filter p).head? = none) := by
  cases h : (rows.filter p).head? with
  | some r =>
      obtain ⟨hrows, hp⟩ := List.mem_filter.mp (List.mem_of_head? h)
      exact Or.inl ⟨r, hrows, hp, rfl⟩
  | none =>
      refine Or.inr ⟨fun x hx => ?_, rfl⟩
      by_contra hp
      have hmem : x ∈ rows.filter p := List.mem_filter.mpr ⟨hx, by simpa using hp⟩
      rw [List.head?_eq_none_iff.mp h] at hmem
      cases hmem

theorem orderBy_strict (h : (rows.map key).Nodup) :
    (orderBy key rows).Pairwise (fun r r' => key r < key r') := by
  have distinct : (orderBy key rows).Pairwise (fun r r' => key r ≠ key r') := by
    rw [← List.pairwise_map (f := key) (R := (· ≠ ·))]
    exact (((List.perm_insertionSort _ rows).map key).nodup_iff).mpr h
  exact ((orderBy_pairwise key rows).and distinct).imp fun h => lt_of_le_of_ne h.1 h.2

theorem orderByDesc_strict (h : (rows.map key).Nodup) :
    (orderByDesc key rows).Pairwise (fun r r' => key r' < key r) := by
  have hdual : (rows.map fun r => OrderDual.toDual (key r)).Nodup := h
  exact orderBy_strict hdual

end

/-! ## Ties -/

section
variable {key : α → κ} {rows out : List α} {r : α}

/-- What `ORDER BY key DESC` can return: the order of equal keys is left open. -/
structure AnswersDesc (key : α → κ) (rows out : List α) : Prop where
  perm : out.Perm rows
  sorted : out.Pairwise fun r r' => key r' ≤ key r

theorem orderByDesc_answers (key : α → κ) (rows : List α) :
    AnswersDesc key rows (orderByDesc key rows) :=
  ⟨List.perm_insertionSort _ rows, orderByDesc_pairwise key rows⟩

theorem exists_answersDesc (hr : r ∈ rows) (greatest : ∀ x ∈ rows, key x ≤ key r) :
    ∃ rest, AnswersDesc key rows (r :: rest) := by
  obtain ⟨before, after, rfl⟩ := List.append_of_mem hr
  refine ⟨orderByDesc key (before ++ after), ?_, ?_⟩
  · exact ((List.perm_insertionSort _ _).cons r).trans List.perm_middle.symm
  · refine List.pairwise_cons.mpr ⟨fun x hx => ?_, orderByDesc_pairwise key _⟩
    refine greatest x ?_
    rcases List.mem_append.mp (mem_orderByDesc.mp hx) with hx | hx
    · exact List.mem_append_left _ hx
    · exact List.mem_append_right _ (List.mem_cons_of_mem _ hx)

theorem forall_answersDesc_head_iff {P : Option α → Prop} :
    (∀ out, AnswersDesc key rows out → P out.head?) ↔
      (rows = [] → P none) ∧ ∀ r ∈ rows, (∀ x ∈ rows, key x ≤ key r) → P (some r) := by
  constructor
  · intro h
    refine ⟨fun hnil => ?_, fun r hr greatest => ?_⟩
    · exact h [] ⟨hnil ▸ List.Perm.refl _, List.Pairwise.nil⟩
    · obtain ⟨rest, hrest⟩ := exists_answersDesc hr greatest
      exact h _ hrest
  · rintro ⟨hnone, hsome⟩ out ⟨perm, sorted⟩
    cases hout : out.head? with
    | none =>
        rw [List.head?_eq_none_iff] at hout
        exact hnone (List.nil_perm.mp (hout ▸ perm))
    | some r =>
        obtain ⟨hr, greatest⟩ := head_of_pairwise sorted hout
        refine hsome r (perm.mem_iff.mp hr) fun x hx => ?_
        rcases greatest x (perm.mem_iff.mpr hx) with rfl | hle
        · exact le_refl _
        · exact hle

end

section
variable {key : α → κ} {rows : List α}

/-- What `ORDER BY key` can return. -/
def Answers (key : α → κ) : List α → List α → Prop :=
  AnswersDesc fun r => OrderDual.toDual (key r)

theorem orderBy_answers (key : α → κ) (rows : List α) : Answers key rows (orderBy key rows) :=
  ⟨List.perm_insertionSort _ rows, orderBy_pairwise key rows⟩

/-- What holds of the first row of all answers holds of the rows of least key. -/
theorem forall_answers_head_iff {P : Option α → Prop} :
    (∀ out, Answers key rows out → P out.head?) ↔
      (rows = [] → P none) ∧ ∀ r ∈ rows, (∀ x ∈ rows, key r ≤ key x) → P (some r) :=
  forall_answersDesc_head_iff

end

/-! ## JOIN -/

section
variable {β : Type*} {on : α → β → Bool} {rows : List α} {others : List β} {r : α}

/-- The columns of one table in a join: a row is there once for each partner it has. -/
def joinLeft (on : α → β → Bool) (rows : List α) (others : List β) : List α :=
  rows.flatMap fun r => (others.filter (on r)).map fun _ => r

theorem mem_joinLeft : r ∈ joinLeft on rows others ↔ r ∈ rows ∧ ∃ x ∈ others, on r x = true := by
  simp only [joinLeft, List.mem_flatMap, List.mem_map, List.mem_filter]
  constructor
  · rintro ⟨r', hr', x, hx, rfl⟩
    exact ⟨hr', x, hx⟩
  · rintro ⟨hr, x, hx⟩
    exact ⟨r, hr, x, hx, rfl⟩

theorem joinLeft_filter (p : α → Bool) :
    (joinLeft on rows others).filter p = joinLeft on (rows.filter p) others := by
  unfold joinLeft
  induction rows with
  | nil => rfl
  | cons r rows ih =>
      rw [List.flatMap_cons, List.filter_append, ih, List.map_const', List.filter_replicate,
        List.filter_cons]
      split
      · rw [List.flatMap_cons, List.map_const']
      · rw [List.nil_append]

/-- No row is there twice exactly if none has two partners. -/
theorem joinLeft_nodup (h : rows.Nodup) :
    (joinLeft on rows others).Nodup ↔ ∀ r ∈ rows, (others.filter (on r)).length ≤ 1 := by
  unfold joinLeft
  simp only [List.map_const', List.nodup_flatMap, List.nodup_replicate]
  refine and_iff_left (h.imp fun {a b} hab x ha hb => hab ?_)
  exact (List.eq_of_mem_replicate ha).symm.trans (List.eq_of_mem_replicate hb)

end

/-! ## GROUP BY -/

variable {β : Type*} [DecidableEq β]

omit [LinearOrder κ] in
theorem groups_perm {group : α → β} {keys : List β} (nodup : keys.Nodup) : ∀ {rows : List α},
    (∀ r ∈ rows, group r ∈ keys) →
      (keys.flatMap fun k => rows.filter fun r => group r = k).Perm rows := by
  induction keys with
  | nil =>
      intro rows cover
      have hnil : rows = [] := List.eq_nil_iff_forall_not_mem.mpr fun r hr => by cases cover r hr
      rw [hnil]
      exact List.Perm.nil
  | cons k keys ih =>
      intro rows cover
      obtain ⟨hk, hkeys⟩ := List.nodup_cons.mp nodup
      -- the groups of the other keys are those of the other rows
      have hrest : (keys.flatMap fun k => rows.filter fun r => group r = k) =
          keys.flatMap fun k' => (rows.filter fun r => !decide (group r = k)).filter
            fun r => group r = k' := by
        refine List.flatMap_congr fun k' hk' => ?_
        rw [List.filter_filter]
        refine List.filter_congr fun r _ => ?_
        rcases eq_or_ne (group r) k' with rfl | hne
        · have hne : group r ≠ k := fun heq => hk (heq ▸ hk')
          simp [hne]
        · simp [hne]
      have hperm := @ih hkeys (rows.filter fun r => !decide (group r = k)) fun r hr => by
        obtain ⟨hr, hne⟩ := List.mem_filter.mp hr
        rcases List.mem_cons.mp (cover r hr) with heq | hmem
        · simp [heq] at hne
        · exact hmem
      rw [List.flatMap_cons, hrest]
      exact (hperm.append_left _).trans (List.filter_append_perm _ rows)

/-! ## GROUP BY with MAX -/

/-- `SELECT MAX(key) … GROUP BY group`: one value for each group that occurs. -/
def maxPerGroup (group : α → β) (key : α → Nat) (rows : List α) : List Nat :=
  (rows.map group).dedup.map fun g =>
    ((rows.filter fun r => group r = g).map key).foldl max 0

/-- `GROUP BY group HAVING key = MAX(key)`: one row of every group, of greatest key. -/
def latestPerGroup (group : α → β) (key : α → Nat) (rows : List α) : List α :=
  (rows.map group).dedup.filterMap fun g => (rows.filter fun r => group r = g).argmax key

section
variable {group : α → β} {key : α → Nat} {rows : List α} {r : α}

theorem le_foldl_max {l : List Nat} : ∀ {a x : Nat}, (x = a ∨ x ∈ l) → x ≤ l.foldl max a := by
  induction l with
  | nil =>
      intro a x h
      rcases h with rfl | h
      · exact Nat.le_refl _
      · cases h
  | cons y l ih =>
      intro a x h
      simp only [List.foldl_cons]
      rcases h with rfl | h
      · exact Nat.le_trans (Nat.le_max_left x y) (ih (Or.inl rfl))
      · rcases List.mem_cons.mp h with rfl | h
        · exact Nat.le_trans (Nat.le_max_right a x) (ih (Or.inl rfl))
        · exact ih (Or.inr h)

theorem foldl_max_mem {l : List Nat} : ∀ {a : Nat}, l.foldl max a = a ∨ l.foldl max a ∈ l := by
  induction l with
  | nil => intro a; exact Or.inl rfl
  | cons y l ih =>
      intro a
      simp only [List.foldl_cons, List.mem_cons]
      rcases ih (a := max a y) with h | h
      · rw [h]
        rcases Nat.le_total a y with hay | hya
        · exact Or.inr (Or.inl (Nat.max_eq_right hay))
        · exact Or.inl (Nat.max_eq_left hya)
      · exact Or.inr (Or.inr h)

theorem mem_maxPerGroup {m : Nat} (pos : ∀ r ∈ rows, 0 < key r) :
    m ∈ maxPerGroup group key rows ↔
      ∃ r ∈ rows, key r = m ∧ ∀ r' ∈ rows, group r' = group r → key r' ≤ key r := by
  have bound : ∀ (g : β) (x : α), x ∈ rows → group x = g →
      key x ≤ ((rows.filter fun r => group r = g).map key).foldl max 0 := fun g x hx hg =>
    le_foldl_max (Or.inr (List.mem_map.mpr ⟨x, List.mem_filter.mpr ⟨hx, by simpa using hg⟩, rfl⟩))
  simp only [maxPerGroup, List.mem_map, List.mem_dedup]
  constructor
  · rintro ⟨_, ⟨x, hx, rfl⟩, rfl⟩
    rcases foldl_max_mem (l := (rows.filter fun r => group r = group x).map key) (a := 0)
      with h0 | hmem
    · have := bound (group x) x hx rfl
      have := pos x hx
      omega
    · obtain ⟨r, hr, hkey⟩ := List.mem_map.mp hmem
      obtain ⟨hrows, hgroup⟩ := List.mem_filter.mp hr
      have hgroup : group r = group x := by simpa using hgroup
      exact ⟨r, hrows, hkey, fun r' hr' hg => hkey ▸ bound _ r' hr' (hg.trans hgroup)⟩
  · rintro ⟨r, hr, rfl, greatest⟩
    refine ⟨group r, ⟨r, hr, rfl⟩, ?_⟩
    refine Nat.le_antisymm ?_ (bound (group r) r hr rfl)
    rcases foldl_max_mem (l := (rows.filter fun x => group x = group r).map key) (a := 0)
      with h0 | hmem
    · omega
    · obtain ⟨x, hx, hkey⟩ := List.mem_map.mp hmem
      obtain ⟨hrows, hgroup⟩ := List.mem_filter.mp hx
      exact hkey ▸ greatest x hrows (by simpa using hgroup)

theorem mem_latestPerGroup (h : r ∈ latestPerGroup group key rows) :
    r ∈ rows ∧ ∀ r' ∈ rows, group r' = group r → key r' ≤ key r := by
  obtain ⟨g, _, hg⟩ := List.mem_filterMap.mp h
  obtain ⟨hr, hgroup⟩ := List.mem_filter.mp (List.argmax_mem hg)
  have hgroup : group r = g := by simpa using hgroup
  refine ⟨hr, fun r' hr' hsame => ?_⟩
  exact List.le_of_mem_argmax
    (List.mem_filter.mpr ⟨hr', by simpa using hsame.trans hgroup⟩) hg

/-- The row of a group is the first of greatest key. -/
theorem argmax_of_latestPerGroup (h : r ∈ latestPerGroup group key rows) :
    (rows.filter fun r' => group r' = group r).argmax key = some r := by
  obtain ⟨g, _, hg⟩ := List.mem_filterMap.mp h
  have hgroup : group r = g := by simpa using (List.mem_filter.mp (List.argmax_mem hg)).2
  rwa [hgroup]

theorem exists_latestPerGroup (h : r ∈ rows) :
    ∃ r' ∈ latestPerGroup group key rows, group r' = group r := by
  have hmem : r ∈ rows.filter fun r' => group r' = group r :=
    List.mem_filter.mpr ⟨h, by simp⟩
  cases hmax : (rows.filter fun r' => group r' = group r).argmax key with
  | none =>
      rw [List.argmax_eq_none.mp hmax] at hmem
      cases hmem
  | some m =>
      obtain ⟨_, hgroup⟩ := List.mem_filter.mp (List.argmax_mem hmax)
      refine ⟨m, List.mem_filterMap.mpr ⟨group r, ?_, hmax⟩, by simpa using hgroup⟩
      exact List.mem_dedup.mpr (List.mem_map.mpr ⟨r, h, rfl⟩)

theorem latestPerGroup_nodup : ((latestPerGroup group key rows).map group).Nodup := by
  have sub : ∀ gs : List β, ((gs.filterMap fun g =>
      (rows.filter fun r => group r = g).argmax key).map group).Sublist gs := by
    intro gs
    induction gs with
    | nil => exact List.Sublist.refl []
    | cons g gs ih =>
        rw [List.filterMap_cons]
        cases hmax : (rows.filter fun r => group r = g).argmax key with
        | none => exact ih.cons g
        | some m =>
            obtain ⟨_, hgroup⟩ := List.mem_filter.mp (List.argmax_mem hmax)
            have hgroup : group m = g := by simpa using hgroup
            rw [List.map_cons, hgroup]
            exact ih.cons_cons g
  exact (List.nodup_dedup _).sublist (sub _)

end

end FlightRec.Query
