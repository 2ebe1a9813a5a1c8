/-
# `FlightRec.Record.FindPage` — the page of an address, with the integers of C

`find_page` (record/memcache.c) searches the sorted array of regions.  The bounds and the
midpoint are `int`s, though the number of regions is unsigned, and so is the number of the
page in its region.  While there are fewer than 2³⁰ regions the sum of two bounds is an
`int`, and the search is the one on natural numbers (`pageSearch_eq`).  From 2³⁰ regions
on it is not: the address behind the last region is searched for with a sum that overflows,
and from 2³¹ regions on the search begins with a negative bound (`findsPages_iff`).

A sum that overflows is undefined in C; it ends the search here.
-/
import FlightRec.Lib.Words
import FlightRec.Record.MemCache

namespace FlightRec

/-- A pointer into the copy of a region: its index in the array, and an offset. -/
structure CachedPage where
  region : Nat
  offset : Nat
  deriving DecidableEq, Repr

/-- How `find_page` can end other than by returning; `running` if it has not ended after
the given number of probes. -/
inductive PageStop where
  | outside
  | overflow
  | running
  deriving DecidableEq, Repr

/-- `left`, `right` and `index`. -/
structure PageBounds where
  left : Int
  right : Int
  index : Int
  deriving DecidableEq, Repr

/-- `cache[index]`, if there is such an element. -/
def readRegion (cache : List Region) (index : Int) : Option Region :=
  if index < 0 then none else cache[index.toNat]?

/-- `(left + right) / 2`, if the sum is an `int`. -/
def midpoint (left right : Int) : Option Int :=
  if -2 ^ 31 ≤ left + right ∧ left + right < 2 ^ 31 then some ((left + right).tdiv 2) else none

/-- The loop of `find_page`. -/
def pageSearch (cache : List Region) (address : Nat) : Nat → PageBounds →
    Except PageStop PageBounds
  | 0, _ => .error .running
  | probes + 1, b =>
      if b.left < b.right then
        match readRegion cache b.index with
        | none => .error .outside
        | some region =>
            if address < region.start then
              match midpoint b.left b.index with
              | none => .error .overflow
              | some index => pageSearch cache address probes ⟨b.left, b.index, index⟩
            else if region.stop ≤ address then
              match midpoint (b.index + 1) b.right with
              | none => .error .overflow
              | some index => pageSearch cache address probes ⟨b.index + 1, b.right, index⟩
            else .ok b
      else .ok b

/-- What `find_page` returns and stores for an address of the region. -/
def pageOf (region : Region) (index address : Nat) : Nat × CachedPage :=
  let pageNum := toInt (toUInt64 ((address : Int) - region.start) / pageSize)
  let offset := toUInt64 (pageNum * pageSize)
  ((region.start + offset) % 2 ^ 64, ⟨index, offset⟩)

theorem pageOf_region (region : Region) (index address : Nat) :
    (pageOf region index address).2.region = index := rfl

/-- The end of `find_page`, behind the loop. -/
def pageResult (cache : List Region) (address : Nat) (cached : CachedPage) (b : PageBounds) :
    Except PageStop (Nat × CachedPage) :=
  if b.left = b.right then .ok (0, cached)
  else
    match readRegion cache b.index with
    | none => .error .outside
    | some region => .ok (pageOf region b.index.toNat address)

/-- `find_page`, with what `cached` points to: what is returned, and what is stored there
by then. -/
def findPageInt (probes : Nat) (cache : List Region) (address : Nat) (cached : CachedPage) :
    Except PageStop (Nat × CachedPage) := do
  let right := toInt cache.length
  let b ← pageSearch cache address probes ⟨0, right, right.tdiv 2⟩
  pageResult cache address cached b

/-! ## What it is for -/

/-- A sorted array of regions with a counter that has its length. -/
structure PageRegions (cache : List Region) : Prop where
  separated : Intervals.Separated Region.start Region.stop cache
  aligned : ∀ r ∈ cache, r.start % pageSize = 0 ∧ 0 < r.start
  pages : ∀ r ∈ cache, r.stop - r.start < 2 ^ 31 * pageSize
  word : ∀ r ∈ cache, r.stop < 2 ^ 64
  counted : cache.length < 2 ^ 32

/-- Specification of what is returned and stored. -/
structure PageFound (cache : List Region) (address : Nat) (cached : CachedPage) (page : Nat)
    (cached' : CachedPage) : Prop where
  hit : ∀ i region, cache[i]? = some region → region.start ≤ address → address < region.stop →
    0 < page ∧ page = address / pageSize * pageSize ∧ cached' = ⟨i, page - region.start⟩
  miss : (∀ region ∈ cache, ¬ (region.start ≤ address ∧ address < region.stop)) →
    page = 0 ∧ cached' = cached

/-- The search ends for every address, with what it should return. -/
def FindsPages (cache : List Region) : Prop :=
  ∀ address < 2 ^ 64, ∀ cached, ∃ probes page cached',
    findPageInt probes cache address cached = .ok (page, cached') ∧
      PageFound cache address cached page cached'

/-! ## Fewer than 2³⁰ regions -/

@[simp] theorem readRegion_natCast (cache : List Region) (i : Nat) :
    readRegion cache (i : Int) = cache[i]? := by
  rw [readRegion, if_neg (by omega), Int.toNat_natCast]

theorem midpoint_natCast {left right : Nat} (h : left + right < 2 ^ 31) :
    midpoint left right = some (((left + right) / 2 : Nat) : Int) := by
  rw [midpoint, if_pos (by omega), Int.tdiv_eq_ediv_of_nonneg (by omega)]
  rfl

theorem midpoint_overflow {left right : Nat} (h : 2 ^ 31 ≤ left + right) :
    midpoint left right = none := by
  rw [midpoint, if_neg]
  rintro ⟨-, hlt⟩
  omega

theorem pageSearch_eq {cache : List Region} (address : Nat) (hfew : cache.length < 2 ^ 30)
    (left right : Nat) : left ≤ right → right ≤ cache.length → ∀ probes, right - left < probes →
    ∃ b, pageSearch cache address probes ⟨left, right, ((left + right) / 2 : Nat)⟩ = .ok b ∧
      match Intervals.search Region.start Region.stop cache address left right with
      | some i => b.left < b.right ∧ b.index = i
      | none => b.left = b.right := by
  fun_induction Intervals.search Region.start Region.stop cache address left right with
  | case1 left right hlt hnone =>
      intro _ hright
      have := List.getElem?_eq_none_iff.mp hnone
      omega
  | case2 left right hlt region hget hlow ih =>
      intro hle hright probes hprobes
      obtain ⟨probes, rfl⟩ := Nat.exists_eq_succ_of_ne_zero (Nat.ne_zero_of_lt hprobes)
      obtain ⟨b, hloop, hb⟩ := ih (by omega) (by omega) probes (by omega)
      refine ⟨b, ?_, hb⟩
      rw [pageSearch, if_pos (Int.ofNat_lt.mpr hlt), readRegion_natCast, hget]
      dsimp only
      rw [if_pos hlow, midpoint_natCast (by omega)]
      exact hloop
  | case3 left right hlt region hget hlow hhigh ih =>
      intro hle hright probes hprobes
      obtain ⟨probes, rfl⟩ := Nat.exists_eq_succ_of_ne_zero (Nat.ne_zero_of_lt hprobes)
      obtain ⟨b, hloop, hb⟩ := ih (by omega) hright probes (by omega)
      refine ⟨b, ?_, hb⟩
      rw [pageSearch, if_pos (Int.ofNat_lt.mpr hlt), readRegion_natCast, hget]
      dsimp only
      rw [if_neg hlow, if_pos hhigh, ← Int.natCast_succ, midpoint_natCast (by omega)]
      exact hloop
  | case4 left right hlt region hget hlow hhigh =>
      intro hle hright probes hprobes
      obtain ⟨probes, rfl⟩ := Nat.exists_eq_succ_of_ne_zero (Nat.ne_zero_of_lt hprobes)
      refine ⟨⟨left, right, ((left + right) / 2 : Nat)⟩, ?_, Int.ofNat_lt.mpr hlt, rfl⟩
      rw [pageSearch, if_pos (Int.ofNat_lt.mpr hlt), readRegion_natCast, hget]
      dsimp only
      rw [if_neg hlow, if_neg hhigh]
  | case5 left right hge =>
      intro hle hright probes hprobes
      obtain ⟨probes, rfl⟩ := Nat.exists_eq_succ_of_ne_zero (Nat.ne_zero_of_lt hprobes)
      have heq : left = right := Nat.le_antisymm hle (Nat.le_of_not_lt hge)
      refine ⟨⟨left, right, ((left + right) / 2 : Nat)⟩, ?_, by rw [heq]⟩
      rw [pageSearch, if_neg (Int.not_lt.mpr (Int.ofNat_le.mpr heq.ge))]

theorem toInt_length {n : Nat} (h : n < 2 ^ 31) :
    (⟨0, toInt n, (toInt n).tdiv 2⟩ : PageBounds) = ⟨(0 : Nat), n, ((0 + n) / 2 : Nat)⟩ := by
  rw [toInt_of_lt h, Int.tdiv_eq_ediv_of_nonneg (Int.natCast_nonneg n), Nat.zero_add]
  rfl

section
variable {cache : List Region} (h : PageRegions cache)
include h

theorem PageRegions.pageOf_eq {i address : Nat} {region : Region}
    (hget : cache[i]? = some region) (hlow : region.start ≤ address)
    (hhigh : address < region.stop) :
    pageOf region i address = (region.start + (address - region.start) / pageSize * pageSize,
      ⟨i, (address - region.start) / pageSize * pageSize⟩) := by
  have hmem := List.mem_of_getElem? hget
  have hpages := h.pages region hmem
  have hword := h.word region hmem
  unfold pageOf pageSize at *
  have hdistance : toUInt64 ((address : Int) - region.start) = address - region.start := by
    rw [toUInt64_of_lt (by omega) (by omega)]
    omega
  have hpage : toInt ((address - region.start) / 4096) =
      ((address - region.start) / 4096 : Nat) := toInt_of_lt (by omega)
  have hoffset : toUInt64 (((address - region.start) / 4096 : Nat) * (4096 : Nat)) =
      (address - region.start) / 4096 * 4096 := by
    rw [toUInt64_of_lt (by omega) (by omega)]
    omega
  dsimp only
  rw [hdistance, hpage, hoffset, Nat.mod_eq_of_lt (by omega)]

/-- With fewer than 2³⁰ regions `find_page` ends with what the search on natural numbers
finds, for every number of probes above that of the regions. -/
theorem PageRegions.findPageInt_eq (hfew : cache.length < 2 ^ 30) {address probes : Nat}
    (hprobes : cache.length < probes) (cached : CachedPage) :
    findPageInt probes cache address cached = .ok (match findPage cache address with
      | none => (0, cached)
      | some (i, pageNum) => ((cache[i]?.map (·.start)).getD 0 + pageNum * pageSize,
          ⟨i, pageNum * pageSize⟩)) := by
  obtain ⟨b, hloop, hb⟩ := pageSearch_eq address hfew 0 cache.length
    (Nat.zero_le _) le_rfl probes hprobes
  have hrun : findPageInt probes cache address cached = pageResult cache address cached b := by
    unfold findPageInt
    dsimp only
    rw [toInt_length (by omega), hloop]
    rfl
  rw [hrun, pageResult, findPage]
  cases hsearch : Intervals.search Region.start Region.stop cache address 0 cache.length with
  | none =>
      rw [hsearch] at hb
      rw [if_pos hb]
      rfl
  | some i =>
      rw [hsearch] at hb
      obtain ⟨hlt, hindex⟩ := hb
      obtain ⟨hi, hlow, hhigh⟩ := (Intervals.search_eq_some_iff h.separated).mp hsearch
      have hget : cache[i]? = some cache[i] := List.getElem?_eq_getElem hi
      rw [if_neg hlt.ne, hindex, readRegion_natCast]
      simp only [Option.bind_some, hget, Option.map_some, Option.getD_some]
      rw [Int.toNat_natCast, h.pageOf_eq hget hlow hhigh]

theorem PageRegions.page_eq {region : Region} (hmem : region ∈ cache) {address : Nat}
    (hlow : region.start ≤ address) :
    region.start + (address - region.start) / pageSize * pageSize =
      address / pageSize * pageSize ∧ 0 < address / pageSize * pageSize := by
  obtain ⟨haligned, hpos⟩ := h.aligned region hmem
  unfold pageSize at *
  omega

theorem PageRegions.finds (hfew : cache.length < 2 ^ 30) {address probes : Nat}
    (hprobes : cache.length < probes) (cached : CachedPage) :
    ∃ page cached', findPageInt probes cache address cached = .ok (page, cached') ∧
      PageFound cache address cached page cached' := by
  rw [h.findPageInt_eq hfew hprobes cached, findPage]
  cases hsearch : Intervals.search Region.start Region.stop cache address 0 cache.length with
  | none =>
      refine ⟨0, cached, rfl, fun i region hget hlow hhigh => ?_, fun _ => ⟨rfl, rfl⟩⟩
      obtain ⟨hi, rfl⟩ := List.getElem?_eq_some_iff.mp hget
      rw [(Intervals.search_eq_some_iff h.separated).mpr ⟨hi, hlow, hhigh⟩] at hsearch
      cases hsearch
  | some i =>
      obtain ⟨hi, hlow, hhigh⟩ := (Intervals.search_eq_some_iff h.separated).mp hsearch
      have hget : cache[i]? = some cache[i] := List.getElem?_eq_getElem hi
      obtain ⟨hpage, hpos⟩ := h.page_eq (List.getElem_mem hi) hlow
      simp only [Option.bind_some, hget, Option.map_some, Option.getD_some]
      refine ⟨_, _, rfl, fun j region hget' hlow' hhigh' => ?_, fun hmiss => ?_⟩
      · obtain ⟨hj, rfl⟩ := List.getElem?_eq_some_iff.mp hget'
        have hsame := (Intervals.search_eq_some_iff h.separated).mpr ⟨hj, hlow', hhigh'⟩
        rw [hsearch] at hsame
        cases hsame
        refine ⟨hpage.symm ▸ hpos, hpage, ?_⟩
        rw [Nat.add_sub_cancel_left]
      · exact absurd ⟨hlow, hhigh⟩ (hmiss _ (List.getElem_mem hi))

end

/-! ## From 2³⁰ regions on -/

theorem findPageInt_ok {probes address : Nat} {cache : List Region} {cached : CachedPage}
    {r : Nat × CachedPage} (h : findPageInt probes cache address cached = .ok r) :
    ∃ b, pageSearch cache address probes
        ⟨0, toInt cache.length, (toInt cache.length).tdiv 2⟩ = .ok b ∧
      pageResult cache address cached b = .ok r := by
  unfold findPageInt at h
  dsimp only at h
  cases hloop : pageSearch cache address probes
      ⟨0, toInt cache.length, (toInt cache.length).tdiv 2⟩ with
  | error stop =>
      rw [hloop] at h
      cases h
  | ok b =>
      rw [hloop] at h
      exact ⟨b, rfl, h⟩

/-- The search for an address behind the last region does not end well: the bounds come
together where their sum is no `int`. -/
theorem pageSearch_behind {cache : List Region} {address : Nat} (hmany : 2 ^ 30 ≤ cache.length)
    (hbehind : ∀ region ∈ cache, region.stop ≤ address) (nonempty : ∀ region ∈ cache,
      region.start < region.stop) : ∀ (probes left : Nat), left < cache.length →
    ∀ b, pageSearch cache address probes ⟨left, cache.length, ((left + cache.length) / 2 : Nat)⟩ ≠
      .ok b
  | 0, _, _, b => by
      intro hloop
      cases hloop
  | probes + 1, left, hleft, b => by
      intro hloop
      have hindex : (left + cache.length) / 2 < cache.length := by omega
      have hget : cache[(left + cache.length) / 2]? = some cache[(left + cache.length) / 2] :=
        List.getElem?_eq_getElem hindex
      have hmem := List.getElem_mem hindex
      have hstop := hbehind _ hmem
      have hstart := nonempty _ hmem
      rw [pageSearch, if_pos (Int.ofNat_lt.mpr hleft), readRegion_natCast, hget] at hloop
      dsimp only at hloop
      have hnext : (((left + cache.length) / 2 : Nat) : Int) + 1 =
          (((left + cache.length) / 2 + 1 : Nat) : Int) := rfl
      rw [if_neg (by omega), if_pos hstop, hnext] at hloop
      rcases Nat.lt_or_ge ((left + cache.length) / 2 + 1 + cache.length) (2 ^ 31) with hsum | hsum
      · rw [midpoint_natCast hsum] at hloop
        exact pageSearch_behind hmany hbehind nonempty probes _ (by omega) b hloop
      · rw [midpoint_overflow hsum] at hloop
        cases hloop

theorem toInt_neg {n : Nat} (hbig : 2 ^ 31 ≤ n) (hword : n < 2 ^ 32) : toInt n < 0 := by
  unfold toInt
  rw [Int.bmod_def]
  omega

theorem pageSearch_negative (cache : List Region) (address probes : Nat) {right : Int}
    (hneg : right < 0) : pageSearch cache address (probes + 1) ⟨0, right, right.tdiv 2⟩ =
      .ok ⟨0, right, right.tdiv 2⟩ := by
  rw [pageSearch, if_neg (Int.not_lt.mpr hneg.le)]

/-- Behind it `cached` is overwritten with the first region, or the array is left. -/
theorem pageResult_negative {cache : List Region} {address page : Nat} {right : Int}
    {cached cached' : CachedPage} (hneg : right < 0)
    (h : pageResult cache address cached ⟨0, right, right.tdiv 2⟩ = .ok (page, cached')) :
    cached'.region = 0 := by
  have hindex : right.tdiv 2 ≤ 0 := by
    rw [← Int.neg_neg right, Int.neg_tdiv, Int.tdiv_eq_ediv_of_nonneg (by omega)]
    omega
  unfold pageResult at h
  rw [if_neg hneg.ne'] at h
  split at h
  · cases h
  · next region _ =>
      have hregion := pageOf_region region (right.tdiv 2).toNat address
      rw [Except.ok.inj h] at hregion
      exact hregion.trans (Int.toNat_of_nonpos hindex)

theorem PageRegions.not_findsPages {cache : List Region} (h : PageRegions cache)
    (hmany : 2 ^ 30 ≤ cache.length) : ¬ FindsPages cache := by
  intro hfinds
  rcases Nat.lt_or_ge cache.length (2 ^ 31) with hint | hbig
  · obtain ⟨probes, page, cached', hrun, -⟩ := hfinds (2 ^ 64 - 1) (by omega) ⟨0, 0⟩
    have hbehind : ∀ region ∈ cache, region.stop ≤ 2 ^ 64 - 1 :=
      fun region hmem => Nat.le_pred_of_lt (h.word region hmem)
    obtain ⟨b, hloop, -⟩ := findPageInt_ok hrun
    rw [toInt_length hint] at hloop
    exact pageSearch_behind hmany hbehind h.separated.nonempty probes 0 (by omega) b hloop
  · obtain ⟨probes, page, cached', hrun, hfound⟩ := hfinds 0 (by omega) ⟨1, 0⟩
    obtain ⟨-, hcached⟩ := hfound.miss fun region hmem hin =>
      Nat.not_lt.mpr hin.1 (h.aligned region hmem).2
    obtain ⟨b, hloop, hresult⟩ := findPageInt_ok hrun
    have hneg := toInt_neg hbig h.counted
    cases probes with
    | zero => cases hloop
    | succ probes =>
        rw [pageSearch_negative cache 0 probes hneg] at hloop
        rw [← Except.ok.inj hloop] at hresult
        have hregion := pageResult_negative hneg hresult
        rw [hcached] at hregion
        cases hregion

/-- **Finding pages** works for every address exactly if there are fewer than 2³⁰ regions. -/
theorem findsPages_iff {cache : List Region} (h : PageRegions cache) :
    FindsPages cache ↔ cache.length < 2 ^ 30 := by
  constructor
  · intro hfinds
    by_contra hmany
    exact h.not_findsPages (Nat.le_of_not_lt hmany) hfinds
  · intro hfew address _ cached
    obtain ⟨page, cached', hrun, hfound⟩ := h.finds hfew (Nat.lt_succ_self _) cached
    exact ⟨_, page, cached', hrun, hfound⟩

/-! ### Examples -/

/-- A region of a page for each of the pages from 1 on. -/
def pageRegions (n : Nat) : List Region :=
  (List.range n).map fun i => ⟨pageSize * (i + 1), pageSize * (i + 2), fun _ => 0⟩

theorem pageRegions_ok {n : Nat} (hn : n < 2 ^ 32) : PageRegions (pageRegions n) := by
  have hmem {r : Region} (hr : r ∈ pageRegions n) :
      ∃ i < n, r = ⟨pageSize * (i + 1), pageSize * (i + 2), fun _ => 0⟩ := by
    obtain ⟨i, hi, rfl⟩ := List.mem_map.mp hr
    exact ⟨i, List.mem_range.mp hi, rfl⟩
  unfold pageSize at hmem
  refine ⟨⟨fun r hr => ?_, ?_⟩, fun r hr => ?_, fun r hr => ?_, fun r hr => ?_, ?_⟩
  · obtain ⟨i, _, rfl⟩ := hmem hr
    dsimp only
    omega
  · refine List.pairwise_map.mpr (List.pairwise_lt_range.imp fun {i j} hij => ?_)
    exact Nat.mul_le_mul_left pageSize (by omega)
  · obtain ⟨i, _, rfl⟩ := hmem hr
    unfold pageSize
    dsimp only
    omega
  · obtain ⟨i, _, rfl⟩ := hmem hr
    unfold pageSize
    dsimp only
    omega
  · obtain ⟨i, _, rfl⟩ := hmem hr
    dsimp only
    omega
  · rwa [pageRegions, List.length_map, List.length_range]

theorem findsPages_iff_three : FindsPages (pageRegions 3) :=
  (findsPages_iff (pageRegions_ok (by omega))).mpr (by decide)

/-- With 2³⁰ pages, each a region, an address is searched for in vain. -/
theorem findPage_overflows :
    PageRegions (pageRegions (2 ^ 30)) ∧ ¬ FindsPages (pageRegions (2 ^ 30)) := by
  have hregions : PageRegions (pageRegions (2 ^ 30)) := pageRegions_ok (by omega)
  refine ⟨hregions, hregions.not_findsPages ?_⟩
  rw [pageRegions, List.length_map, List.length_range]

end FlightRec
