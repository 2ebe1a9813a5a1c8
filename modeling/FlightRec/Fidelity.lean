/-
# `FlightRec.Fidelity` — Examine reads what Record cached

Record writes, Examine reads, and between them is the table `mem`.  A run of
`cache_add_region` and `process_page` calls leaves a cached copy of the client's
memory and the messages it has sent (`MemState`); reading any range at a step back
from all messages, those of later steps included, gives the copy as it stood after
the last call of that step (`getVarValue_run`).

The invariant (`Synced`) ties the log to the cache: every message holds the
client's memory at its step, so that two messages of one address and step cannot
differ, and for every segment of a cached region the latest message holds the
segment.  `cacheAddRegion_synced` and `processPage_synced` are its step lemmas.
-/
import FlightRec.Examine.Value

namespace FlightRec

open Chunks Intervals

/-! ## Runs of the cache -/

/-- The two ways the cache changes. -/
inductive MemOp where
  | addRegion (address size : Nat)
  | processPage (index pageNum : Nat)
  deriving DecidableEq, Repr

/-- A call and the step it is made at. -/
structure MemCall where
  step : Nat
  op : MemOp
  deriving DecidableEq, Repr

/-- One call. -/
def MemCall.run (c : Client) (call : MemCall) (st : MemState) : MemState :=
  match call.op with
  | .addRegion address size => cacheAddRegion c address size call.step st
  | .processPage index pageNum => processPage c index pageNum call.step st

/-- A run of calls. -/
def runCalls (c : Client) (calls : List MemCall) (st : MemState) : MemState :=
  calls.foldl (fun st call => call.run c st) st

/-- The region contains the address. -/
def Region.Contains (r : Region) (x : Nat) : Prop := r.start ≤ x ∧ x < r.stop

instance (r : Region) (x : Nat) : Decidable (r.Contains x) :=
  inferInstanceAs (Decidable (_ ∧ _))

/-- The call is one of the run: a new region starts at a segment, has a whole number
of pages and no address in common with a cached one; a page is a page of a cached
region; and all of it can be read. -/
def MemCall.Fits (c : Client) (call : MemCall) (st : MemState) : Prop :=
  match call.op with
  | .addRegion address size =>
      address % memSegmentSize = 0 ∧ size % pageSize = 0 ∧
        (∀ r ∈ st.cache, ∀ x, address ≤ x → x < address + size → ¬ r.Contains x) ∧
        ∀ i < size, (c.byte call.step (address + i)).isSome
  | .processPage index pageNum =>
      ∃ r, st.cache[index]? = some r ∧ r.start + (pageNum + 1) * pageSize ≤ r.stop ∧
        ∀ j < pageSize, (c.byte call.step (r.start + pageNum * pageSize + j)).isSome

/-- Every call of a run fits the state it is made in. -/
def AllFit (c : Client) : List MemCall → MemState → Prop
  | [], _ => True
  | call :: rest, st => call.Fits c st ∧ AllFit c rest (call.run c st)

/-- The cached byte at an address. -/
def MemState.byteAt (st : MemState) (x : Nat) : Option UInt8 :=
  (st.cache.find? fun r => r.Contains x).map fun r => r.pages (x - r.start)

/-- Some call adds a region with this address at a step up to `step`. -/
def Added (calls : List MemCall) (step x : Nat) : Prop :=
  ∃ call ∈ calls, call.step ≤ step ∧
    ∃ address size, call.op = .addRegion address size ∧ address ≤ x ∧ x < address + size

/-! ## The invariant -/

/-- What the client's memory holds. -/
def Client.memory (c : Client) (step address : Nat) : UInt8 := (c.byte step address).getD 0

/-- The segment at `address`, as a message of `step` holds it. -/
def Client.segmentAt (c : Client) (step address : Nat) : List UInt8 :=
  segment (fun j => c.memory step (address + j)) 0

/-- The log holds what is cached. -/
structure Synced (c : Client) (step : Nat) (st : MemState) : Prop where
  aligned : ∀ r ∈ st.cache, r.start < r.stop → r.start % memSegmentSize = 0 ∧
    (r.stop - r.start) % pageSize = 0 ∧ r.stop ≤ 2 ^ 56
  disjoint : st.cache.Pairwise fun a b => ∀ x, a.Contains x → ¬ b.Contains x
  bound : ∀ m ∈ st.log, m.stepId ≤ step
  content : ∀ m ∈ st.log, m.address % memSegmentSize = 0 ∧ m.address < 2 ^ 56 ∧
    m.content = c.segmentAt m.stepId m.address
  latest : ∀ r ∈ st.cache, ∀ i, r.start + memSegmentSize * i < r.stop →
    ∃ m ∈ st.log, m.address = r.start + memSegmentSize * i ∧
      m.content = segment r.pages (memSegmentSize * i) ∧
      ∀ m' ∈ st.log, m'.address = m.address → m'.stepId ≤ m.stepId

theorem synced_init (c : Client) (step : Nat) : Synced c step .init where
  aligned := fun r hr => by cases hr
  disjoint := List.Pairwise.nil
  bound := fun m hm => by cases hm
  content := fun m hm => by cases hm
  latest := fun r hr => by cases hr

theorem Synced.mono {c : Client} {step step' : Nat} {st : MemState} (h : Synced c step st)
    (hle : step ≤ step') : Synced c step' st :=
  { h with bound := fun m hm => Nat.le_trans (h.bound m hm) hle }

/-! ## Reading the client -/

theorem Client.readable_eq {c : Client} {step address size : Nat}
    (h : ∀ i < size, (c.byte step (address + i)).isSome) : c.readable step address size = size := by
  rw [Client.readable, List.takeWhile_eq_self_iff.mpr fun i hi => h i (List.mem_range.mp hi),
    List.length_range]

theorem Client.readv_full {c : Client} {step address size : Nat}
    (h : ∀ i < size, (c.byte step (address + i)).isSome) :
    (c.readv step address size).1 = size ∧
      ∀ i < size, (c.readv step address size).2 i = c.memory step (address + i) := by
  simp only [Client.readv, Client.readable_eq h]
  constructor
  · rw [if_neg (fun hz => hz.2 hz.1)]
  · intro i hi
    rw [if_pos hi]
    rfl

theorem segment_memory {c : Client} {step address size : Nat} {buffer : Nat → UInt8}
    (h : ∀ i < size, buffer i = c.memory step (address + i)) {offset : Nat}
    (hoff : offset + memSegmentSize ≤ size) :
    segment buffer offset = c.segmentAt step (address + offset) := by
  refine segment_eq_iff.mpr fun k hk => ?_
  rw [h _ (by omega), Nat.zero_add, Nat.add_assoc]

/-! ## `cache_add_region` -/

theorem cacheAddRegion_full {c : Client} {address size step : Nat} (st : MemState)
    (hpos : 0 < size) (hseg : size % memSegmentSize = 0)
    (hread : ∀ i < size, (c.byte step (address + i)).isSome) :
    address + size ≤ 2 ^ 56 ∧ ∃ pages : Nat → UInt8,
      (∀ i < size, pages i = c.memory step (address + i)) ∧
      (cacheAddRegion c address size step st).cache =
        insert Region.start { start := address, stop := address + size, pages } st.cache ∧
      (cacheAddRegion c address size step st).log =
        st.log ++ (List.range (size / memSegmentSize)).map fun i =>
          { address := address + memSegmentSize * i, stepId := step,
            content := segment pages (memSegmentSize * i) } := by
  have hlast := c.user step _ (hread (size - 1) (by omega))
  have hbound : address + size ≤ 2 ^ 56 := by omega
  have hstop : (address + size) % addressSpace = address + size :=
    Nat.mod_eq_of_lt (by unfold addressSpace; omega)
  obtain ⟨hcount, hpages⟩ := Client.readv_full hread
  have hdiv : (size + (memSegmentSize - 1)) / memSegmentSize = size / memSegmentSize := by
    unfold memSegmentSize at *
    omega
  refine ⟨hbound, (c.readv step address size).2, hpages, ?_, ?_⟩
  · rw [cacheAddRegion_cache, hstop]
  · unfold cacheAddRegion
    rw [if_neg (by rw [hcount, toSigned_of_lt (by omega)]; omega), hdiv]
    simp only [List.append_cancel_left_eq]
    refine List.map_congr_left fun i hi => ?_
    have hi := List.mem_range.mp hi
    have hmul : memSegmentSize * i < size := by
      unfold memSegmentSize at *
      omega
    rw [Nat.mod_eq_of_lt (by unfold addressSpace; omega)]

theorem cacheAddRegion_synced {c : Client} {address size step : Nat} {st : MemState}
    (h : Synced c step st)
    (hfit : (MemCall.mk step (.addRegion address size)).Fits c st) :
    Synced c step (cacheAddRegion c address size step st) := by
  obtain ⟨haddr, hsize, hdisj, hread⟩ := hfit
  by_cases hpos : 0 < size
  · have hseg : size % memSegmentSize = 0 := by
      unfold memSegmentSize pageSize at *
      omega
    obtain ⟨hbound, pages, hpages, hcache, hlog⟩ := cacheAddRegion_full st hpos hseg hread
    have hnew : ∀ m ∈ (cacheAddRegion c address size step st).log, m ∈ st.log ∨
        ∃ i < size / memSegmentSize, m = ⟨address + memSegmentSize * i, step,
          segment pages (memSegmentSize * i)⟩ := by
      intro m hm
      rw [hlog, List.mem_append] at hm
      rcases hm with hm | hm
      · exact Or.inl hm
      · obtain ⟨i, hi, rfl⟩ := List.mem_map.mp hm
        exact Or.inr ⟨i, List.mem_range.mp hi, rfl⟩
    have hinside : ∀ i < size / memSegmentSize,
        memSegmentSize * i + memSegmentSize ≤ size := fun i hi => by
      unfold memSegmentSize at *
      omega
    refine ⟨fun r hr hlt => ?_, ?_, fun m hm => ?_, fun m hm => ?_, fun r hr i hi => ?_⟩
    · rw [hcache, mem_insert] at hr
      rcases hr with rfl | hr
      · exact ⟨haddr, by simpa using hsize, hbound⟩
      · exact h.aligned r hr hlt
    · rw [hcache, (insert_perm _ _).pairwise_iff fun hab x hb ha => hab x ha hb]
      exact List.pairwise_cons.mpr ⟨fun r hr x hx => hdisj r hr x hx.1 hx.2, h.disjoint⟩
    · rcases hnew m hm with hm | ⟨i, _, rfl⟩
      · exact h.bound m hm
      · exact Nat.le_refl _
    · rcases hnew m hm with hm | ⟨i, hi, rfl⟩
      · exact h.content m hm
      · have := hinside i hi
        refine ⟨?_, ?_, segment_memory hpages this⟩
        · show (address + memSegmentSize * i) % memSegmentSize = 0
          rw [Nat.add_mul_mod_self_left, haddr]
        · show address + memSegmentSize * i < 2 ^ 56
          have : 0 < memSegmentSize := by decide
          omega
    · rw [hcache, mem_insert] at hr
      rcases hr with rfl | hr
      · -- the new region: its segments were all sent at this step
        have hi : memSegmentSize * i < size := by simpa using hi
        have hidx : i < size / memSegmentSize := by
          unfold memSegmentSize at *
          omega
        refine ⟨⟨address + memSegmentSize * i, step, segment pages (memSegmentSize * i)⟩, ?_,
          rfl, rfl, fun m' hm' _ => ?_⟩
        · rw [hlog]
          exact List.mem_append_right _ (List.mem_map.mpr ⟨i, List.mem_range.mpr hidx, rfl⟩)
        · rcases hnew m' hm' with hm' | ⟨_, _, rfl⟩
          · exact h.bound m' hm'
          · exact Nat.le_refl _
      · -- an old region: nothing was sent for its addresses
        obtain ⟨m, hm, hma, hmc, hmax⟩ := h.latest r hr i hi
        refine ⟨m, by rw [hlog]; exact List.mem_append_left _ hm, hma, hmc, fun m' hm' heq => ?_⟩
        rcases hnew m' hm' with hm' | ⟨j, hj, rfl⟩
        · exact hmax m' hm' heq
        · have := hinside j hj
          have heq : address + memSegmentSize * j = m.address := heq
          exact absurd ⟨by omega, by omega⟩ (hdisj r hr (address + memSegmentSize * j)
            (by omega) (by unfold memSegmentSize at *; omega))
  · -- an empty region: no address lies in it, and nothing is sent
    obtain rfl : size = 0 := by omega
    have hstop : (address + 0) % addressSpace ≤ address := Nat.mod_le _ _
    have hlog : (cacheAddRegion c address 0 step st).log = st.log := by
      simp [cacheAddRegion, Client.readv, Client.readable, toSigned, memSegmentSize]
    refine ⟨fun r hr hlt => ?_, ?_, hlog ▸ h.bound, hlog ▸ h.content, fun r hr i hi => ?_⟩
    · rw [cacheAddRegion_cache, mem_insert] at hr
      rcases hr with rfl | hr
      · have hlt : address < (address + 0) % addressSpace := hlt
        omega
      · exact h.aligned r hr hlt
    · rw [cacheAddRegion_cache, (insert_perm _ _).pairwise_iff fun hab x hb ha => hab x ha hb]
      refine List.pairwise_cons.mpr ⟨fun r hr x hx => ?_, h.disjoint⟩
      have hx1 : address ≤ x := hx.1
      have hx2 : x < (address + 0) % addressSpace := hx.2
      omega
    · rw [cacheAddRegion_cache, mem_insert] at hr
      rw [hlog]
      rcases hr with rfl | hr
      · have hi : address + memSegmentSize * i < (address + 0) % addressSpace := hi
        omega
      · exact h.latest r hr i hi

/-! ## `process_page` -/

section
variable {buffer pages : Nat → UInt8} {address base step : Nat}

theorem scanSegments_pages : ∀ (n o : Nat),
    (scanSegments buffer address base step n pages).1 o =
      if base ≤ o ∧ o < base + memSegmentSize * n then buffer (o - base) else pages o
  | 0, o => by
      rw [if_neg (by omega)]
      rfl
  | n + 1, o => by
      have ih := scanSegments_pages n
      have hmul : memSegmentSize * (n + 1) = memSegmentSize * n + memSegmentSize :=
        Nat.mul_succ _ _
      by_cases hdiff : segment buffer (memSegmentSize * n) ≠
          segment (scanSegments buffer address base step n pages).1 (base + memSegmentSize * n)
      · simp only [scanSegments, if_pos hdiff]
        by_cases hlast : base + memSegmentSize * n ≤ o ∧
            o < base + memSegmentSize * n + memSegmentSize
        · rw [if_pos hlast, if_pos (by omega)]
        · rw [if_neg hlast, ih o]
          by_cases hin : base ≤ o ∧ o < base + memSegmentSize * n
          · rw [if_pos hin, if_pos (by omega)]
          · rw [if_neg hin, if_neg (by omega)]
      · simp only [scanSegments, if_neg hdiff]
        have hsame := segment_eq_iff.mp (not_not.mp hdiff)
        rw [ih o]
        by_cases hin : base ≤ o ∧ o < base + memSegmentSize * n
        · rw [if_pos hin, if_pos (by omega)]
        · rw [if_neg hin]
          by_cases hlast : base ≤ o ∧ o < base + memSegmentSize * (n + 1)
          · rw [if_pos hlast]
            -- in the segment that did not differ
            have heq := hsame (o - base - memSegmentSize * n) (by omega)
            rw [ih, if_neg (by omega)] at heq
            rw [show o - base = memSegmentSize * n + (o - base - memSegmentSize * n) by omega, heq]
            congr 1
            omega
          · rw [if_neg hlast]

theorem scanSegments_segment (n : Nat) :
    segment (scanSegments buffer address base step n pages).1 (base + memSegmentSize * n) =
      segment pages (base + memSegmentSize * n) := by
  refine segment_eq_iff.mpr fun k _ => ?_
  rw [scanSegments_pages, if_neg (by omega)]

/-- The scan sends exactly the segments that differ. -/
theorem mem_scanSegments {m : MemMsg} : ∀ {n : Nat},
    m ∈ (scanSegments buffer address base step n pages).2 ↔
      ∃ i < n, segment buffer (memSegmentSize * i) ≠ segment pages (base + memSegmentSize * i) ∧
        m = ⟨(address + memSegmentSize * i) % addressSpace, step,
          segment buffer (memSegmentSize * i)⟩
  | 0 => by simp [scanSegments]
  | n + 1 => by
      have ih := mem_scanSegments (m := m) (n := n)
      by_cases hdiff : segment buffer (memSegmentSize * n) ≠
          segment (scanSegments buffer address base step n pages).1 (base + memSegmentSize * n)
      · simp only [scanSegments, if_pos hdiff, List.mem_append, List.mem_singleton, ih]
        rw [scanSegments_segment] at hdiff
        constructor
        · rintro (⟨i, hi, h⟩ | rfl)
          · exact ⟨i, by omega, h⟩
          · exact ⟨n, by omega, hdiff, rfl⟩
        · rintro ⟨i, hi, hne, rfl⟩
          by_cases hin : i = n
          · subst hin
            exact Or.inr rfl
          · exact Or.inl ⟨i, by omega, hne, rfl⟩
      · simp only [scanSegments, if_neg hdiff, ih]
        rw [scanSegments_segment] at hdiff
        constructor
        · rintro ⟨i, hi, h⟩
          exact ⟨i, by omega, h⟩
        · rintro ⟨i, hi, hne, h⟩
          have hin : i ≠ n := fun heq => hdiff (heq ▸ hne)
          exact ⟨i, by omega, hne, h⟩

end

theorem pageSize_eq : pageSize = memSegmentSize * pageSegments := by decide

theorem segment_le_page {k : Nat} (hk : k < pageSegments) :
    memSegmentSize * k + memSegmentSize ≤ pageSize := by
  rw [pageSize_eq, ← Nat.mul_succ]
  exact Nat.mul_le_mul_left memSegmentSize hk

theorem segment_of_meets {base i o : Nat} (hbase : base % memSegmentSize = 0)
    (ho : o < memSegmentSize) (h1 : base ≤ memSegmentSize * i + o)
    (h2 : memSegmentSize * i + o < base + pageSize) :
    ∃ k < pageSegments, memSegmentSize * i = base + memSegmentSize * k := by
  obtain ⟨p, rfl⟩ := Nat.dvd_of_mod_eq_zero hbase
  have hp : p ≤ i := by
    have : memSegmentSize * p < memSegmentSize * (i + 1) := by
      rw [Nat.mul_succ]
      omega
    exact Nat.le_of_lt_succ (Nat.lt_of_mul_lt_mul_left this)
  have hi : i < p + pageSegments := by
    have : memSegmentSize * i < memSegmentSize * (p + pageSegments) := by
      rw [Nat.mul_add, ← pageSize_eq]
      omega
    exact Nat.lt_of_mul_lt_mul_left this
  exact ⟨i - p, by omega, by rw [← Nat.mul_add, Nat.add_sub_cancel' hp]⟩

/-- What a scan of page `pageNum` leaves in the region's copy and what it sends: the
segments of the page are the client's, the others stay, and those that changed are
sent. -/
structure PageScan (c : Client) (r : Region) (pageNum step : Nat) (pages : Nat → UInt8)
    (sent : List MemMsg) : Prop where
  inside : ∀ k < pageSegments, segment pages (pageNum * pageSize + memSegmentSize * k) =
    c.segmentAt step (r.start + pageNum * pageSize + memSegmentSize * k)
  outside : ∀ i, (∀ k < pageSegments,
      memSegmentSize * i ≠ pageNum * pageSize + memSegmentSize * k) →
    segment pages (memSegmentSize * i) = segment r.pages (memSegmentSize * i)
  sent : ∀ m, m ∈ sent ↔ ∃ k < pageSegments,
    segment pages (pageNum * pageSize + memSegmentSize * k) ≠
      segment r.pages (pageNum * pageSize + memSegmentSize * k) ∧
    m = ⟨r.start + pageNum * pageSize + memSegmentSize * k, step,
      segment pages (pageNum * pageSize + memSegmentSize * k)⟩

theorem page_aligned (pageNum : Nat) : pageNum * pageSize % memSegmentSize = 0 := by
  rw [pageSize_eq, Nat.mul_left_comm, Nat.mul_mod_right]

theorem processPage_full {c : Client} {index pageNum step : Nat} {st : MemState} {r : Region}
    (hr : st.cache[index]? = some r) (hend : r.start + pageNum * pageSize + pageSize ≤ 2 ^ 56)
    (hread : ∀ j < pageSize, (c.byte step (r.start + pageNum * pageSize + j)).isSome) :
    ∃ pages sent, PageScan c r pageNum step pages sent ∧
      processPage c index pageNum step st =
        { cache := st.cache.set index { r with pages }, log := st.log ++ sent } := by
  obtain ⟨hcount, hbuffer⟩ := Client.readv_full hread
  generalize hbuf : (c.readv step (r.start + pageNum * pageSize) pageSize).2 = buffer at hbuffer
  generalize hscan : scanSegments buffer (r.start + pageNum * pageSize) (pageNum * pageSize) step
    pageSegments r.pages = scan
  have hpages : ∀ o, scan.1 o =
      if pageNum * pageSize ≤ o ∧ o < pageNum * pageSize + pageSize
      then buffer (o - pageNum * pageSize) else r.pages o := by
    intro o
    rw [← hscan, scanSegments_pages, ← pageSize_eq]
  have hinside : ∀ k < pageSegments, segment scan.1 (pageNum * pageSize + memSegmentSize * k) =
      segment buffer (memSegmentSize * k) := by
    intro k hk
    refine segment_eq_iff.mpr fun o ho => ?_
    have hle := segment_le_page hk
    have hoff : pageNum * pageSize + memSegmentSize * k + o - pageNum * pageSize =
        memSegmentSize * k + o := by omega
    rw [hpages, if_pos ⟨by omega, by omega⟩, hoff]
  refine ⟨scan.1, scan.2, ⟨fun k hk => ?_, fun i hout => ?_, fun m => ?_⟩, ?_⟩
  · rw [hinside k hk, segment_memory hbuffer (segment_le_page hk)]
  · refine segment_eq_iff.mpr fun o ho => ?_
    rw [hpages, if_neg]
    rintro ⟨h1, h2⟩
    obtain ⟨k, hk, heq⟩ := segment_of_meets (page_aligned pageNum) ho h1 h2
    exact hout k hk heq
  · rw [← hscan, mem_scanSegments, hscan]
    refine exists_congr fun k => and_congr_right fun hk => ?_
    have := segment_le_page hk
    rw [hinside k hk, Nat.mod_eq_of_lt (by unfold addressSpace; omega)]
  · simp only [processPage, hr]
    rw [if_neg (by rw [hcount]; decide), hbuf, hscan]

theorem Synced.disjoint_getElem {c : Client} {step : Nat} {st : MemState} (h : Synced c step st)
    {i j : Nat} {a b : Region} (ha : st.cache[i]? = some a) (hb : st.cache[j]? = some b)
    (hij : i ≠ j) {x : Nat} (hax : a.Contains x) : ¬ b.Contains x := by
  obtain ⟨hi, rfl⟩ := List.getElem?_eq_some_iff.mp ha
  obtain ⟨hj, rfl⟩ := List.getElem?_eq_some_iff.mp hb
  have hpair := List.pairwise_iff_getElem.mp h.disjoint
  rcases Nat.lt_or_gt_of_ne hij with hlt | hgt
  · exact hpair i j hi hj hlt x hax
  · exact fun hbx => hpair j i hj hi hgt x hbx hax

theorem PageScan.latest {c : Client} {r : Region} {pageNum step : Nat} {pages : Nat → UInt8}
    {sent log : List MemMsg} (h : PageScan c r pageNum step pages sent)
    (hbound : ∀ m ∈ log, m.stepId ≤ step) {i : Nat}
    (hold : ∃ m ∈ log, m.address = r.start + memSegmentSize * i ∧
      m.content = segment r.pages (memSegmentSize * i) ∧
      ∀ m' ∈ log, m'.address = m.address → m'.stepId ≤ m.stepId) :
    ∃ m ∈ log ++ sent, m.address = r.start + memSegmentSize * i ∧
      m.content = segment pages (memSegmentSize * i) ∧
      ∀ m' ∈ log ++ sent, m'.address = m.address → m'.stepId ≤ m.stepId := by
  obtain ⟨m, hm, hma, hmc, hmax⟩ := hold
  -- the old message stays the latest unless the segment is sent
  have kept : segment pages (memSegmentSize * i) = segment r.pages (memSegmentSize * i) →
      ∃ m ∈ log ++ sent, m.address = r.start + memSegmentSize * i ∧
        m.content = segment pages (memSegmentSize * i) ∧
        ∀ m' ∈ log ++ sent, m'.address = m.address → m'.stepId ≤ m.stepId := by
    intro hsame
    refine ⟨m, List.mem_append_left _ hm, hma, hmc.trans hsame.symm, fun m' hm' heq => ?_⟩
    rcases List.mem_append.mp hm' with hm' | hm'
    · exact hmax m' hm' heq
    · obtain ⟨k, _, hdiff, rfl⟩ := (h.sent m').mp hm'
      have heq : r.start + pageNum * pageSize + memSegmentSize * k = m.address := heq
      have hik : pageNum * pageSize + memSegmentSize * k = memSegmentSize * i := by omega
      rw [hik] at hdiff
      exact absurd hsame hdiff
  by_cases hin : ∃ k < pageSegments, memSegmentSize * i = pageNum * pageSize + memSegmentSize * k
  · obtain ⟨k, hk, hik⟩ := hin
    by_cases hsame : segment pages (memSegmentSize * i) = segment r.pages (memSegmentSize * i)
    · exact kept hsame
    · rw [hik] at hsame ⊢
      refine ⟨_, List.mem_append_right _ ((h.sent _).mpr ⟨k, hk, hsame, rfl⟩), ?_, rfl,
        fun m' hm' _ => ?_⟩
      · show r.start + pageNum * pageSize + memSegmentSize * k = _
        omega
      · rcases List.mem_append.mp hm' with hm' | hm'
        · exact hbound m' hm'
        · obtain ⟨_, _, _, rfl⟩ := (h.sent m').mp hm'
          exact Nat.le_refl _
  · exact kept (h.outside i fun k hk heq => hin ⟨k, hk, heq⟩)

theorem processPage_synced {c : Client} {index pageNum step : Nat} {st : MemState}
    (h : Synced c step st)
    (hfit : (MemCall.mk step (.processPage index pageNum)).Fits c st) :
    Synced c step (processPage c index pageNum step st) := by
  obtain ⟨r, hr, hpage, hread⟩ := hfit
  obtain ⟨hindex, _⟩ := List.getElem?_eq_some_iff.mp hr
  have hps : (pageNum + 1) * pageSize = pageNum * pageSize + pageSize := Nat.succ_mul _ _
  have hpos : 0 < pageSize := by decide
  have hseg : 0 < memSegmentSize := by decide
  obtain ⟨hstart, _, hstop⟩ := h.aligned r (List.mem_of_getElem? hr) (by omega)
  have hbounds := processPage_bounds c index pageNum step st
  obtain ⟨pages, sent, hscan, hrun⟩ := processPage_full hr (by omega) hread
  rw [hrun] at hbounds ⊢
  refine ⟨fun q hq hlt => ?_, ?_, fun m hm => ?_, fun m hm => ?_, fun q hq i hi => ?_⟩
  · have hq' : (q.start, q.stop) ∈ st.cache.map fun r => (r.start, r.stop) := by
      rw [← hbounds]
      exact List.mem_map.mpr ⟨q, hq, rfl⟩
    obtain ⟨q', hq', heq⟩ := List.mem_map.mp hq'
    obtain ⟨h1, h2⟩ := Prod.mk.inj heq
    rw [← h1, ← h2] at hlt ⊢
    exact h.aligned q' hq' hlt
  · have hpair : (st.cache.map fun r => (r.start, r.stop)).Pairwise
        fun a b => ∀ x, a.1 ≤ x ∧ x < a.2 → ¬ (b.1 ≤ x ∧ x < b.2) :=
      List.pairwise_map.mpr h.disjoint
    rw [← hbounds] at hpair
    exact List.pairwise_map.mp hpair
  · rcases List.mem_append.mp hm with hm | hm
    · exact h.bound m hm
    · obtain ⟨_, _, _, rfl⟩ := (hscan.sent m).mp hm
      exact Nat.le_refl _
  · rcases List.mem_append.mp hm with hm | hm
    · exact h.content m hm
    · obtain ⟨k, hk, _, rfl⟩ := (hscan.sent m).mp hm
      have := segment_le_page hk
      refine ⟨?_, ?_, hscan.inside k hk⟩
      · show (r.start + pageNum * pageSize + memSegmentSize * k) % memSegmentSize = 0
        rw [Nat.add_mul_mod_self_left, Nat.add_mod, hstart, page_aligned]
        rfl
      · show r.start + pageNum * pageSize + memSegmentSize * k < 2 ^ 56
        omega
  · obtain ⟨j, hj⟩ := List.mem_iff_getElem?.mp hq
    rw [List.getElem?_set] at hj
    by_cases hji : index = j
    · -- the region of the page
      rw [if_pos hji, if_pos hindex] at hj
      cases hj
      exact hscan.latest h.bound (h.latest r (List.mem_of_getElem? hr) i hi)
    · -- another region: nothing was sent for its addresses
      rw [if_neg hji] at hj
      obtain ⟨m, hm, hma, hmc, hmax⟩ := h.latest q (List.mem_of_getElem? hj) i hi
      refine ⟨m, List.mem_append_left _ hm, hma, hmc, fun m' hm' heq => ?_⟩
      rcases List.mem_append.mp hm' with hm' | hm'
      · exact hmax m' hm' heq
      · obtain ⟨k, hk, _, rfl⟩ := (hscan.sent m').mp hm'
        have := segment_le_page hk
        have heq : r.start + pageNum * pageSize + memSegmentSize * k = m.address := heq
        exact absurd (show q.Contains m.address from ⟨by omega, by omega⟩)
          (h.disjoint_getElem hr hj hji ⟨by omega, by omega⟩)

/-! ## Runs -/

theorem MemCall.run_synced {c : Client} {call : MemCall} {st : MemState}
    (h : Synced c call.step st) (hfit : call.Fits c st) :
    Synced c call.step (call.run c st) := by
  rcases call with ⟨step, op⟩
  cases op with
  | addRegion address size => exact cacheAddRegion_synced h hfit
  | processPage index pageNum => exact processPage_synced h hfit

theorem runCalls_synced {c : Client} : ∀ {calls : List MemCall} {st : MemState} {t step : Nat},
    Synced c t st → AllFit c calls st → calls.Pairwise (fun a b => a.step ≤ b.step) →
    (∀ call ∈ calls, t ≤ call.step ∧ call.step ≤ step) → t ≤ step →
    Synced c step (runCalls c calls st)
  | [], _, _, _, h, _, _, _, hle => h.mono hle
  | call :: rest, st, t, step, h, hfit, sorted, hbound, _ => by
      obtain ⟨hcall, sorted⟩ := List.pairwise_cons.mp sorted
      obtain ⟨hlo, hhi⟩ := hbound call (by simp)
      have hnext := MemCall.run_synced (h.mono hlo) hfit.1
      show Synced c step (runCalls c rest (call.run c st))
      exact runCalls_synced hnext hfit.2 sorted
        (fun x hx => ⟨hcall x hx, (hbound x (by simp [hx])).2⟩) hhi

theorem AllFit.left {c : Client} : ∀ {pre post : List MemCall} {st : MemState},
    AllFit c (pre ++ post) st → AllFit c pre st
  | [], _, _, _ => trivial
  | _ :: _, _, _, h => ⟨h.1, h.2.left⟩

theorem runCalls_append (c : Client) (pre post : List MemCall) (st : MemState) :
    runCalls c (pre ++ post) st = runCalls c post (runCalls c pre st) :=
  List.foldl_append

theorem scanSegments_step {buffer pages : Nat → UInt8} {address base step : Nat} :
    ∀ {n : Nat}, ∀ m ∈ (scanSegments buffer address base step n pages).2, m.stepId = step := by
  intro n m hm
  obtain ⟨_, _, _, rfl⟩ := mem_scanSegments.mp hm
  rfl

theorem MemCall.run_log (c : Client) (call : MemCall) (st : MemState) :
    ∃ sent, (call.run c st).log = st.log ++ sent ∧ ∀ m ∈ sent, m.stepId = call.step := by
  rcases call with ⟨step, op⟩
  cases op with
  | addRegion address size =>
      show ∃ sent, (cacheAddRegion c address size step st).log = _ ∧ _
      unfold cacheAddRegion
      simp only []
      split
      · exact ⟨[], by simp, fun m hm => by cases hm⟩
      · refine ⟨_, rfl, fun m hm => ?_⟩
        obtain ⟨i, _, rfl⟩ := List.mem_map.mp hm
        rfl
  | processPage index pageNum =>
      show ∃ sent, (processPage c index pageNum step st).log = _ ∧ _
      unfold processPage
      split
      · exact ⟨[], by simp, fun m hm => by cases hm⟩
      · simp only []
        split
        · exact ⟨[], by simp, fun m hm => by cases hm⟩
        · exact ⟨_, rfl, scanSegments_step⟩

theorem runCalls_log {c : Client} {step : Nat} : ∀ {calls : List MemCall} {st : MemState},
    (∀ call ∈ calls, step < call.step) →
    ∃ sent, (runCalls c calls st).log = st.log ++ sent ∧ ∀ m ∈ sent, step < m.stepId
  | [], st, _ => ⟨[], by simp [runCalls], fun m hm => by cases hm⟩
  | call :: rest, st, hlater => by
      obtain ⟨sent, hlog, hsent⟩ := call.run_log c st
      have hrest : ∀ x ∈ rest, step < x.step := fun x hx => hlater x (by simp [hx])
      have ih : ∃ sent, (runCalls c rest (call.run c st)).log = (call.run c st).log ++ sent ∧
          ∀ m ∈ sent, step < m.stepId := runCalls_log hrest
      obtain ⟨sent', hlog', hsent'⟩ := ih
      refine ⟨sent ++ sent', ?_, fun m hm => ?_⟩
      · show (runCalls c rest (call.run c st)).log = _
        rw [hlog', hlog, List.append_assoc]
      · rcases List.mem_append.mp hm with hm | hm
        · rw [hsent m hm]
          exact hlater call (by simp)
        · exact hsent' m hm

theorem MemCall.run_contains {c : Client} {call : MemCall} {st : MemState} {x : Nat}
    (h : ∃ r ∈ st.cache, r.Contains x) : ∃ r ∈ (call.run c st).cache, r.Contains x := by
  rcases call with ⟨step, op⟩
  cases op with
  | addRegion address size =>
      obtain ⟨r, hr, hx⟩ := h
      refine ⟨r, ?_, hx⟩
      show r ∈ (cacheAddRegion c address size step st).cache
      rw [cacheAddRegion_cache, mem_insert]
      exact Or.inr hr
  | processPage index pageNum =>
      obtain ⟨r, hr, hx⟩ := h
      have hr' : (r.start, r.stop) ∈ (processPage c index pageNum step st).cache.map
          fun r => (r.start, r.stop) := by
        rw [processPage_bounds]
        exact List.mem_map.mpr ⟨r, hr, rfl⟩
      obtain ⟨q, hq, heq⟩ := List.mem_map.mp hr'
      obtain ⟨h1, h2⟩ := Prod.mk.inj heq
      exact ⟨q, hq, by unfold Region.Contains; rw [h1, h2]; exact hx⟩

theorem runCalls_contains {c : Client} {x : Nat} : ∀ {calls : List MemCall} {st : MemState},
    AllFit c calls st →
    ((∃ r ∈ st.cache, r.Contains x) ∨
      ∃ call ∈ calls, ∃ address size, call.op = .addRegion address size ∧
        address ≤ x ∧ x < address + size) →
    ∃ r ∈ (runCalls c calls st).cache, r.Contains x
  | [], st, _, h => by
      rcases h with h | ⟨_, hmem, _⟩
      · exact h
      · cases hmem
  | call :: rest, st, hfit, h => by
      show ∃ r ∈ (runCalls c rest (call.run c st)).cache, r.Contains x
      refine runCalls_contains hfit.2 ?_
      rcases h with h | ⟨call', hmem, address, size, hop, hlo, hhi⟩
      · exact Or.inl (MemCall.run_contains h)
      · rcases List.mem_cons.mp hmem with rfl | hmem
        · rcases call' with ⟨step, op⟩
          cases hop
          obtain ⟨_, hsize, _, hread⟩ := hfit.1
          have hseg : size % memSegmentSize = 0 := by
            unfold memSegmentSize pageSize at *
            omega
          obtain ⟨_, pages, _, hcache, _⟩ := cacheAddRegion_full st (by omega) hseg hread
          refine Or.inl ⟨_, ?_,
            (⟨hlo, hhi⟩ : (Region.mk address (address + size) pages).Contains x)⟩
          show _ ∈ (cacheAddRegion c address size step st).cache
          rw [hcache]
          exact mem_insert.mpr (Or.inl rfl)
        · exact Or.inr ⟨call', hmem, address, size, hop, hlo, hhi⟩

/-! ## Reading back -/

theorem Synced.region_unique {c : Client} {step : Nat} {st : MemState} (h : Synced c step st)
    {a b : Region} (ha : a ∈ st.cache) (hb : b ∈ st.cache) {x : Nat} (hax : a.Contains x)
    (hbx : b.Contains x) : a = b := by
  obtain ⟨i, hi⟩ := List.mem_iff_getElem?.mp ha
  obtain ⟨j, hj⟩ := List.mem_iff_getElem?.mp hb
  by_cases hij : i = j
  · subst hij
    exact Option.some.inj (hi.symm.trans hj)
  · exact absurd hbx (h.disjoint_getElem hi hj hij hax)

theorem Synced.byteAt_eq {c : Client} {step : Nat} {st : MemState} (h : Synced c step st)
    {r : Region} (hr : r ∈ st.cache) {x : Nat} (hx : r.Contains x) :
    st.byteAt x = some (r.pages (x - r.start)) := by
  unfold MemState.byteAt
  cases hfind : st.cache.find? fun r => r.Contains x with
  | none => exact absurd hx (by simpa using List.find?_eq_none.mp hfind r hr)
  | some q =>
      have hq : q.Contains x := by simpa using List.find?_some hfind
      rw [h.region_unique (List.mem_of_find?_eq_some hfind) hr hq hx]
      rfl

theorem Synced.segment_of_contains {c : Client} {step : Nat} {st : MemState}
    (h : Synced c step st) {r : Region} (hr : r ∈ st.cache) {x a : Nat} (hx : r.Contains x)
    (ha : a % memSegmentSize = 0) (hlo : a ≤ x) (hhi : x < a + memSegmentSize) :
    ∃ i, a = r.start + memSegmentSize * i ∧ a + memSegmentSize ≤ r.stop := by
  obtain ⟨h1, h2⟩ := hx
  obtain ⟨hstart, hsize, _⟩ := h.aligned r hr (by omega)
  unfold memSegmentSize pageSize at *
  exact ⟨(a - r.start) / 32, by omega, by omega⟩

/-- The log of a synced state, with later messages behind it, stores what is cached. -/
theorem Synced.stored {c : Client} {step addr size : Nat} {st : MemState} (h : Synced c step st)
    {sent : List MemMsg} (hsent : ∀ m ∈ sent, step < m.stepId)
    (hcovered : ∀ x, addr ≤ x → x < addr + size → ∃ r ∈ st.cache, r.Contains x) (hpos : 0 < size) :
    Stored (st.log ++ sent) step (fun x => (st.byteAt x).getD 0) addr size := by
  have hold : ∀ m ∈ st.log ++ sent, m.stepId ≤ step → m ∈ st.log := by
    intro m hm hle
    rcases List.mem_append.mp hm with hm | hm
    · exact hm
    · have := hsent m hm
      omega
  -- a segment that touches the range has an address inside it
  have htouch : ∀ a, a % memSegmentSize = 0 → a < addr + size → addr < a + memSegmentSize →
      ∃ r ∈ st.cache, ∃ i, a = r.start + memSegmentSize * i ∧ a + memSegmentSize ≤ r.stop := by
    intro a haligned h1 h2
    obtain ⟨r, hr, hx⟩ := hcovered (max a addr) (by omega) (by omega)
    have := h.segment_of_contains hr hx haligned (by omega) (by unfold memSegmentSize at *; omega)
    exact ⟨r, hr, this⟩
  have hseg : 0 < memSegmentSize := by decide
  refine ⟨fun m hm hle => ?_, fun a haligned h1 h2 => ?_, fun m hm hle h1 h2 hmax => ?_⟩
  · obtain ⟨haligned, hlt, _⟩ := h.content m (hold m hm hle)
    exact ⟨haligned, hlt⟩
  · obtain ⟨r, hr, i, rfl, hstop⟩ := htouch a haligned h1 h2
    obtain ⟨m, hm, hma, _⟩ := h.latest r hr i (by omega)
    exact ⟨m, List.mem_append_left _ hm, h.bound m hm, hma⟩
  · have hm := hold m hm hle
    obtain ⟨haligned, _, hcontent⟩ := h.content m hm
    obtain ⟨r, hr, i, haddr, hstop⟩ := htouch m.address haligned h2 h1
    obtain ⟨m₀, hm₀, ha₀, hc₀, hmax₀⟩ := h.latest r hr i (by omega)
    have haddr₀ : m₀.address = m.address := ha₀.trans haddr.symm
    -- both are the latest, and messages of one address and step agree
    have hstep : m₀.stepId = m.stepId :=
      Nat.le_antisymm
        (hmax m₀ (List.mem_append_left _ hm₀) (h.bound m₀ hm₀) haddr₀)
        (hmax₀ m hm haddr₀.symm)
    have hsame : m.content = m₀.content := by
      rw [hcontent, (h.content m₀ hm₀).2.2, hstep, haddr₀]
    rw [hsame, hc₀, segment]
    refine List.map_congr_left fun j hj => ?_
    have hj := List.mem_range.mp hj
    have hin : r.Contains (m.address + j) := ⟨by omega, by omega⟩
    rw [h.byteAt_eq hr hin, haddr]
    show r.pages _ = r.pages _
    congr 1
    omega

/-- The calls up to a step. -/
def callsUpTo (step : Nat) (calls : List MemCall) : List MemCall :=
  calls.takeWhile fun call => call.step ≤ step

theorem callsUpTo_early {step : Nat} {calls : List MemCall} :
    ∀ call ∈ callsUpTo step calls, call.step ≤ step := fun call hcall => by
  simpa using List.mem_takeWhile_imp hcall

theorem callsUpTo_split (step : Nat) : ∀ {calls : List MemCall},
    calls.Pairwise (fun a b => a.step ≤ b.step) →
    ∃ later, calls = callsUpTo step calls ++ later ∧ ∀ call ∈ later, step < call.step
  | [], _ => ⟨[], rfl, fun call hcall => by cases hcall⟩
  | call :: rest, sorted => by
      obtain ⟨hcall, sorted⟩ := List.pairwise_cons.mp sorted
      by_cases hle : call.step ≤ step
      · obtain ⟨later, hsplit, hlater⟩ := callsUpTo_split step sorted
        refine ⟨later, ?_, hlater⟩
        rw [callsUpTo, List.takeWhile_cons_of_pos (by simpa using hle), List.cons_append]
        exact congrArg _ hsplit
      · refine ⟨call :: rest, ?_, fun x hx => ?_⟩
        · rw [callsUpTo, List.takeWhile_cons_of_neg (by simpa using hle), List.nil_append]
        · rcases List.mem_cons.mp hx with rfl | hx
          · omega
          · have := hcall x hx
            omega

/-- A prefix of a run gives what its log and the later messages are read back as. -/
theorem Synced.getVarValue_eq {c : Client} {step addr size : Nat} {st : MemState}
    (h : Synced c step st) {sent : List MemMsg} (hsent : ∀ m ∈ sent, step < m.stepId)
    (hcovered : ∀ x, addr ≤ x → x < addr + size → ∃ r ∈ st.cache, r.Contains x) :
    getVarValue (st.log ++ sent) addr size step =
      slice (fun x => (st.byteAt x).getD 0) addr (addr + size) ++ [0] := by
  by_cases hpos : 0 < size
  · -- the last byte bounds the range
    obtain ⟨r, hr, hx⟩ := hcovered (addr + size - 1) (by omega) (by omega)
    have hx : r.start ≤ addr + size - 1 ∧ addr + size - 1 < r.stop := hx
    obtain ⟨_, _, hstop⟩ := h.aligned r hr (by omega)
    exact (h.stored hsent hcovered hpos).getVarValue_eq (by omega)
  · obtain rfl : size = 0 := by omega
    refine getVarValue_empty _ fun m hm hle => ?_
    rcases List.mem_append.mp hm with hm | hm
    · exact (h.content m hm).2.1
    · have := hsent m hm
      omega

/-- **Time-travel fidelity.**  Whatever the calls of a run, reading a range that was
added by a step gives, from all messages of the run, the cached copy of the range as
it stood after the last call up to that step. -/
theorem getVarValue_run (c : Client) {calls : List MemCall} (hfit : AllFit c calls .init)
    (sorted : calls.Pairwise fun a b => a.step ≤ b.step) {step addr size : Nat}
    (hadded : ∀ x, addr ≤ x → x < addr + size → Added calls step x) :
    ∃ bytes, getVarValue (runCalls c calls .init).log addr size step = bytes ++ [0] ∧
      bytes.map some = (List.range' addr size).map
        (runCalls c (callsUpTo step calls) .init).byteAt := by
  obtain ⟨later, hsplit, hlate⟩ := callsUpTo_split step sorted
  have hfit' : AllFit c (callsUpTo step calls) .init := by
    rw [hsplit] at hfit
    exact hfit.left
  have hsync : Synced c step (runCalls c (callsUpTo step calls) .init) :=
    runCalls_synced (synced_init c 0) hfit' (sorted.sublist (List.takeWhile_sublist _))
      (fun call hcall => ⟨Nat.zero_le _, callsUpTo_early call hcall⟩) (Nat.zero_le _)
  have hcovered : ∀ x, addr ≤ x → x < addr + size →
      ∃ r ∈ (runCalls c (callsUpTo step calls) .init).cache, r.Contains x := by
    intro x hlo hhi
    obtain ⟨call, hcall, hle, address, bytes, hop, hx⟩ := hadded x hlo hhi
    refine runCalls_contains hfit' (Or.inr ⟨call, ?_, address, bytes, hop, hx⟩)
    rw [hsplit, List.mem_append] at hcall
    rcases hcall with hcall | hcall
    · exact hcall
    · have := hlate call hcall
      omega
  have hlog := runCalls_append c (callsUpTo step calls) later .init
  rw [← hsplit] at hlog
  generalize runCalls c (callsUpTo step calls) .init = st at hsync hcovered hlog
  obtain ⟨sent, hsent, hnew⟩ : ∃ sent, (runCalls c later st).log = st.log ++ sent ∧
      ∀ m ∈ sent, step < m.stepId := runCalls_log hlate
  refine ⟨slice (fun x => (st.byteAt x).getD 0) addr (addr + size), ?_, ?_⟩
  · rw [hlog, hsent]
    exact hsync.getVarValue_eq hnew hcovered
  · rw [slice, Nat.add_sub_cancel_left, List.map_map]
    refine List.map_congr_left fun x hx => ?_
    obtain ⟨hlo, hhi⟩ := List.mem_range'_1.mp hx
    obtain ⟨r, hr, hin⟩ := hcovered x hlo hhi
    simp [hsync.byteAt_eq hr hin]

/-- Memory whose every byte counts the steps. -/
def tickingClient : Client where
  byte step address := if address < 2 ^ 56 then some (UInt8.ofNat step) else none
  user step address h := by
    split at h
    · assumption
    · cases h
  stale _ := 0

/-- A page is added at step 1 and read again at step 2. -/
def twoSteps : List MemCall := [⟨1, .addRegion 4096 4096⟩, ⟨2, .processPage 0 0⟩]

/-- Of the page, eight bytes in the middle as of step 1. -/
theorem getVarValue_run_twoSteps :
    ∃ bytes, getVarValue (runCalls tickingClient twoSteps .init).log 4112 8 1 = bytes ++ [0] ∧
      bytes.map some = (List.range' 4112 8).map
        (runCalls tickingClient (callsUpTo 1 twoSteps) .init).byteAt := by
  have hread : ∀ step address, address < 2 ^ 56 → (tickingClient.byte step address).isSome := by
    intro step address h
    change (if address < 2 ^ 56 then some (UInt8.ofNat step) else none).isSome
    rw [if_pos h]
    rfl
  have hfirst : (MemCall.mk 1 (.addRegion 4096 4096)).Fits tickingClient .init :=
    ⟨by decide, by decide, fun r hr => (by cases hr), fun i hi => hread 1 _ (by omega)⟩
  have hcache : ((MemCall.mk 1 (.addRegion 4096 4096)).run tickingClient .init).cache =
      [⟨4096, (4096 + 4096) % addressSpace, (tickingClient.readv 1 4096 4096).2⟩] := by
    rw [MemCall.run, cacheAddRegion_cache]
    rfl
  have hsecond : (MemCall.mk 2 (.processPage 0 0)).Fits tickingClient
      ((MemCall.mk 1 (.addRegion 4096 4096)).run tickingClient .init) := by
    refine ⟨_, by rw [hcache]; rfl, by decide, fun j hj => hread 2 _ ?_⟩
    have hlt : j < 4096 := hj
    calc 4096 + 0 * pageSize + j = 4096 + j := by rw [Nat.zero_mul, Nat.add_zero]
      _ < 2 ^ 56 := by omega
  have hfit : AllFit tickingClient twoSteps .init := ⟨hfirst, hsecond, trivial⟩
  exact getVarValue_run tickingClient hfit (by decide) fun x hlo hhi =>
    ⟨_, List.mem_cons_self, by decide, 4096, 4096, rfl, by omega, by omega⟩

end FlightRec
