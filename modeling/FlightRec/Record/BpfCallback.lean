/-
# `FlightRec.Record.BpfCallback` — events from the kernel

`bpf_callback` of record/run.c: the BPF programs report page faults, `mmap`,
`munmap` and `brk` calls and signals of the client, and the callback turns them
into cached regions, addresses on `proc_mem_ch` and posts of `bpf_sem`.

Regions are added for what `mmap` returns and for the growth of the heap; nothing
ever removes one.  So the region array keeps the order `find_page` searches by
exactly as long as every added range is non-empty and meets no range that was
cached before (`bpfCallbacks_searchable_iff`): a range that is unmapped and handed
out again, or a failed `mmap`, breaks it.
-/
import FlightRec.Record.MemCache

namespace FlightRec

open Intervals

/-! ## The callback -/

/-- `SIGTRAP`. -/
def sigtrap : Nat := 5

/-- `struct bpf_event`: the type and its payload. -/
inductive BpfEvent where
  | pagefault (address : Nat)
  | mmapEntry (size : Nat)
  | mmapExit (address : Nat)
  | munmap (address : Nat)
  | brk (address : Nat)
  | signal (signum : Nat)
  | unknown (type : Nat)
  deriving DecidableEq, Repr

/-- The statics of `bpf_callback` and the globals it reads and writes; `bpfSem`
counts the posts of the semaphore that have not been waited for. -/
structure BpfState where
  mem : MemState
  stop : Bool
  mappedSize : Nat
  count : Bool
  brkBoundary : Nat
  memDirty : Bool
  procMemCh : List Nat
  bpfSem : Nat

/-- The globals after `init_cache`, before the first event. -/
def BpfState.start (mem : MemState) : BpfState :=
  { mem, stop := false, mappedSize := 0, count := false, brkBoundary := 0, memDirty := false,
    procMemCh := [], bpfSem := 0 }

/-- The signal branch: the first of two `SIGTRAP`s posts the semaphore. -/
def BpfState.onSignal (signum : Nat) (st : BpfState) : BpfState :=
  if signum = sigtrap then
    if st.count then { st with count := false }
    else { st with bpfSem := st.bpfSem + 1, count := true }
  else st

/-- `bpf_callback`. -/
def bpfCallback (c : Client) (stepId : Nat) (event : BpfEvent) (st : BpfState) : BpfState :=
  if st.stop then st      -- ignore events coming after child stop
  else
    match event with
    | .signal signum => st.onSignal signum
    | .pagefault address =>
        { st with procMemCh := st.procMemCh ++ [address], memDirty := true }
    | .mmapEntry size => { st with mappedSize := size }
    | .mmapExit address =>
        { st with mem := cacheAddRegion c address st.mappedSize stepId st.mem }
    | .munmap _ => st     -- the region stays cached
    | .brk address =>
        if st.brkBoundary = 0 then { st with brkBoundary := address }
        else if st.brkBoundary < address then
          { st with
            mem := cacheAddRegion c st.brkBoundary (address - st.brkBoundary) stepId st.mem
            brkBoundary := address }
        else st
    | .unknown _ => st

/-- The range an event adds to the cache: start and size. -/
def BpfState.adds (st : BpfState) : BpfEvent → Option (Nat × Nat)
  | .mmapExit address => if st.stop then none else some (address, st.mappedSize)
  | .brk address =>
      if st.stop || st.brkBoundary = 0 || decide (address ≤ st.brkBoundary) then none
      else some (st.brkBoundary, address - st.brkBoundary)
  | _ => none

/-- The region array as the binary search needs it. -/
def BpfState.Separated (st : BpfState) : Prop :=
  Intervals.Separated Region.start Region.stop st.mem.cache

/-- The range an event adds, if any, is not empty, does not wrap around, and meets
no range in the cache. -/
def BpfState.AddsFresh (st : BpfState) (event : BpfEvent) : Prop :=
  ∀ address size, st.adds event = some (address, size) →
    address < (address + size) % addressSpace ∧
      ∀ r ∈ st.mem.cache,
        r.stop ≤ address ∨ (address + size) % addressSpace ≤ r.start

theorem bpfCallback_mem (c : Client) (stepId : Nat) (event : BpfEvent) (st : BpfState) :
    (bpfCallback c stepId event st).mem =
      match st.adds event with
      | some (address, size) => cacheAddRegion c address size stepId st.mem
      | none => st.mem := by
  unfold bpfCallback
  by_cases hstop : st.stop = true
  · rw [if_pos hstop]
    cases event <;> simp [BpfState.adds, hstop]
  · rw [if_neg hstop]
    cases event with
    | signal signum =>
        simp only [BpfState.onSignal, BpfState.adds]
        split
        · split <;> rfl
        · rfl
    | pagefault address => rfl
    | mmapEntry size => rfl
    | mmapExit address => simp [BpfState.adds, hstop]
    | munmap address => rfl
    | unknown type => rfl
    | brk address =>
        by_cases h0 : st.brkBoundary = 0
        · simp [BpfState.adds, h0]
        · by_cases hlt : st.brkBoundary < address
          · simp [BpfState.adds, h0, hstop, hlt, Nat.not_le_of_lt hlt]
          · simp [BpfState.adds, h0, hlt, Nat.le_of_not_lt hlt]

theorem bpfCallback_cache (c : Client) (stepId : Nat) (event : BpfEvent) (st : BpfState) :
    (st.adds event = none ∧ (bpfCallback c stepId event st).mem.cache = st.mem.cache) ∨
      ∃ address size, st.adds event = some (address, size) ∧
        (bpfCallback c stepId event st).mem = cacheAddRegion c address size stepId st.mem := by
  have hmem := bpfCallback_mem c stepId event st
  cases hadds : st.adds event with
  | none =>
      rw [hadds] at hmem
      exact Or.inl ⟨rfl, congrArg MemState.cache hmem⟩
  | some range =>
      rw [hadds] at hmem
      exact Or.inr ⟨range.1, range.2, rfl, hmem⟩

/-- **One event** keeps the order of the region array exactly if what it adds is fresh. -/
theorem bpfCallback_separated_iff (c : Client) (stepId : Nat) (event : BpfEvent) {st : BpfState}
    (h : st.Separated) :
    (bpfCallback c stepId event st).Separated ↔ st.AddsFresh event := by
  rcases bpfCallback_cache c stepId event st with ⟨hnone, hcache⟩ | ⟨address, size, hadds, hmem⟩
  · rw [BpfState.Separated, hcache]
    exact iff_of_true h fun address size hadds => by rw [hnone] at hadds; cases hadds
  · rw [BpfState.Separated, hmem, cacheAddRegion_cache, separated_insert_iff h]
    constructor
    · rintro ⟨hne, hdisj⟩ a n hadds'
      rw [hadds] at hadds'
      cases hadds'
      exact ⟨hne, hdisj⟩
    · exact fun hfresh => hfresh address size hadds

/-! ## Runs -/

/-- The states before every event and at the end of a run; an event comes with the
step it is delivered at. -/
def bpfCallbacks (c : Client) : BpfState → List (Nat × BpfEvent) → List BpfState
  | st, [] => [st]
  | st, (stepId, event) :: rest => st :: bpfCallbacks c (bpfCallback c stepId event st) rest

/-- The state after some events. -/
def bpfRun (c : Client) (st : BpfState) (events : List (Nat × BpfEvent)) : BpfState :=
  events.foldl (fun st e => bpfCallback c e.1 e.2 st) st

@[simp] theorem bpfRun_nil (c : Client) (st : BpfState) : bpfRun c st [] = st := rfl

theorem bpfRun_concat (c : Client) (st : BpfState) (events : List (Nat × BpfEvent))
    (e : Nat × BpfEvent) :
    bpfRun c st (events ++ [e]) = bpfCallback c e.1 e.2 (bpfRun c st events) := by
  rw [bpfRun, List.foldl_concat]
  rfl

/-- Every event of the run adds a fresh range, if it adds one. -/
def AllFresh (c : Client) : BpfState → List (Nat × BpfEvent) → Prop
  | _, [] => True
  | st, (stepId, event) :: rest =>
      st.AddsFresh event ∧ AllFresh c (bpfCallback c stepId event st) rest

theorem bpfCallbacks_separated_iff_from (c : Client) :
    ∀ (events : List (Nat × BpfEvent)) {st : BpfState}, st.Separated →
      ((∀ s ∈ bpfCallbacks c st events, s.Separated) ↔ AllFresh c st events)
  | [], st, h => by simpa [bpfCallbacks, AllFresh] using h
  | (stepId, event) :: rest, st, h => by
      have step := bpfCallback_separated_iff c stepId event h
      simp only [bpfCallbacks, List.forall_mem_cons, AllFresh]
      constructor
      · rintro ⟨_, hrest⟩
        have hnext : (bpfCallback c stepId event st).Separated := by
          cases rest with
          | nil => exact hrest _ (by simp [bpfCallbacks])
          | cons e rest => exact hrest _ (by simp [bpfCallbacks])
        exact ⟨step.mp hnext, (bpfCallbacks_separated_iff_from c rest hnext).mp hrest⟩
      · rintro ⟨hfresh, hrest⟩
        exact ⟨h, (bpfCallbacks_separated_iff_from c rest (step.mpr hfresh)).mpr hrest⟩

/-- Disjoint, non-empty lines of the map below the end of the address space. -/
def MapsDisjoint (maps : List MapsEntry) : Prop :=
  (∀ e ∈ maps, e.head < e.tail ∧ e.tail < addressSpace) ∧
    maps.Pairwise fun a b => a.tail ≤ b.head ∨ b.tail ≤ a.head

theorem initCache_separated (c : Client) (exeName : String) {maps : List MapsEntry}
    (h : MapsDisjoint maps) :
    Intervals.Separated Region.start Region.stop (initCache c exeName maps).cache := by
  -- the regions cached so far are separated and each is a line already read
  have loop : ∀ (l : List MapsEntry) (st : MemState), MapsDisjoint l →
      Intervals.Separated Region.start Region.stop st.cache →
      (∀ r ∈ st.cache, ∀ e ∈ l, r.stop ≤ e.head ∨ e.tail ≤ r.start) →
      Intervals.Separated Region.start Region.stop
        (l.foldl (fun st e => cacheAddRegion c e.head (e.tail - e.head) 1 st) st).cache := by
    intro l
    induction l with
    | nil => intro st _ hst _; exact hst
    | cons e l ih =>
        rintro st ⟨bounds, disjoint⟩ hst hold
        obtain ⟨hne, hlt⟩ := bounds e (by simp)
        obtain ⟨hcross, disjoint⟩ := List.pairwise_cons.mp disjoint
        have hstop : (e.head + (e.tail - e.head)) % addressSpace = e.tail := by
          rw [Nat.add_sub_cancel' (Nat.le_of_lt hne), Nat.mod_eq_of_lt hlt]
        refine ih _ ⟨fun x hx => bounds x (by simp [hx]), disjoint⟩ ?_ ?_
        · rw [cacheAddRegion_cache, separated_insert_iff hst]
          exact ⟨by simpa only [hstop] using hne, fun a ha => by
            simpa only [Intervals.Disjoint, hstop] using hold a ha e (by simp)⟩
        · intro r hr x hx
          rw [cacheAddRegion_cache, mem_insert] at hr
          rcases hr with rfl | hr
          · simpa only [hstop] using hcross x hx
          · exact hold r hr x (by simp [hx])
  refine loop _ .init ⟨fun e he => h.1 e (List.mem_filter.mp he).1,
    h.2.sublist List.filter_sublist⟩ ?_ ?_
  · exact ⟨fun r hr => (by cases hr), List.Pairwise.nil⟩
  · exact fun r hr => (by cases hr)

/-- In a separated array `find_page` finds the page of every cached address, and no other. -/
theorem findPage_eq_some_iff {st : BpfState} (h : st.Separated) {address index pageNum : Nat} :
    findPage st.mem.cache address = some (index, pageNum) ↔
      ∃ r, st.mem.cache[index]? = some r ∧ r.start ≤ address ∧ address < r.stop ∧
        pageNum = (address - r.start) / pageSize := by
  unfold findPage
  rw [Option.bind_eq_some_iff]
  constructor
  · rintro ⟨i, hsearch, hpage⟩
    obtain ⟨hi, hlo, hhi⟩ := (search_eq_some_iff h).mp hsearch
    rw [List.getElem?_eq_getElem hi] at hpage
    cases hpage
    exact ⟨_, List.getElem?_eq_getElem hi, hlo, hhi, rfl⟩
  · rintro ⟨r, hr, hlo, hhi, rfl⟩
    obtain ⟨hi, rfl⟩ := List.getElem?_eq_some_iff.mp hr
    refine ⟨index, (search_eq_some_iff h).mpr ⟨hi, hlo, hhi⟩, ?_⟩
    rw [List.getElem?_eq_getElem hi]
    rfl

/-- The region array as it should be: sorted by start, no range empty, no two
overlapping, and `find_page` finds exactly the pages of cached addresses. -/
structure BpfState.Searchable (st : BpfState) : Prop where
  nonempty : ∀ r ∈ st.mem.cache, r.start < r.stop
  sorted : st.mem.cache.Pairwise fun a b => a.start ≤ b.start
  disjoint : st.mem.cache.Pairwise fun a b => a.stop ≤ b.start ∨ b.stop ≤ a.start
  finds : ∀ address index pageNum, findPage st.mem.cache address = some (index, pageNum) ↔
    ∃ r, st.mem.cache[index]? = some r ∧ r.start ≤ address ∧ address < r.stop ∧
      pageNum = (address - r.start) / pageSize

theorem BpfState.searchable_iff {st : BpfState} : st.Searchable ↔ st.Separated := by
  rw [BpfState.Separated, separated_iff]
  constructor
  · exact fun h => ⟨h.nonempty, h.sorted, h.disjoint⟩
  · rintro ⟨nonempty, sorted, disjoint⟩
    exact ⟨nonempty, sorted, disjoint, fun _ _ _ =>
      findPage_eq_some_iff (separated_iff.mpr ⟨nonempty, sorted, disjoint⟩)⟩

/-- **The region array stays searchable** in every state of a run exactly if every
range that is added is fresh. -/
theorem bpfCallbacks_searchable_iff (c : Client) (exeName : String) {maps : List MapsEntry}
    (hmaps : MapsDisjoint maps) (events : List (Nat × BpfEvent)) :
    (∀ st ∈ bpfCallbacks c (.start (initCache c exeName maps)) events, st.Searchable) ↔
      AllFresh c (.start (initCache c exeName maps)) events := by
  simp only [BpfState.searchable_iff]
  exact bpfCallbacks_separated_iff_from c events (initCache_separated c exeName hmaps)

/-! ## Ranges that come back -/

/-- A client without readable memory; what is read does not matter to the order. -/
def unreadableClient : Client where
  byte _ _ := none
  user _ _ h := by cases h
  stale _ := 0

/-- The heap grows and a file is mapped next to a mapped executable. -/
def growingRun : List (Nat × BpfEvent) :=
  [(1, .brk 0x9000), (2, .brk 0xb000), (2, .mmapEntry 0x2000), (2, .mmapExit 0x70000),
   (3, .pagefault 0x70010), (4, .munmap 0x70000)]

theorem bpfCallbacks_searchable_growing :
    (∀ st ∈ bpfCallbacks unreadableClient (.start (initCache unreadableClient "a.out"
        [⟨0x4000, 0x5000, "rw-p", some "a.out"⟩])) growingRun, st.Searchable) ↔
      AllFresh unreadableClient (.start (initCache unreadableClient "a.out"
        [⟨0x4000, 0x5000, "rw-p", some "a.out"⟩])) growingRun :=
  bpfCallbacks_searchable_iff unreadableClient "a.out"
    ⟨by simp [addressSpace], List.pairwise_singleton _ _⟩ growingRun

/-- The mappings of the client as the kernel keeps them: ranges `[start, end)`, the
size of the `mmap` under way, and the end of the heap. -/
structure KernelMap where
  mapped : List (Nat × Nat)
  size : Nat
  heapEnd : Nat

/-- Nothing is mapped between the two addresses. -/
def KernelMap.free (k : KernelMap) (start stop : Nat) : Bool :=
  k.mapped.all fun m => decide (m.2 ≤ start) || decide (stop ≤ m.1)

/-- The events are those of a kernel that hands out unmapped ranges only; a failed
`mmap` returns a negative errno, one of the last 4095 addresses. -/
def KernelMap.allows : KernelMap → List (Nat × BpfEvent) → Bool
  | _, [] => true
  | k, (_, .mmapEntry size) :: rest => KernelMap.allows { k with size } rest
  | k, (_, .mmapExit address) :: rest =>
      if addressSpace - 4096 < address then KernelMap.allows k rest
      else k.free address (address + k.size) && KernelMap.allows
        { k with mapped := (address, address + k.size) :: k.mapped } rest
  | k, (_, .munmap address) :: rest =>
      KernelMap.allows { k with mapped := k.mapped.filter fun m => m.1 != address } rest
  | k, (_, .brk address) :: rest =>
      k.free k.heapEnd address && KernelMap.allows
        { k with mapped := (k.heapEnd, address) :: k.mapped, heapEnd := address } rest
  | k, _ :: rest => KernelMap.allows k rest

/-- A range that is mapped, unmapped and mapped again. -/
def remappingRun : List (Nat × BpfEvent) :=
  [(1, .mmapEntry 0x1000), (1, .mmapExit 0x70000), (2, .munmap 0x70000),
   (3, .mmapEntry 0x1000), (3, .mmapExit 0x70000)]

/-- An `mmap` that fails with `ENOMEM`. -/
def failingRun : List (Nat × BpfEvent) :=
  [(1, .mmapEntry 0x1000), (1, .mmapExit (addressSpace - 12))]

/-- The bounds of the cached regions. -/
def BpfState.bounds (st : BpfState) : List (Nat × Nat) :=
  st.mem.cache.map fun r => (r.start, r.stop)

theorem BpfState.Searchable.bounds {st : BpfState} (h : st.Searchable) :
    (∀ b ∈ st.bounds, b.1 < b.2) ∧ st.bounds.Pairwise fun a b => a.2 ≤ b.1 ∨ b.2 ≤ a.1 := by
  refine ⟨fun b hb => ?_, List.pairwise_map.mpr h.disjoint⟩
  obtain ⟨r, hr, rfl⟩ := List.mem_map.mp hb
  exact h.nonempty r hr

/-- Both runs are possible, and both end with a region array that is not in order:
twice the same range, and a range that ends before it starts. -/
theorem remapped_range_overlaps :
    KernelMap.allows ⟨[], 0, 0⟩ remappingRun = true ∧
      (∃ st ∈ bpfCallbacks unreadableClient (.start .init) remappingRun,
        st.bounds = [(0x70000, 0x71000), (0x70000, 0x71000)] ∧ ¬ st.Searchable) ∧
    KernelMap.allows ⟨[], 0, 0⟩ failingRun = true ∧
      ∃ st ∈ bpfCallbacks unreadableClient (.start .init) failingRun,
        st.bounds = [(2 ^ 64 - 12, 0x1000 - 12)] ∧ ¬ st.Searchable := by
  have remapped : ((bpfCallbacks unreadableClient (.start .init) remappingRun).getLast
      (by simp [bpfCallbacks, remappingRun])).bounds =
        [(0x70000, 0x71000), (0x70000, 0x71000)] := by
    simp [bpfCallbacks, remappingRun, bpfCallback, BpfState.start, MemState.init,
      BpfState.bounds, Intervals.insert, addressSpace]
  have failed : ((bpfCallbacks unreadableClient (.start .init) failingRun).getLast
      (by simp [bpfCallbacks, failingRun])).bounds = [(2 ^ 64 - 12, 0x1000 - 12)] := by
    simp [bpfCallbacks, failingRun, bpfCallback, BpfState.start, MemState.init,
      BpfState.bounds, Intervals.insert, addressSpace]
  refine ⟨by decide, ⟨_, List.getLast_mem _, remapped, fun h => ?_⟩, by decide,
    ⟨_, List.getLast_mem _, failed, fun h => ?_⟩⟩
  · have := h.bounds.2
    rw [remapped] at this
    revert this
    decide
  · have := h.bounds.1
    rw [failed] at this
    revert this
    decide

end FlightRec
