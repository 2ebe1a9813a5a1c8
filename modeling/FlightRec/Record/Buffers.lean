/-
# `FlightRec.Record.Buffers` — the copies of the cached regions

`cache_add_region` allocates as many bytes for the copy of a region as the region is long,
and then sends the copy in segments of 32 bytes; `process_page` compares a page of the
client with 4096 bytes of the copy, segment by segment.  A copy is over-run where the length
is no multiple of 32, and where the page of a fault, counted from the start of the region,
does not end in it (`buffers_in_bounds_iff`).

The calls are those of `bpf_callback` and `proc_dirty_mem`; `trace` lists them with the
cache each of them finds.
-/
import FlightRec.Lib.Words
import FlightRec.Record.MemCache

namespace FlightRec

open Intervals

/-! ## Calls on the cache -/

/-- A region that is added, or an address that is read from `proc_mem_ch`. -/
inductive CacheOp where
  | addRegion (address size : Nat)
  | pageFault (address : Nat)
  deriving DecidableEq, Repr

/-- A call, with the step it is made at. -/
structure CacheCall where
  step : Nat
  op : CacheOp
  deriving DecidableEq, Repr

/-- One call: `cache_add_region`, or one time through the loop of `proc_dirty_mem`. -/
def CacheCall.run (c : Client) (call : CacheCall) (st : MemState) : MemState :=
  match call.op with
  | .addRegion address size => cacheAddRegion c address size call.step st
  | .pageFault address => procDirtyMem c call.step [address] st

/-- A run of calls. -/
def runCache (c : Client) (calls : List CacheCall) (st : MemState) : MemState :=
  calls.foldl (fun st call => call.run c st) st

/-- A call and the state it is made in. -/
structure Made where
  call : CacheCall
  before : MemState

/-- The calls of a run with the states they are made in. -/
def trace (c : Client) : List CacheCall → MemState → List Made
  | [], _ => []
  | call :: rest, st => ⟨call, st⟩ :: trace c rest (call.run c st)

theorem runCache_cons (c : Client) (call : CacheCall) (rest : List CacheCall) (st : MemState) :
    runCache c (call :: rest) st = runCache c rest (call.run c st) := rfl

/-! ## Accesses -/

/-- What is allocated for the copy: `size`, when `end` was computed as `address + size`. -/
def Region.allocated (r : Region) : Nat := (r.stop + (addressSpace - r.start)) % addressSpace

/-- 32 bytes of a copy that are read or written, and how long the copy is. -/
structure Access where
  offset : Int
  allocated : Nat
  deriving DecidableEq, Repr

/-- The bytes are in the copy. -/
def Access.InBounds (x : Access) : Prop := 0 ≤ x.offset ∧ x.offset + memSegmentSize ≤ x.allocated

/-- The region and the page `proc_dirty_mem` calls `process_page` with, if 32 bytes of the
page can be read.  In `find_page` the number of the page is an `int`. -/
def readPage (c : Client) (step : Nat) (cache : List Region) (address : Nat) :
    Option (Region × Int) :=
  match findPage cache address with
  | none => none
  | some (index, pageNum) =>
      match cache[index]? with
      | none => none
      | some region =>
          let page := toInt pageNum
          let pageAddress := toUInt64 (region.start + page * pageSize)
          if pageAddress = 0 then none
          else if (c.readv step pageAddress pageSize).1 < memSegmentSize then none
          else some (region, page)

/-- The accesses of the loops that follow the reading of the client. -/
def Made.accesses (c : Client) (m : Made) : List Access :=
  match m.call.op with
  | .addRegion address size =>
      if (c.readv m.call.step address size).1 < toSigned size then []
      else (List.range ((size + (memSegmentSize - 1)) / memSegmentSize)).map fun (i : Nat) =>
        { offset := (memSegmentSize * i : Nat), allocated := size }
  | .pageFault address =>
      match readPage c m.call.step m.before.cache address with
      | none => []
      | some (region, page) => (List.range pageSegments).map fun (k : Nat) =>
          { offset := page * pageSize + (memSegmentSize * k : Nat),
            allocated := region.allocated }

/-- A region that is read in full has whole segments, and a page that is read is within
the length of its region. -/
def Made.Fits (c : Client) (m : Made) : Prop :=
  match m.call.op with
  | .addRegion address size =>
      toSigned size ≤ (c.readv m.call.step address size).1 → memSegmentSize ∣ size
  | .pageFault address =>
      ∀ region page, readPage c m.call.step m.before.cache address = some (region, page) →
        0 ≤ page ∧ (page + 1) * pageSize ≤ region.allocated

theorem readPage_found {c : Client} {step address index pageNum : Nat} {cache : List Region}
    {region : Region} (hfind : findPage cache address = some (index, pageNum))
    (hregion : cache[index]? = some region) :
    readPage c step cache address =
      if toUInt64 (region.start + toInt pageNum * pageSize) = 0 then none
      else if (c.readv step (toUInt64 (region.start + toInt pageNum * pageSize)) pageSize).1 <
        memSegmentSize then none
      else some (region, toInt pageNum) := by
  unfold readPage
  rw [hfind]
  dsimp only
  rw [hregion]

/-! ## What is allocated -/

theorem allocated_added {address size : Nat} (hsize : size < addressSpace)
    (haddress : address < addressSpace) (pages : Nat → UInt8) :
    Region.allocated ⟨address, (address + size) % addressSpace, pages⟩ = size := by
  unfold Region.allocated addressSpace at *
  dsimp only
  omega

theorem procDirtyMem_bounds (c : Client) (step address : Nat) (st : MemState) :
    (procDirtyMem c step [address] st).cache.map (fun r => (r.start, r.stop)) =
      st.cache.map fun r => (r.start, r.stop) := by
  simp only [procDirtyMem]
  split
  · rfl
  · split
    · rfl
    · exact processPage_bounds c _ _ step st

theorem runCache_allocated {c : Client} : ∀ {calls : List CacheCall} {st : MemState},
    (∀ call ∈ calls, ∀ address size, call.op = .addRegion address size →
      address < addressSpace ∧ size < addressSpace) →
    ∀ r ∈ (runCache c calls st).cache,
      (∃ r₀ ∈ st.cache, r₀.start = r.start ∧ r₀.stop = r.stop) ∨
        ∃ call ∈ calls, call.op = .addRegion r.start r.allocated
  | [], _, _, r, hr => Or.inl ⟨r, hr, rfl, rfl⟩
  | call :: rest, st, hwords, r, hr => by
      rw [runCache_cons] at hr
      rcases runCache_allocated (fun x hx => hwords x (List.mem_cons_of_mem _ hx)) r hr with
        ⟨r₀, hr₀, hstart, hstop⟩ | ⟨x, hx, hop⟩
      · cases hop : call.op with
        | addRegion address size =>
            obtain ⟨haddress, hsize⟩ := hwords call List.mem_cons_self address size hop
            rw [CacheCall.run, hop] at hr₀
            dsimp only at hr₀
            rw [cacheAddRegion_cache, mem_insert] at hr₀
            rcases hr₀ with rfl | hr₀
            · refine Or.inr ⟨call, List.mem_cons_self, ?_⟩
              have hlength : r.allocated = size := by
                rw [← allocated_added hsize haddress r.pages]
                unfold Region.allocated
                rw [← hstart, ← hstop]
              rw [hop, ← hstart, hlength]
            · exact Or.inl ⟨r₀, hr₀, hstart, hstop⟩
        | pageFault address =>
            rw [CacheCall.run, hop] at hr₀
            have hmem : (r₀.start, r₀.stop) ∈ st.cache.map fun r => (r.start, r.stop) := by
              rw [← procDirtyMem_bounds c call.step address st]
              exact List.mem_map.mpr ⟨r₀, hr₀, rfl⟩
            obtain ⟨r₁, hr₁, heq⟩ := List.mem_map.mp hmem
            rw [Prod.mk.injEq] at heq
            exact Or.inl ⟨r₁, hr₁, heq.1.trans hstart, heq.2.trans hstop⟩
      · exact Or.inr ⟨x, List.mem_cons_of_mem _ hx, hop⟩

/-! ## One call -/

/-- All segments of a length are whole exactly if the last one is. -/
theorem segments_whole_iff (size : Nat) :
    (∀ i < (size + (memSegmentSize - 1)) / memSegmentSize,
      memSegmentSize * i + memSegmentSize ≤ size) ↔ memSegmentSize ∣ size := by
  unfold memSegmentSize
  constructor
  · intro h
    by_contra hrest
    have := h (size / 32) (by omega)
    omega
  · rintro ⟨n, rfl⟩ i hi
    omega

/-- **One call** stays within the copy exactly if it fits. -/
theorem accesses_in_bounds_iff (c : Client) (m : Made) :
    (∀ x ∈ m.accesses c, x.InBounds) ↔ m.Fits c := by
  obtain ⟨⟨step, op⟩, st⟩ := m
  cases op with
  | addRegion address size =>
      unfold Made.accesses Made.Fits
      dsimp only
      by_cases hread : (c.readv step address size).1 < toSigned size
      · rw [if_pos hread]
        exact iff_of_true (fun x hx => (List.not_mem_nil hx).elim)
          fun hfull => absurd hread (by omega)
      · rw [if_neg hread, List.forall_mem_map, ← segments_whole_iff]
        constructor
        · intro h _ i hi
          have hbound := (h i (List.mem_range.mpr hi)).2
          dsimp only at hbound
          omega
        · intro h i hi
          have hbound := h (by omega) i (List.mem_range.mp hi)
          constructor
          · dsimp only
            omega
          · dsimp only
            omega
  | pageFault address =>
      unfold Made.accesses Made.Fits
      dsimp only
      cases hpage : readPage c step st.cache address with
      | none =>
          exact iff_of_true (fun x hx => (List.not_mem_nil hx).elim) fun _ _ h => nomatch h
      | some found =>
          obtain ⟨region, page⟩ := found
          dsimp only
          rw [List.forall_mem_map]
          constructor
          · intro h region' page' heq
            cases heq
            -- the first segment gives the lower bound, the last one the upper
            have hfirst := (h 0 (by decide)).1
            have hlast := (h 127 (by decide)).2
            dsimp only [memSegmentSize, pageSize] at hfirst hlast ⊢
            constructor
            · omega
            · omega
          · intro h k hk
            obtain ⟨hlow, hhigh⟩ := h region page rfl
            have hk := List.mem_range.mp hk
            dsimp only [Access.InBounds, memSegmentSize, pageSegments, pageSize] at hk hlow hhigh ⊢
            constructor
            · omega
            · omega

/-! ## Runs -/

/-- **Region buffers are never over-run** in a run of additions and page faults exactly if
every region that is read in full is a number of whole segments long, and every page that
is read lies within its region. -/
theorem buffers_in_bounds_iff (c : Client) (calls : List CacheCall) :
    (∀ m ∈ trace c calls .init, ∀ x ∈ m.accesses c, x.InBounds) ↔
      ∀ m ∈ trace c calls .init, m.Fits c :=
  forall₂_congr fun m _ => accesses_in_bounds_iff c m

/-! ### Examples -/

/-- A client whose user space is all zeros. -/
def zeroClient : Client where
  byte _ address := if address < 2 ^ 56 then some 0 else none
  user _ address h := by
    by_contra hge
    rw [if_neg hge] at h
    cases h
  stale _ := 0

theorem zeroClient_readv {step address size : Nat} (h : address + size ≤ 2 ^ 56) :
    (zeroClient.readv step address size).1 = size := by
  have hall : zeroClient.readable step address size = size := by
    unfold Client.readable
    rw [List.takeWhile_eq_self_iff.mpr, List.length_range]
    intro i hi
    have := List.mem_range.mp hi
    show (if address + i < 2 ^ 56 then some (0 : UInt8) else none).isSome = true
    rw [if_pos (by omega)]
    rfl
  unfold Client.readv
  dsimp only
  rw [hall, if_neg (fun hz => hz.2 hz.1)]

theorem findPage_single {start stop address : Nat} (pages : Nat → UInt8) (hlo : start ≤ address)
    (hhi : address < stop) :
    findPage [⟨start, stop, pages⟩] address = some (0, (address - start) / pageSize) := by
  have sep : Separated Region.start Region.stop [⟨start, stop, pages⟩] :=
    ⟨fun r hr => by
      cases List.mem_singleton.mp hr
      exact Nat.lt_of_le_of_lt hlo hhi, List.pairwise_singleton _ _⟩
  have hsearch := (search_eq_some_iff sep (x := address) (i := 0)).mpr ⟨Nat.one_pos, hlo, hhi⟩
  unfold findPage
  rw [hsearch, Option.bind_some, List.getElem?_cons_zero, Option.map_some]

theorem readPage_zeroClient (pages : Nat → UInt8) :
    readPage zeroClient 2 [⟨0x70000, 0x71020, pages⟩] 0x71000 =
      some (⟨0x70000, 0x71020, pages⟩, 1) := by
  have hfind : findPage [⟨0x70000, 0x71020, pages⟩] 0x71000 = some (0, 1) := by
    rw [findPage_single pages (by omega) (by omega)]
    unfold pageSize
    rfl
  have haddress : toUInt64 ((0x70000 : Nat) + toInt 1 * pageSize) = 0x71000 := by
    rw [toInt_of_lt (by decide), toUInt64_of_lt]
    · rfl
    · unfold pageSize
      omega
    · unfold pageSize
      omega
  rw [readPage_found hfind rfl, haddress, if_neg (by decide), zeroClient_readv (by decide),
    if_neg (by decide), toInt_of_lt (by decide)]
  rfl

/-- An `mmap` of 100 bytes; and a region of a page and a segment with a fault behind the
page. -/
theorem buffers_over_run :
    (¬ ∀ m ∈ trace zeroClient [⟨1, .addRegion 0x70000 100⟩] .init,
      ∀ x ∈ m.accesses zeroClient, x.InBounds) ∧
    ¬ ∀ m ∈ trace zeroClient [⟨1, .addRegion 0x70000 4128⟩, ⟨2, .pageFault 0x71000⟩] .init,
      ∀ x ∈ m.accesses zeroClient, x.InBounds := by
  constructor
  · intro h
    have hfits := (accesses_in_bounds_iff zeroClient _).mp (h _ List.mem_cons_self)
    have hfull : toSigned 100 ≤ (zeroClient.readv 1 0x70000 100).1 := by
      rw [zeroClient_readv (by decide)]
      decide
    exact absurd (hfits hfull) (by decide)
  · intro h
    have hfits := (accesses_in_bounds_iff zeroClient _).mp
      (h _ (List.mem_cons_of_mem _ List.mem_cons_self))
    have hcache : (CacheCall.run zeroClient ⟨1, .addRegion 0x70000 4128⟩ .init).cache =
        [⟨0x70000, 0x71020, (zeroClient.readv 1 0x70000 4128).2⟩] := by
      rw [CacheCall.run]
      simp [MemState.init, Intervals.insert, addressSpace]
    have hpage := readPage_zeroClient (zeroClient.readv 1 0x70000 4128).2
    rw [← hcache] at hpage
    obtain ⟨_, hend⟩ := hfits _ _ hpage
    exact absurd hend (by decide)

end FlightRec
