/-
# `FlightRec.Record.MemCache` — Record's copy of the client's memory

record/memcache.c keeps a sorted array of memory regions, each with a copy of
its content.  `cache_add_region` adds a region and stores all of it;
`process_page` reads a page again and stores the 32-byte segments that differ
from the copy; `proc_dirty_mem` does so for the pages of the faulted addresses
that `find_page` finds.  What is stored goes to the worker of table `mem` as one
message a segment, in order.

A cached page is named by the index of its region and its number in it, which is
what `find_page` computes its pointer from.  The client's memory is a function of
the step: it stands still while a stop is processed.
-/
import FlightRec.Lib.Intervals
import Mathlib.Algebra.Group.Nat.Defs
import Mathlib.Data.List.Range

namespace FlightRec

/-! ## Sizes -/

/-- `MEM_SEGMENT_SIZE`: the unit in which memory is compared and stored. -/
def memSegmentSize : Nat := 32

/-- `PAGE_SIZE`. -/
def pageSize : Nat := 4096

/-- The segments of a page. -/
def pageSegments : Nat := pageSize / memSegmentSize

/-- Number of addresses; address arithmetic is done modulo this. -/
def addressSpace : Nat := 2 ^ 64

/-- An unsigned 64-bit value read as a signed one. -/
def toSigned (n : Nat) : Int :=
  if n % addressSpace < 2 ^ 63 then (n % addressSpace : Nat)
  else (n % addressSpace : Nat) - (addressSpace : Int)

theorem toSigned_of_lt {n : Nat} (h : n < 2 ^ 63) : toSigned n = n := by
  have hmod : n % addressSpace = n := Nat.mod_eq_of_lt (by unfold addressSpace; omega)
  rw [toSigned, hmod, if_pos h]

/-! ## The client -/

/-- The memory of the client as `process_vm_readv` sees it: what a byte is at a
step, or `none` if it cannot be read.  Only user space can be read, which ends
below 2⁵⁶.  `stale` is what a buffer holds before anything is read into it. -/
structure Client where
  byte : Nat → Nat → Option UInt8
  user : ∀ step address, (byte step address).isSome → address < 2 ^ 56
  stale : Nat → UInt8

/-- How many bytes can be read from `address` before the first that cannot. -/
def Client.readable (c : Client) (step address size : Nat) : Nat :=
  ((List.range size).takeWhile fun i => (c.byte step (address + i)).isSome).length

/-- `process_vm_readv`: the returned count (-1 if nothing can be read) and the buffer. -/
def Client.readv (c : Client) (step address size : Nat) : Int × (Nat → UInt8) :=
  let n := c.readable step address size
  (if n = 0 ∧ size ≠ 0 then -1 else n,
    fun i => if i < n then (c.byte step (address + i)).getD 0 else c.stale i)

/-! ## The cache -/

/-- `struct region`: `[start, stop)` and the copy of its content, by offset. -/
structure Region where
  start : Nat
  stop : Nat
  pages : Nat → UInt8

/-- `struct insert_mem_msg`: one segment of memory as of a step. -/
structure MemMsg where
  address : Nat
  stepId : Nat
  content : List UInt8
  deriving DecidableEq, Repr

/-- The region array and the messages written to `insert_mem_ch` so far. -/
structure MemState where
  cache : List Region
  log : List MemMsg

/-- Nothing cached, nothing stored. -/
def MemState.init : MemState := { cache := [], log := [] }

/-- The 32 bytes of a buffer from an offset on. -/
def segment (buffer : Nat → UInt8) (offset : Nat) : List UInt8 :=
  (List.range memSegmentSize).map fun j => buffer (offset + j)

theorem segment_eq_iff {f g : Nat → UInt8} {i j : Nat} :
    segment f i = segment g j ↔ ∀ k < memSegmentSize, f (i + k) = g (j + k) := by
  simp [segment, List.map_inj_left]

/-- `cache_add_region`.  A region that cannot be read in full stays in the array
with what has been read of it, but nothing of it is stored. -/
def cacheAddRegion (c : Client) (address size step : Nat) (st : MemState) : MemState :=
  let read := c.readv step address size
  let region : Region :=
    { start := address, stop := (address + size) % addressSpace, pages := read.2 }
  let cache := Intervals.insert Region.start region st.cache
  if read.1 < toSigned size then { st with cache }
  else
    { cache
      log := st.log ++ (List.range ((size + (memSegmentSize - 1)) / memSegmentSize)).map fun i =>
        { address := (address + memSegmentSize * i) % addressSpace, stepId := step,
          content := segment region.pages (memSegmentSize * i) } }

/-- The loop of `process_page` over the first `n` segments: `base` is the offset of
the page in `pages`, and `address` is the client's address of it. -/
def scanSegments (buffer : Nat → UInt8) (address base step : Nat) :
    Nat → (Nat → UInt8) → (Nat → UInt8) × List MemMsg
  | 0, pages => (pages, [])
  | n + 1, pages =>
      let (pages, msgs) := scanSegments buffer address base step n pages
      let offset := memSegmentSize * n
      if segment buffer offset ≠ segment pages (base + offset) then
        -- found changed segment
        (fun o => if base + offset ≤ o ∧ o < base + offset + memSegmentSize
          then buffer (o - base) else pages o,
         msgs ++ [{ address := (address + offset) % addressSpace, stepId := step,
                    content := segment buffer offset }])
      else (pages, msgs)

/-- `process_page` for page `pageNum` of region `index`. -/
def processPage (c : Client) (index pageNum step : Nat) (st : MemState) : MemState :=
  match st.cache[index]? with
  | none => st
  | some region =>
      let address := region.start + pageNum * pageSize
      let read := c.readv step address pageSize
      if read.1 < memSegmentSize then st
      else
        let scan := scanSegments read.2 address (pageNum * pageSize) step
          pageSegments region.pages
        { cache := st.cache.set index { region with pages := scan.1 }, log := st.log ++ scan.2 }

/-- `find_page`: region and page of an address. -/
def findPage (cache : List Region) (address : Nat) : Option (Nat × Nat) :=
  (Intervals.search Region.start Region.stop cache address 0 cache.length).bind fun index =>
    cache[index]?.map fun region => (index, (address - region.start) / pageSize)

/-- `proc_dirty_mem`: the addresses read from `proc_mem_ch`, one after the other.
A page at address 0 counts as not found. -/
def procDirtyMem (c : Client) (step : Nat) : List Nat → MemState → MemState
  | [], st => st
  | address :: rest, st =>
      match findPage st.cache address with
      | none => procDirtyMem c step rest st
      | some (index, pageNum) =>
          if ((st.cache[index]?.map (·.start)).getD 0 + pageNum * pageSize) = 0
          then procDirtyMem c step rest st
          else procDirtyMem c step rest (processPage c index pageNum step st)

/-- A line of `/proc/<pid>/maps`. -/
structure MapsEntry where
  head : Nat
  tail : Nat
  perms : String
  name : Option String
  deriving DecidableEq, Repr

/-- `init_cache` takes readable mappings without a file, the heap, the stack and
those of the executable. -/
def MapsEntry.cached (e : MapsEntry) (exeName : String) : Bool :=
  e.perms.toList.head? == some 'r' &&
    (e.name == none || e.name == some "[heap]" || e.name == some "[stack]" ||
      e.name == some exeName)

/-- `init_cache`. -/
def initCache (c : Client) (exeName : String) (maps : List MapsEntry) : MemState :=
  (maps.filter (·.cached exeName)).foldl
    (fun st e => cacheAddRegion c e.head (e.tail - e.head) 1 st) .init

/-! ## What the functions do to the cache -/

@[simp] theorem cacheAddRegion_cache (c : Client) (address size step : Nat) (st : MemState) :
    (cacheAddRegion c address size step st).cache =
      Intervals.insert Region.start
        { start := address, stop := (address + size) % addressSpace,
          pages := (c.readv step address size).2 } st.cache := by
  unfold cacheAddRegion
  simp only []
  split <;> rfl

theorem processPage_bounds (c : Client) (index pageNum step : Nat) (st : MemState) :
    (processPage c index pageNum step st).cache.map (fun r => (r.start, r.stop)) =
      st.cache.map fun r => (r.start, r.stop) := by
  unfold processPage
  cases h : st.cache[index]? with
  | none => rfl
  | some region =>
      simp only []
      split
      · rfl
      · obtain ⟨hlt, rfl⟩ := List.getElem?_eq_some_iff.mp h
        have hmap : index < (st.cache.map fun r => (r.start, r.stop)).length := by
          rwa [List.length_map]
        have same : (st.cache[index].start, st.cache[index].stop) =
            (st.cache.map fun r => (r.start, r.stop))[index] := by simp
        rw [List.map_set, same, List.set_getElem_self]

end FlightRec
