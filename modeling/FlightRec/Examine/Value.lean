/-
# `FlightRec.Examine.Value` — memory at a past step

`get_var_value` of examine/vars.c selects, for every stored segment address near
the range it wants, the latest content stored up to a step, and copies the parts
of these segments that fall into the range one behind the other.

Addresses are unsigned in C and signed in SQLite; the segments stored by Record
are at user space addresses, where the two agree.
-/
import FlightRec.Lib.Chunks
import FlightRec.Lib.Query
import FlightRec.Record.MemCache

namespace FlightRec

open Query Chunks

/-! ## `get_var_value` -/

/-- The rows of table `mem` between the two addresses, as signed values, up to a step. -/
def memRows (mem : List MemMsg) (addr size step : Nat) : List MemMsg :=
  mem.filter fun m => m.stepId ≤ step ∧
    toSigned m.address ≤ toSigned (addr + size) ∧
    toSigned (addr + (addressSpace - memSegmentSize)) ≤ toSigned m.address

/-- `GROUP BY address HAVING step_id = MAX(step_id)`, addresses ascending. -/
def latestSegments (mem : List MemMsg) (addr size step : Nat) : List MemMsg :=
  orderBy (fun m => toSigned m.address)
    (latestPerGroup MemMsg.address MemMsg.stepId (memRows mem addr size step))

/-- Subtraction of `ULONG`s. -/
def ulongSub (a b : Nat) : Nat := (a + (addressSpace - b % addressSpace)) % addressSpace

/-- What the fetch loop copies of one segment. -/
def copySegment (addr size : Nat) (m : MemMsg) : List UInt8 :=
  let chunkStop := (m.address + memSegmentSize) % addressSpace
  let stop := (addr + size) % addressSpace
  let toCopy := if stop < chunkStop then ulongSub memSegmentSize (ulongSub chunkStop stop)
    else memSegmentSize
  if m.address < addr then
    (m.content.drop (addr - m.address)).take (ulongSub toCopy (addr - m.address))
  else m.content.take toCopy

/-- `get_var_value`: the copied bytes in a buffer of `size + 1` zeroed bytes. -/
def getVarValue (mem : List MemMsg) (addr size step : Nat) : List UInt8 :=
  let copied := (latestSegments mem (addr % addressSpace) size step).flatMap
    (copySegment (addr % addressSpace) size)
  copied ++ List.replicate (size + 1 - copied.length) 0

/-! ## What is copied -/

theorem ulongSub_of_le {a b : Nat} (ha : a < addressSpace) (h : b ≤ a) : ulongSub a b = a - b := by
  unfold ulongSub
  unfold addressSpace at *
  omega

theorem copySegment_eq {addr size : Nat} {m : MemMsg} (hm : m.address < 2 ^ 56)
    (hsize : addr + size < 2 ^ 57) (hlo : addr ≤ m.address + memSegmentSize)
    (hhi : m.address ≤ addr + size) :
    copySegment addr size m = (m.content.drop (addr - m.address)).take
      (min (m.address + memSegmentSize) (addr + size) - max m.address addr) := by
  have hstop : (addr + size) % addressSpace = addr + size :=
    Nat.mod_eq_of_lt (by unfold addressSpace; omega)
  have hchunk : (m.address + memSegmentSize) % addressSpace = m.address + memSegmentSize :=
    Nat.mod_eq_of_lt (by unfold addressSpace memSegmentSize; omega)
  have hcopy : (if addr + size < m.address + memSegmentSize
      then ulongSub memSegmentSize (ulongSub (m.address + memSegmentSize) (addr + size))
      else memSegmentSize) = min (m.address + memSegmentSize) (addr + size) - m.address := by
    split
    · have hover : ulongSub (m.address + memSegmentSize) (addr + size) =
          m.address + memSegmentSize - (addr + size) :=
        ulongSub_of_le (by unfold addressSpace memSegmentSize; omega) (by omega)
      rw [hover, ulongSub_of_le (by unfold addressSpace memSegmentSize; omega) (by omega)]
      omega
    · omega
  simp only [copySegment, hstop, hchunk, hcopy]
  by_cases hbefore : m.address < addr
  · rw [if_pos hbefore, Nat.max_eq_right (Nat.le_of_lt hbefore)]
    by_cases hinside : addr ≤ min (m.address + memSegmentSize) (addr + size)
    · rw [ulongSub_of_le (by unfold addressSpace memSegmentSize at *; omega) (by omega)]
      congr 1
      omega
    · omega
  · rw [if_neg hbefore, Nat.max_eq_left (Nat.le_of_not_lt hbefore),
      Nat.sub_eq_zero_of_le (Nat.le_of_not_lt hbefore), List.drop_zero]

/-- If the segment holds `f`, that part of it is `f`. -/
theorem copySegment_eq_clip {addr size : Nat} {m : MemMsg} {f : Nat → UInt8}
    (hm : m.address < 2 ^ 56) (hsize : addr + size < 2 ^ 57)
    (hlo : addr ≤ m.address + memSegmentSize) (hhi : m.address ≤ addr + size)
    (hcontent : addr < m.address + memSegmentSize → m.address < addr + size →
      m.content = (List.range memSegmentSize).map fun j => f (m.address + j)) :
    copySegment addr size m = clip f memSegmentSize addr (addr + size) m.address := by
  rw [copySegment_eq hm hsize hlo hhi]
  by_cases hin : addr < m.address + memSegmentSize ∧ m.address < addr + size
  · rw [hcontent hin.1 hin.2, clip, slice, ← List.map_drop, ← List.map_take]
    refine List.ext_getElem ?_ fun i hi hi' => ?_
    · simp only [List.length_map, List.length_take, List.length_drop, List.length_range,
        List.length_range']
      omega
    · simp only [List.getElem_map, List.getElem_take, List.getElem_drop, List.getElem_range,
        List.getElem_range']
      congr 1
      omega
  · rw [clip_empty (by omega)]
    have hzero : min (m.address + memSegmentSize) (addr + size) - max m.address addr = 0 := by
      omega
    rw [hzero, List.take_zero]

/-! ## Which rows are copied -/

theorem toSigned_lower {addr : Nat} (h : addr < 2 ^ 57) :
    toSigned (addr + (addressSpace - memSegmentSize)) = (addr : Int) - memSegmentSize := by
  unfold toSigned addressSpace memSegmentSize
  by_cases hlt : addr < 32
  · rw [Nat.mod_eq_of_lt (by omega), if_neg (by omega)]
    omega
  · have hmod : (addr + (2 ^ 64 - 32)) % 2 ^ 64 = addr - 32 := by omega
    rw [hmod, if_pos (by omega)]
    omega

section
variable {mem : List MemMsg} {addr size step : Nat} {m : MemMsg}

theorem mem_memRows (haddr : addr < 2 ^ 57) (hsize : addr + size < 2 ^ 57)
    (hm : m.address < 2 ^ 56) :
    m ∈ memRows mem addr size step ↔ m ∈ mem ∧ m.stepId ≤ step ∧
      m.address ≤ addr + size ∧ addr ≤ m.address + memSegmentSize := by
  rw [memRows, List.mem_filter, decide_eq_true_eq, toSigned_lower haddr,
    toSigned_of_lt (by omega : m.address < 2 ^ 63),
    toSigned_of_lt (by omega : addr + size < 2 ^ 63)]
  constructor <;> rintro ⟨hmem, hstep, h1, h2⟩ <;> exact ⟨hmem, hstep, by omega, by omega⟩

theorem memRows_far (hfar : 2 ^ 57 ≤ addr) (haddr : addr < addressSpace)
    (hm : m.address < 2 ^ 56) : m ∉ memRows mem addr 0 step := by
  intro h
  obtain ⟨_, hcond⟩ := List.mem_filter.mp h
  simp only [decide_eq_true_eq, Nat.add_zero] at hcond
  obtain ⟨_, hhi, hlo⟩ := hcond
  rw [toSigned_of_lt (by omega : m.address < 2 ^ 63)] at hhi hlo
  by_cases hneg : addr < 2 ^ 63
  · have hmod : (addr + (addressSpace - memSegmentSize)) % addressSpace = addr - 32 := by
      unfold addressSpace memSegmentSize at *
      omega
    rw [toSigned, hmod, if_pos (by omega)] at hlo
    omega
  · rw [toSigned, Nat.mod_eq_of_lt haddr, if_neg hneg] at hhi
    unfold addressSpace at *
    omega

end

/-- What a table of segments has to hold for `f` to be read back up to a step:
aligned user space segments, one wherever the range is touched, and of these the
latest with the content of `f`. -/
structure Stored (mem : List MemMsg) (step : Nat) (f : Nat → UInt8) (addr size : Nat) : Prop where
  aligned : ∀ m ∈ mem, m.stepId ≤ step → m.address % memSegmentSize = 0 ∧ m.address < 2 ^ 56
  present : ∀ c, c % memSegmentSize = 0 → c < addr + size → addr < c + memSegmentSize →
    ∃ m ∈ mem, m.stepId ≤ step ∧ m.address = c
  latest : ∀ m ∈ mem, m.stepId ≤ step →
    addr < m.address + memSegmentSize → m.address < addr + size →
    (∀ m' ∈ mem, m'.stepId ≤ step → m'.address = m.address → m'.stepId ≤ m.stepId) →
    m.content = (List.range memSegmentSize).map fun j => f (m.address + j)

theorem mem_latestSegments {mem : List MemMsg} {addr size step : Nat} {m : MemMsg}
    (h : m ∈ latestSegments mem addr size step) :
    m ∈ memRows mem addr size step ∧
      ∀ m' ∈ memRows mem addr size step, m'.address = m.address → m'.stepId ≤ m.stepId :=
  mem_latestPerGroup (mem_orderBy.mp h)

theorem latestSegments_nil {mem : List MemMsg} {addr size step : Nat} :
    latestSegments mem addr size step = [] ↔ memRows mem addr size step = [] := by
  constructor
  · intro hnil
    refine List.eq_nil_iff_forall_not_mem.mpr fun m hm => ?_
    obtain ⟨m', hm', _⟩ : ∃ m' ∈ latestPerGroup MemMsg.address MemMsg.stepId
      (memRows mem addr size step), m'.address = m.address := exists_latestPerGroup hm
    have hmem : m' ∈ latestSegments mem addr size step := mem_orderBy.mpr hm'
    rw [hnil] at hmem
    cases hmem
  · intro hnil
    rw [latestSegments, hnil]
    rfl

section
variable {mem : List MemMsg} {addr size step : Nat} {m : MemMsg}
  (haligned : ∀ m ∈ mem, m.stepId ≤ step → m.address % memSegmentSize = 0 ∧ m.address < 2 ^ 56)
  (hsize : addr + size < 2 ^ 57)
include haligned hsize

theorem row_of_memRows (hm : m ∈ memRows mem addr size step) :
    (m.address % memSegmentSize = 0 ∧ m.address < 2 ^ 56) ∧ m.stepId ≤ step ∧
      m.address ≤ addr + size ∧ addr ≤ m.address + memSegmentSize := by
  obtain ⟨hmem, hcond⟩ := List.mem_filter.mp hm
  simp only [decide_eq_true_eq] at hcond
  have halign := haligned m hmem hcond.1
  exact ⟨halign, ((mem_memRows (by omega) hsize halign.2).mp hm).2⟩

theorem latestSegments_sorted :
    ((latestSegments mem addr size step).map (·.address)).Pairwise (· < ·) := by
  have hrow {m : MemMsg} (hm : m ∈ latestPerGroup MemMsg.address MemMsg.stepId
      (memRows mem addr size step)) : m.address < 2 ^ 56 :=
    (row_of_memRows haligned hsize (mem_latestPerGroup hm).1).1.2
  have hnodup : ((latestPerGroup MemMsg.address MemMsg.stepId
      (memRows mem addr size step)).map fun m => toSigned m.address).Nodup := by
    have hgroups : ((latestPerGroup MemMsg.address MemMsg.stepId
      (memRows mem addr size step)).map MemMsg.address).Nodup := latestPerGroup_nodup
    refine List.pairwise_map.mpr ((List.pairwise_map.mp hgroups).imp_of_mem
      fun {a b} ha hb hne heq => hne ?_)
    have ha := hrow ha
    have hb := hrow hb
    rw [toSigned_of_lt (by omega), toSigned_of_lt (by omega)] at heq
    omega
  refine List.pairwise_map.mpr ((orderBy_strict hnodup).imp_of_mem fun {a b} ha hb hlt => ?_)
  have ha := hrow (mem_orderBy.mp ha)
  have hb := hrow (mem_orderBy.mp hb)
  rw [toSigned_of_lt (by omega), toSigned_of_lt (by omega)] at hlt
  omega

theorem latestSegments_aligned :
    ∀ c ∈ (latestSegments mem addr size step).map (·.address), c % memSegmentSize = 0 := by
  intro c hc
  obtain ⟨m, hm, rfl⟩ := List.mem_map.mp hc
  exact (row_of_memRows haligned hsize (mem_latestSegments hm).1).1.1

theorem exists_latestSegments (hmem : m ∈ mem) (hstep : m.stepId ≤ step)
    (hhi : m.address ≤ addr + size) (hlo : addr ≤ m.address + memSegmentSize) :
    m.address ∈ (latestSegments mem addr size step).map (·.address) := by
  have hrows : m ∈ memRows mem addr size step :=
    (mem_memRows (by omega) hsize (haligned m hmem hstep).2).mpr ⟨hmem, hstep, hhi, hlo⟩
  obtain ⟨m', hm', haddr'⟩ : ∃ m' ∈ latestPerGroup MemMsg.address MemMsg.stepId
      (memRows mem addr size step), m'.address = m.address := exists_latestPerGroup hrows
  exact List.mem_map.mpr ⟨m', mem_orderBy.mpr hm', haddr'⟩

end

theorem Stored.flatMap_copySegment {mem : List MemMsg} {addr size step : Nat} {f : Nat → UInt8}
    (h : Stored mem step f addr size) (hsize : addr + size < 2 ^ 57) :
    (latestSegments mem addr size step).flatMap (copySegment addr size) =
      slice f addr (addr + size) := by
  have hcopy : ∀ m ∈ latestSegments mem addr size step, copySegment addr size m =
      clip f memSegmentSize addr (addr + size) m.address := by
    intro m hm
    obtain ⟨hm, hmax⟩ := mem_latestSegments hm
    obtain ⟨⟨_, hlt⟩, hstep, hhi, hlo⟩ := row_of_memRows h.aligned hsize hm
    refine copySegment_eq_clip hlt hsize hlo hhi fun h1 h2 => ?_
    refine h.latest m (List.mem_filter.mp hm).1 hstep h1 h2 fun m' hm' hstep' haddr' => ?_
    refine hmax m' ?_ haddr'
    exact (mem_memRows (by omega) hsize (haddr' ▸ hlt)).mpr
      ⟨hm', hstep', haddr' ▸ hhi, haddr' ▸ hlo⟩
  have hmap : (latestSegments mem addr size step).flatMap (copySegment addr size) =
      ((latestSegments mem addr size step).map (·.address)).flatMap
        (clip f memSegmentSize addr (addr + size)) := by
    rw [List.flatMap_map]
    exact List.flatMap_congr hcopy
  rw [hmap]
  refine flatMap_clip (by decide) (latestSegments_sorted h.aligned hsize)
    (latestSegments_aligned h.aligned hsize) fun c haligned hhi hlo => ?_
  obtain ⟨m, hm, hstep, rfl⟩ := h.present c haligned hhi hlo
  exact exists_latestSegments h.aligned hsize hm hstep hhi.le hlo.le

theorem getVarValue_of_copied {mem : List MemMsg} {addr size step : Nat} {f : Nat → UInt8}
    (h : (latestSegments mem (addr % addressSpace) size step).flatMap
      (copySegment (addr % addressSpace) size) = slice f addr (addr + size)) :
    getVarValue mem addr size step = slice f addr (addr + size) ++ [0] := by
  have hlen : (slice f addr (addr + size)).length = size := by
    simp [slice]
  have hrest : size + 1 - size = 1 := by omega
  simp only [getVarValue, h, hlen, hrest]
  rfl

/-- `get_var_value` reads back what is stored, and a zero behind it. -/
theorem Stored.getVarValue_eq {mem : List MemMsg} {addr size step : Nat} {f : Nat → UInt8}
    (h : Stored mem step f addr size) (hin : addr + size ≤ 2 ^ 56) :
    getVarValue mem addr size step = slice f addr (addr + size) ++ [0] := by
  refine getVarValue_of_copied ?_
  rw [Nat.mod_eq_of_lt (by unfold addressSpace; omega)]
  exact h.flatMap_copySegment (by omega)

theorem getVarValue_empty {mem : List MemMsg} {addr step : Nat} (f : Nat → UInt8)
    (user : ∀ m ∈ mem, m.stepId ≤ step → m.address < 2 ^ 56) :
    getVarValue mem addr 0 step = slice f addr (addr + 0) ++ [0] := by
  refine getVarValue_of_copied ?_
  rw [slice_empty (by omega : addr + 0 ≤ addr), List.flatMap_eq_nil_iff]
  intro m hm
  have hrow := (mem_latestSegments hm).1
  obtain ⟨hmem, hcond⟩ := List.mem_filter.mp hrow
  simp only [decide_eq_true_eq] at hcond
  have hlt := user m hmem hcond.1
  by_cases hnear : addr % addressSpace < 2 ^ 57
  · obtain ⟨_, _, hhi, hlo⟩ := (mem_memRows hnear hnear hlt).mp hrow
    rw [copySegment_eq hlt hnear hlo hhi]
    have hzero : min (m.address + memSegmentSize) (addr % addressSpace + 0) -
        max m.address (addr % addressSpace) = 0 := by omega
    rw [hzero, List.take_zero]
  · exact absurd hrow (memRows_far (by omega) (Nat.mod_lt _ (by decide)) hlt)

end FlightRec
