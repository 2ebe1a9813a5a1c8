/-
# `FlightRec.Examine.Holes` — values of which not all is recorded

`get_var_value` copies the segments that it finds one behind the other.  Its cursor moves on
by what is copied, not to where the next segment belongs; so a segment that was never
recorded closes up, and all that is recorded behind it is moved to the front.

The buffer is right exactly if every recorded byte with a byte that was never recorded
before it is 0 (`getVarValue_placed_iff`); in particular, if what is recorded of the range
is a front part of it.
-/
import FlightRec.Examine.Value
import FlightRec.Lib.Gaps

namespace FlightRec

open Query Chunks

/-- Table `mem` as the recorder fills it: aligned segments of user space. -/
structure Segments (mem : List MemMsg) : Prop where
  aligned : ∀ m ∈ mem, m.address % memSegmentSize = 0
  user : ∀ m ∈ mem, m.address < 2 ^ 56
  whole : ∀ m ∈ mem, m.content.length = memSegmentSize

/-- Specification: the latest row for a segment at or before the step. -/
def latestRow (mem : List MemMsg) (step c : Nat) : Option MemMsg :=
  (mem.filter fun m => m.stepId ≤ step ∧ m.address = c).argmax MemMsg.stepId

/-- Specification: the byte recorded for an address. -/
def recordedByte (mem : List MemMsg) (step a : Nat) : Option UInt8 :=
  (latestRow mem step (a / memSegmentSize * memSegmentSize)).bind fun m =>
    m.content[a % memSegmentSize]?

section
variable {mem : List MemMsg} {step c a : Nat} {m : MemMsg}

theorem latestRow_mem (h : latestRow mem step c = some m) :
    m ∈ mem ∧ m.stepId ≤ step ∧ m.address = c := by
  obtain ⟨hmem, hrow⟩ := List.mem_filter.mp (List.argmax_mem h)
  exact ⟨hmem, by simpa using hrow⟩

theorem latestRow_of_latestSegments {addr size : Nat} (haddr : addr < 2 ^ 57)
    (hsize : addr + size < 2 ^ 57) (h : Segments mem)
    (hm : m ∈ latestSegments mem addr size step) : latestRow mem step m.address = some m := by
  have hrows := (mem_latestSegments hm).1
  obtain ⟨_, _, hhi, hlo⟩ :=
    (mem_memRows haddr hsize (h.user m (List.mem_filter.mp hrows).1)).mp hrows
  have hsame : ((memRows mem addr size step).filter fun r => r.address = m.address) =
      mem.filter fun r => r.stepId ≤ step ∧ r.address = m.address := by
    rw [memRows, List.filter_filter]
    refine List.filter_congr fun r hr => ?_
    have huser := h.user r hr
    rw [← Bool.decide_and, decide_eq_decide]
    constructor
    · rintro ⟨heq, hstep, -⟩
      exact ⟨hstep, heq⟩
    · rintro ⟨hstep, heq⟩
      refine ⟨heq, hstep, ?_⟩
      rw [heq, toSigned_lower haddr, toSigned_of_lt (by omega), toSigned_of_lt (by omega)]
      omega
  rw [latestRow, ← hsame]
  exact argmax_of_latestPerGroup (mem_orderBy.mp hm)

theorem recordedByte_eq (h : Segments mem)
    (hrow : latestRow mem step (a / memSegmentSize * memSegmentSize) = some m) :
    ∃ b, m.content[a % memSegmentSize]? = some b ∧ recordedByte mem step a = some b := by
  have hwhole := h.whole m (latestRow_mem hrow).1
  have hlt : a % memSegmentSize < m.content.length := by
    rw [hwhole]
    exact Nat.mod_lt a (by decide)
  refine ⟨m.content[a % memSegmentSize], List.getElem?_eq_getElem hlt, ?_⟩
  rw [recordedByte, hrow]
  exact List.getElem?_eq_getElem hlt

/-- What is recorded of the memory, with 0 for the rest. -/
def recorded (mem : List MemMsg) (step a : Nat) : UInt8 := (recordedByte mem step a).getD 0

theorem content_eq (h : Segments mem) (hrow : latestRow mem step m.address = some m) :
    m.content = (List.range memSegmentSize).map fun j => recorded mem step (m.address + j) := by
  have hmem := (latestRow_mem hrow).1
  have haligned := h.aligned m hmem
  refine List.ext_getElem (by rw [h.whole m hmem, List.length_map, List.length_range])
    fun i hi _ => ?_
  rw [h.whole m hmem] at hi
  unfold memSegmentSize at hi haligned
  have hsegment : (m.address + i) / memSegmentSize * memSegmentSize = m.address := by
    unfold memSegmentSize
    omega
  have hplace : (m.address + i) % memSegmentSize = i := by
    unfold memSegmentSize
    omega
  obtain ⟨b, hb, hrecorded⟩ := recordedByte_eq h (hsegment.symm ▸ hrow)
  rw [hplace] at hb
  rw [List.getElem_map, List.getElem_range, recorded, hrecorded, Option.getD_some]
  exact (List.getElem?_eq_some_iff.mp hb).2

end

/-! ## What is copied -/

section
variable {mem : List MemMsg} {addr size step : Nat} (h : Segments mem)
include h

theorem Segments.copied_near (hsize : addr + size < 2 ^ 57) :
    (latestSegments mem addr size step).flatMap (copySegment addr size) =
      (slice (recordedByte mem step) addr (addr + size)).reduceOption := by
  have haligned : ∀ m ∈ mem, m.stepId ≤ step →
      m.address % memSegmentSize = 0 ∧ m.address < 2 ^ 56 :=
    fun m hm _ => ⟨h.aligned m hm, h.user m hm⟩
  have hlatest {m : MemMsg} (hm : m ∈ latestSegments mem addr size step) :
      latestRow mem step m.address = some m :=
    latestRow_of_latestSegments (by omega) hsize h hm
  have hcopy : ∀ m ∈ latestSegments mem addr size step, copySegment addr size m =
      clip (recorded mem step) memSegmentSize addr (addr + size) m.address := by
    intro m hm
    obtain ⟨⟨_, hlt⟩, _, hhi, hlo⟩ := row_of_memRows haligned hsize (mem_latestSegments hm).1
    exact copySegment_eq_clip hlt hsize hlo hhi fun _ _ => content_eq h (hlatest hm)
  have hmap : (latestSegments mem addr size step).flatMap (copySegment addr size) =
      ((latestSegments mem addr size step).map (·.address)).flatMap
        (clip (recorded mem step) memSegmentSize addr (addr + size)) := by
    rw [List.flatMap_map]
    exact List.flatMap_congr hcopy
  rw [hmap, flatMap_clip_held (by decide) (latestSegments_sorted haligned hsize)
    (latestSegments_aligned haligned hsize)]
  congr 1
  refine slice_congr fun a hlo hhi => ?_
  unfold held
  split
  next hmem =>
    obtain ⟨m, hm, heq⟩ := List.mem_map.mp hmem
    obtain ⟨b, _, hb⟩ := recordedByte_eq h (heq ▸ hlatest hm)
    rw [recorded, hb, Option.getD_some]
  next hnone =>
    cases hrow : latestRow mem step (a / memSegmentSize * memSegmentSize) with
    | none =>
        rw [recordedByte, hrow]
        rfl
    | some m =>
        obtain ⟨hmem, hstep, heq⟩ := latestRow_mem hrow
        have hchunk := chunk_of (show 0 < memSegmentSize by decide) a
        have hselected := exists_latestSegments haligned hsize hmem hstep (by omega) (by omega)
        rw [heq] at hselected
        exact absurd hselected hnone

theorem Segments.copied_far (hfar : 2 ^ 57 ≤ addr + size) (hsize : size < 2 ^ 56)
    (hrange : addr + size < addressSpace) :
    (latestSegments mem addr size step).flatMap (copySegment addr size) =
      (slice (recordedByte mem step) addr (addr + size)).reduceOption := by
  have hrows : memRows mem addr size step = [] := by
    refine List.filter_eq_nil_iff.mpr fun m hm hcond => ?_
    have huser := h.user m hm
    have haligned := h.aligned m hm
    simp only [decide_eq_true_eq] at hcond
    obtain ⟨-, hhi, hlo⟩ := hcond
    rw [toSigned_of_lt (by omega : m.address < 2 ^ 63)] at hhi hlo
    unfold toSigned addressSpace memSegmentSize at *
    rw [Nat.mod_eq_of_lt hrange] at hhi
    have hlower : (addr + (2 ^ 64 - 32)) % 2 ^ 64 = addr - 32 := by omega
    rw [hlower] at hlo
    split at hhi
    · rw [if_pos (by omega)] at hlo
      omega
    · omega
  have hnone : ∀ a, addr ≤ a → a < addr + size → recordedByte mem step a = none := by
    intro a hlo _
    have hchunk := chunk_of (show 0 < memSegmentSize by decide) a
    cases hrow : latestRow mem step (a / memSegmentSize * memSegmentSize) with
    | none =>
        rw [recordedByte, hrow]
        rfl
    | some m =>
        obtain ⟨hmem, -, heq⟩ := latestRow_mem hrow
        have huser := h.user m hmem
        unfold memSegmentSize at *
        omega
  have hempty : latestSegments mem addr size step = [] := by
    rw [latestSegments, hrows]
    rfl
  rw [hempty, reduceOption_slice_none hnone]
  rfl

/-- What is copied is what is recorded of the range, without the gaps. -/
theorem Segments.copied_eq (hsize : size < 2 ^ 56) (hrange : addr + size < addressSpace) :
    (latestSegments mem addr size step).flatMap (copySegment addr size) =
      (slice (recordedByte mem step) addr (addr + size)).reduceOption := by
  rcases Nat.lt_or_ge (addr + size) (2 ^ 57) with hnear | hfar
  · exact h.copied_near hnear
  · exact h.copied_far hfar hsize hrange

theorem Segments.getVarValue_get (hsize : size < 2 ^ 56) (hrange : addr + size < addressSpace)
    {i : Nat} (hi : i < size) : (getVarValue mem addr size step)[i]? =
      some ((slice (recordedByte mem step) addr (addr + size)).reduceOption.getD i 0) := by
  have haddr : addr % addressSpace = addr := Nat.mod_eq_of_lt (by omega)
  rw [getVarValue, haddr, h.copied_eq hsize hrange]
  generalize (slice (recordedByte mem step) addr (addr + size)).reduceOption = copied
  rw [List.getD_eq_getElem?_getD]
  rcases Nat.lt_or_ge i copied.length with hlt | hge
  · rw [List.getElem?_append_left hlt, List.getElem?_eq_getElem hlt, Option.getD_some]
  · rw [List.getElem?_append_right hge, List.getElem?_eq_none hge,
      List.getElem?_replicate_of_lt (by omega), Option.getD_none]

end

/-- Every byte that is recorded behind one that is not is 0. -/
def NothingBehindHoles (mem : List MemMsg) (addr size step : Nat) : Prop :=
  ∀ i j, i < j → j < size → recordedByte mem step (addr + i) = none →
    recorded mem step (addr + j) = 0

/-- **Placement of bytes.**  Every byte of the buffer is the one recorded for its address,
or 0, exactly if nothing but 0 is recorded behind a hole of the range. -/
theorem getVarValue_placed_iff {mem : List MemMsg} (h : Segments mem) {addr size : Nat}
    (step : Nat) (hsize : size < 2 ^ 56) (hrange : addr + size < addressSpace) :
    (∀ i < size, (getVarValue mem addr size step)[i]? =
        some ((recordedByte mem step (addr + i)).getD 0)) ↔
      NothingBehindHoles mem addr size step := by
  have hslice {i : Nat} (hi : i < size) :
      (slice (recordedByte mem step) addr (addr + size))[i]? =
        some (recordedByte mem step (addr + i)) := by
    rw [slice, List.getElem?_map, List.getElem?_range' (by omega), Option.map_some, Nat.one_mul]
  have hlength : (slice (recordedByte mem step) addr (addr + size)).length = size := by
    simp [slice]
  have hplaced : (∀ i < size, (getVarValue mem addr size step)[i]? =
      some ((recordedByte mem step (addr + i)).getD 0)) ↔
      ∀ (i : Nat) (a : Option UInt8),
        (slice (recordedByte mem step) addr (addr + size))[i]? = some a →
        (slice (recordedByte mem step) addr (addr + size)).reduceOption.getD i 0 = a.getD 0 := by
    constructor
    · intro hall i a hget
      have hi : i < size := hlength ▸ (List.getElem?_eq_some_iff.mp hget).1
      have hplace := hall i hi
      rw [h.getVarValue_get hsize hrange hi] at hplace
      rw [hslice hi] at hget
      cases hget
      exact Option.some.inj hplace
    · intro hall i hi
      rw [h.getVarValue_get hsize hrange hi, hall i _ (hslice hi)]
  rw [hplaced, Gaps.closed_iff, slice, List.pairwise_map, List.pairwise_iff_getElem]
  simp only [List.length_range', List.getElem_range', Nat.one_mul, Nat.add_sub_cancel_left]
  constructor
  · intro hall i j hij hj
    exact hall i j (by omega) hj hij
  · intro hall i j _ hj hij
    exact hall i j hij hj

theorem nothingBehindHoles_of_front {mem : List MemMsg} {addr size step : Nat} (n : Nat)
    (front : ∀ i < n, recordedByte mem step (addr + i) ≠ none)
    (rest : ∀ i, n ≤ i → i < size → recordedByte mem step (addr + i) = none) :
    NothingBehindHoles mem addr size step := by
  intro i j hij hj hnone
  have hn : n ≤ i := Nat.le_of_not_lt fun hlt => front i hlt hnone
  rw [recorded, rest j (by omega) hj, Option.getD_none]

/-! ### Examples -/

/-- The segment at 64 has the bytes 1 to 32, and no other is recorded. -/
def oneSegment : List MemMsg := [⟨64, 1, (List.range 32).map fun i => UInt8.ofNat (i + 1)⟩]

theorem oneSegment_segments : Segments oneSegment :=
  ⟨by decide, by decide, by decide⟩

theorem getVarValue_placed_iff_front : NothingBehindHoles oneSegment 70 40 1 ∧
    ∀ i < 40, (getVarValue oneSegment 70 40 1)[i]? =
      some ((recordedByte oneSegment 1 (70 + i)).getD 0) := by
  have hfront : NothingBehindHoles oneSegment 70 40 1 :=
    nothingBehindHoles_of_front 26 (by decide) (by decide)
  exact ⟨hfront, (getVarValue_placed_iff oneSegment_segments 1 (by decide) (by decide)).mpr hfront⟩

/-- The byte at 32 was never recorded, and reads as that of 64. -/
theorem getVarValue_misplaces :
    recordedByte oneSegment 1 32 = none ∧ (getVarValue oneSegment 32 64 1)[0]? = some 1 ∧
      ¬ ∀ i < 64, (getVarValue oneSegment 32 64 1)[i]? =
        some ((recordedByte oneSegment 1 (32 + i)).getD 0) := by
  have hread : (getVarValue oneSegment 32 64 1)[0]? = some 1 := by decide
  refine ⟨by decide, hread, fun hall => ?_⟩
  have hplaced := hall 0 (by decide)
  rw [hread] at hplaced
  cases hplaced

end FlightRec
