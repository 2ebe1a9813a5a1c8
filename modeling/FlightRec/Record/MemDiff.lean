/-
# `FlightRec.Record.MemDiff` — comparing buffers with what the CPU has

`best_memdiff` chooses between four functions by the size of the buffers, by what was
compiled in and by what the CPU supports; a wider one leaves the tail to the next narrower.
The functions for 8, 16 and 32 bytes give 1 exactly for buffers that differ
(`memdiff8_eq`, `memdiff16_eq`, `memdiff32_eq`).

`memdiff64` reads its mask the other way round: its test is cleared by a lane that is equal,
so a pair of equal lanes in a whole block makes it report a difference.  Equal buffers are
reported as different, and buffers whose lanes all differ as equal (`memdiff64_eq`).

The buffers are aligned as the loads require, so no load faults.  The recorder compares
segments of 32 bytes, for which `memdiff64` is never chosen (`bestMemdiff_segment`).
-/
import FlightRec.Lib.Lanes
import FlightRec.Record.MemCache

namespace FlightRec

open Lanes

/-- The bytes from a pointer on. -/
abbrev Buf := Nat → BitVec 8

/-- `STEP`, as far as it moves a pointer. -/
def Buf.step (buf : Buf) (n : Nat) : Buf := fun i => buf (n + i)

/-- An aligned load of `n` bytes. -/
def Buf.load (buf : Buf) (n : Nat) : Vec n := fun i => buf i

/-- `*((uint64_t *)buf + cur)` -/
def Buf.uint64 (buf : Buf) (cur : Nat) : BitVec 64 :=
  qword fun i => buf (8 * cur + i)

/-- `for (; cur < limit; cur++) if (differ) return 1;` -/
def scan (differ : Nat → Bool) (cur limit : Nat) : Bool :=
  if cur < limit then
    if differ cur then true else scan differ (cur + 1) limit
  else false
termination_by limit - cur

/-- `memdiff8` -/
def memdiff8 (buf1 buf2 : Buf) (size : Nat) : Nat :=
  let limit := size / 8
  if scan (fun cur => buf1.uint64 cur != buf2.uint64 cur) 0 limit then 1
  -- the remaining bytes, if any; `cur` is `limit` behind the loop
  else if limit * 8 < size && scan (fun pos => buf1 pos != buf2 pos) (limit * 8) size then 1
  else 0

/-- The loop of the functions with vectors of `width` bytes: `found` is the test of a
block, `narrower` compares the tail. -/
def vectorLoop (width : Nat) [NeZero width] (found : Vec width → Vec width → Bool)
    (narrower : Buf → Buf → Nat → Nat) (buf1 buf2 : Buf) (size : Nat) : Nat :=
  if size ≥ width then
    if found (buf1.load width) (buf2.load width) then 1
    else vectorLoop width found narrower (buf1.step width) (buf2.step width) (size - width)
  else if size > 0 then narrower buf1 buf2 size
  else 0
termination_by size
decreasing_by have := Nat.pos_of_neZero width; omega

/-- `memdiff16` -/
def memdiff16 : Buf → Buf → Nat → Nat :=
  vectorLoop 16 (fun a b => 0xFFFF#32 != movemaskEpi8 (cmpeqEpi8 a b)) memdiff8

/-- `memdiff32` -/
def memdiff32 : Buf → Buf → Nat → Nat :=
  vectorLoop 32 (fun a b => 0xFFFFFFFF#32 != movemaskEpi8 (cmpeqEpi8 a b)) memdiff16

/-- `memdiff64` -/
def memdiff64 : Buf → Buf → Nat → Nat :=
  vectorLoop 64 (fun a b => !kortestz 0#8 (cmpeqEpi64Mask a b)) memdiff32

/-- The macros of the compiler for the instructions it may use.  It defines those of the
narrower vectors with those of the wider ones. -/
structure Target where
  sse2 : Bool
  avx2 : Bool
  avx512dq : Bool
  sse2_of_avx2 : avx2 → sse2
  avx2_of_avx512dq : avx512dq → avx2
  deriving DecidableEq

/-- What `__builtin_cpu_supports` says. -/
structure CpuFeatures where
  sse2 : Bool
  avx2 : Bool
  avx512dq : Bool
  deriving DecidableEq, Repr

/-- The condition under which `best_memdiff` returns `memdiff64`. -/
def choosesMemdiff64 (target : Target) (cpu : CpuFeatures) (size : Nat) : Bool :=
  target.avx512dq && (size ≥ 64 && cpu.avx512dq)

/-- `best_memdiff` -/
def bestMemdiff (target : Target) (cpu : CpuFeatures) (size : Nat) : Buf → Buf → Nat → Nat :=
  if choosesMemdiff64 target cpu size then memdiff64
  else if target.avx2 && (size ≥ 32 && cpu.avx2) then memdiff32
  else if target.sse2 && (size ≥ 16 && cpu.sse2) then memdiff16
  else memdiff8

/-! ## What the buffers are -/

/-- Specification: some byte in `[lo, hi)` differs. -/
def DifferIn (buf1 buf2 : Buf) (lo hi : Nat) : Prop := ∃ i, lo ≤ i ∧ i < hi ∧ buf1 i ≠ buf2 i

/-- Some lane of 8 bytes in the whole blocks of 64 bytes is equal. -/
def ShareLane (buf1 buf2 : Buf) (size : Nat) : Prop :=
  ∃ lane < size / 64 * 8, ∀ i < 8, buf1 (8 * lane + i) = buf2 (8 * lane + i)

instance (buf1 buf2 : Buf) (lo hi : Nat) : Decidable (DifferIn buf1 buf2 lo hi) :=
  decidable_of_iff (∃ i ∈ List.range hi, lo ≤ i ∧ buf1 i ≠ buf2 i)
    (by simp [DifferIn, and_left_comm])

instance (buf1 buf2 : Buf) (size : Nat) : Decidable (ShareLane buf1 buf2 size) :=
  inferInstanceAs (Decidable (∃ lane < _, ∀ i < 8, _))

theorem differIn_split (buf1 buf2 : Buf) {lo mid hi : Nat} (h1 : lo ≤ mid) (h2 : mid ≤ hi) :
    DifferIn buf1 buf2 lo hi ↔ DifferIn buf1 buf2 lo mid ∨ DifferIn buf1 buf2 mid hi := by
  constructor
  · rintro ⟨i, hlo, hhi, hne⟩
    rcases Nat.lt_or_ge i mid with hi | hi
    · exact .inl ⟨i, hlo, hi, hne⟩
    · exact .inr ⟨i, hi, hhi, hne⟩
  · rintro (⟨i, hlo, hhi, hne⟩ | ⟨i, hlo, hhi, hne⟩)
    · exact ⟨i, hlo, by omega, hne⟩
    · exact ⟨i, by omega, hhi, hne⟩

theorem Buf.step_zero (buf : Buf) : buf.step 0 = buf := by
  funext i
  rw [Buf.step, Nat.zero_add]

theorem Buf.step_step (buf : Buf) (m n : Nat) : (buf.step m).step n = buf.step (m + n) := by
  funext i
  rw [Buf.step, Buf.step, Buf.step, Nat.add_assoc]

theorem differIn_step {buf1 buf2 : Buf} {n lo hi : Nat} :
    DifferIn (buf1.step n) (buf2.step n) lo hi ↔ DifferIn buf1 buf2 (n + lo) (n + hi) := by
  constructor
  · rintro ⟨i, hlo, hhi, hne⟩
    exact ⟨n + i, by omega, by omega, hne⟩
  · rintro ⟨i, hlo, hhi, hne⟩
    refine ⟨i - n, by omega, by omega, ?_⟩
    rwa [Buf.step, Buf.step, Nat.add_sub_cancel' (by omega)]

/-! ## The loops -/

theorem scan_eq_true_iff {differ : Nat → Bool} {cur limit : Nat} :
    scan differ cur limit = true ↔ ∃ i, cur ≤ i ∧ i < limit ∧ differ i := by
  fun_induction scan differ cur limit with
  | case1 cur hlt hdiff => simpa using ⟨cur, le_refl cur, hlt, hdiff⟩
  | case2 cur hlt hsame ih =>
      rw [ih]
      constructor
      · rintro ⟨i, hi, hlim, hd⟩
        exact ⟨i, by omega, hlim, hd⟩
      · rintro ⟨i, hi, hlim, hd⟩
        have hne : i ≠ cur := by rintro rfl; exact hsame hd
        exact ⟨i, by omega, hlim, hd⟩
  | case3 cur hge =>
      refine iff_of_false (by simp) ?_
      rintro ⟨i, hi, hlim, -⟩
      omega

theorem uint64_ne_iff {buf1 buf2 : Buf} {cur : Nat} :
    buf1.uint64 cur ≠ buf2.uint64 cur ↔ DifferIn buf1 buf2 (8 * cur) (8 * cur + 8) := by
  rw [Buf.uint64, Buf.uint64, ne_eq, qword_inj, funext_iff, not_forall]
  constructor
  · rintro ⟨i, hne⟩
    exact ⟨8 * cur + i, by omega, by omega, hne⟩
  · rintro ⟨i, hlo, hhi, hne⟩
    refine ⟨⟨i - 8 * cur, by omega⟩, ?_⟩
    rwa [Nat.add_sub_cancel' hlo]

theorem scan_words_iff {buf1 buf2 : Buf} {limit : Nat} :
    scan (fun cur => buf1.uint64 cur != buf2.uint64 cur) 0 limit = true ↔
      DifferIn buf1 buf2 0 (limit * 8) := by
  simp only [scan_eq_true_iff, bne_iff_ne, uint64_ne_iff]
  constructor
  · rintro ⟨cur, -, hcur, i, hlo, hhi, hne⟩
    exact ⟨i, i.zero_le, by omega, hne⟩
  · rintro ⟨i, -, hhi, hne⟩
    exact ⟨i / 8, Nat.zero_le _, by omega, i, by omega, by omega, hne⟩

theorem scan_bytes_iff {buf1 buf2 : Buf} {lo hi : Nat} :
    scan (fun pos => buf1 pos != buf2 pos) lo hi = true ↔ DifferIn buf1 buf2 lo hi := by
  simp only [scan_eq_true_iff, bne_iff_ne]
  rfl

theorem memdiff8_eq (buf1 buf2 : Buf) (size : Nat) :
    memdiff8 buf1 buf2 size = if DifferIn buf1 buf2 0 size then 1 else 0 := by
  have hsplit := differIn_split buf1 buf2 (Nat.zero_le (size / 8 * 8))
    (Nat.div_mul_le_self size 8)
  have htail : DifferIn buf1 buf2 (size / 8 * 8) size → size / 8 * 8 < size := by
    rintro ⟨i, hlo, hhi, -⟩
    exact Nat.lt_of_le_of_lt hlo hhi
  simp only [memdiff8, scan_words_iff, Bool.and_eq_true, decide_eq_true_eq, scan_bytes_iff,
    and_iff_right_of_imp htail, hsplit]
  rcases em (DifferIn buf1 buf2 0 (size / 8 * 8)) with h | h
  · rw [if_pos h, if_pos (.inl h)]
  · rw [if_neg h]
    simp only [h, false_or]

/-- The test finds something in one of the whole blocks. -/
def FoundIn {width : Nat} (found : Vec width → Vec width → Bool) (buf1 buf2 : Buf)
    (blocks : Nat) : Prop :=
  ∃ block < blocks, found ((buf1.step (width * block)).load width)
    ((buf2.step (width * block)).load width) = true

instance {width : Nat} (found : Vec width → Vec width → Bool) (buf1 buf2 : Buf)
    (blocks : Nat) : Decidable (FoundIn found buf1 buf2 blocks) :=
  inferInstanceAs (Decidable (∃ block < blocks, _ = true))

theorem foundIn_succ {width : Nat} {found : Vec width → Vec width → Bool} {buf1 buf2 : Buf}
    {blocks : Nat} : FoundIn found buf1 buf2 (blocks + 1) ↔
      found (buf1.load width) (buf2.load width) = true ∨
        FoundIn found (buf1.step width) (buf2.step width) blocks := by
  have hstep (buf : Buf) (block : Nat) :
      (buf.step width).step (width * block) = buf.step (width * (block + 1)) := by
    rw [Buf.step_step, Nat.mul_succ, Nat.add_comm]
  constructor
  · rintro ⟨block, hlt, hfound⟩
    cases block with
    | zero =>
        rw [Nat.mul_zero, Buf.step_zero, Buf.step_zero] at hfound
        exact .inl hfound
    | succ block =>
        refine .inr ⟨block, Nat.lt_of_succ_lt_succ hlt, ?_⟩
        rwa [hstep, hstep]
  · rintro (hfound | ⟨block, hlt, hfound⟩)
    · refine ⟨0, Nat.succ_pos _, ?_⟩
      rwa [Nat.mul_zero, Buf.step_zero, Buf.step_zero]
    · refine ⟨block + 1, Nat.succ_lt_succ hlt, ?_⟩
      rwa [hstep, hstep] at hfound

/-- What a loop over blocks gives, where the narrower function is right: 1 for a block that
the test finds or a difference in the tail. -/
theorem vectorLoop_eq {width : Nat} [NeZero width]
    {found : Vec width → Vec width → Bool} {narrower : Buf → Buf → Nat → Nat}
    (right : ∀ buf1 buf2 size, narrower buf1 buf2 size =
      if DifferIn buf1 buf2 0 size then 1 else 0) (buf1 buf2 : Buf) (size : Nat) :
    vectorLoop width found narrower buf1 buf2 size =
      if FoundIn found buf1 buf2 (size / width) ∨
        DifferIn buf1 buf2 (width * (size / width)) size then 1 else 0 := by
  have hpos := Nat.pos_of_neZero width
  fun_induction vectorLoop width found narrower buf1 buf2 size with
  | case1 buf1 buf2 size hge hfound =>
      obtain ⟨blocks, hblocks⟩ := Nat.exists_eq_succ_of_ne_zero (Nat.div_pos hge hpos).ne'
      rw [if_pos (.inl (hblocks ▸ foundIn_succ.mpr (.inl hfound)))]
  | case2 buf1 buf2 size hge hfound ih =>
      have hblocks : size / width = (size - width) / width + 1 := by
        rw [← Nat.add_div_right _ hpos, Nat.sub_add_cancel hge]
      have htail : width + width * ((size - width) / width) = width * (size / width) := by
        rw [hblocks, Nat.mul_succ, Nat.add_comm]
      rw [ih]
      simp only [differIn_step, htail, Nat.add_sub_cancel' hge]
      simp only [hblocks, foundIn_succ, hfound, Bool.false_eq_true, false_or]
  | case3 buf1 buf2 size hlt hsize =>
      have hblocks : size / width = 0 := Nat.div_eq_of_lt (Nat.lt_of_not_ge hlt)
      rw [right, hblocks, Nat.mul_zero]
      simp [FoundIn]
  | case4 buf1 buf2 size hlt hsize =>
      obtain rfl : size = 0 := Nat.eq_zero_of_not_pos hsize
      simp [FoundIn, DifferIn]

/-! ## The four functions -/

theorem foundIn_iff_differIn {width : Nat} {found : Vec width → Vec width → Bool}
    (ne : ∀ a b, found a b = true ↔ a ≠ b) {buf1 buf2 : Buf} {blocks : Nat} :
    FoundIn found buf1 buf2 blocks ↔ DifferIn buf1 buf2 0 (width * blocks) := by
  constructor
  · rintro ⟨block, hlt, hfound⟩
    obtain ⟨i, hi⟩ := Function.ne_iff.mp ((ne _ _).mp hfound)
    have hbound : width * (block + 1) ≤ width * blocks := Nat.mul_le_mul_left width hlt
    rw [Nat.mul_succ] at hbound
    exact ⟨width * block + i, Nat.zero_le _, by omega, hi⟩
  · rintro ⟨i, -, hhi, hne⟩
    have hpos : 0 < width := by
      rcases Nat.eq_zero_or_pos width with rfl | hpos
      · omega
      · exact hpos
    refine ⟨i / width, Nat.div_lt_of_lt_mul hhi, (ne _ _).mpr (Function.ne_iff.mpr ?_)⟩
    refine ⟨⟨i % width, Nat.mod_lt i hpos⟩, ?_⟩
    simpa only [Buf.load, Buf.step, Nat.div_add_mod] using hne

theorem vectorLoop_right {width : Nat} [NeZero width] {found : Vec width → Vec width → Bool}
    {narrower : Buf → Buf → Nat → Nat} (ne : ∀ a b, found a b = true ↔ a ≠ b)
    (right : ∀ buf1 buf2 size, narrower buf1 buf2 size =
      if DifferIn buf1 buf2 0 size then 1 else 0) (buf1 buf2 : Buf) (size : Nat) :
    vectorLoop width found narrower buf1 buf2 size =
      if DifferIn buf1 buf2 0 size then 1 else 0 := by
  have hsplit := differIn_split buf1 buf2 (Nat.zero_le (width * (size / width)))
    (Nat.mul_div_le size width)
  rw [vectorLoop_eq right]
  simp only [foundIn_iff_differIn ne, hsplit]

theorem movemask_ne_iff {n : Nat} (hn : n ≤ 32) (a b : Vec n) :
    ((BitVec.allOnes n).setWidth 32 != movemaskEpi8 (cmpeqEpi8 a b)) = true ↔ a ≠ b := by
  rw [bne_iff_ne, ne_eq, ne_eq, movemask_cmpeq_iff a b hn]

theorem memdiff16_eq (buf1 buf2 : Buf) (size : Nat) :
    memdiff16 buf1 buf2 size = if DifferIn buf1 buf2 0 size then 1 else 0 :=
  vectorLoop_right (movemask_ne_iff (n := 16) (by omega)) memdiff8_eq buf1 buf2 size

theorem memdiff32_eq (buf1 buf2 : Buf) (size : Nat) :
    memdiff32 buf1 buf2 size = if DifferIn buf1 buf2 0 size then 1 else 0 :=
  vectorLoop_right (movemask_ne_iff (n := 32) le_rfl) memdiff16_eq buf1 buf2 size

/-- The test of `memdiff64` finds the lanes that are equal. -/
theorem foundIn_lanes_iff {buf1 buf2 : Buf} {size : Nat} :
    FoundIn (fun a b => !kortestz 0#8 (cmpeqEpi64Mask a b)) buf1 buf2 (size / 64) ↔
      ShareLane buf1 buf2 size := by
  have hlane (block : Nat) (k : Fin 8) (i : Nat) :
      64 * block + (8 * k + i) = 8 * (8 * block + k) + i := by omega
  simp only [FoundIn, Bool.not_eq_true', kortestz_cmpeq_iff, lane, qword_inj, funext_iff,
    Buf.load, Buf.step, hlane]
  constructor
  · rintro ⟨block, hlt, k, heq⟩
    exact ⟨8 * block + k, by omega, fun i hi => heq ⟨i, hi⟩⟩
  · rintro ⟨n, hlt, heq⟩
    refine ⟨n / 8, by omega, ⟨n % 8, Nat.mod_lt n (by omega)⟩, fun i => ?_⟩
    rw [Nat.div_add_mod]
    exact heq i i.isLt

theorem memdiff64_eq (buf1 buf2 : Buf) (size : Nat) :
    memdiff64 buf1 buf2 size =
      if ShareLane buf1 buf2 size ∨ DifferIn buf1 buf2 (64 * (size / 64)) size then 1
      else 0 := by
  rw [memdiff64, vectorLoop_eq memdiff32_eq]
  simp only [foundIn_lanes_iff]

/-! ## The function that is chosen -/

theorem bestMemdiff_eq {target : Target} {cpu : CpuFeatures} {size : Nat}
    (narrow : choosesMemdiff64 target cpu size = false) (buf1 buf2 : Buf) :
    bestMemdiff target cpu size buf1 buf2 size =
      if DifferIn buf1 buf2 0 size then 1 else 0 := by
  rw [bestMemdiff, narrow, if_neg Bool.false_ne_true]
  split
  · exact memdiff32_eq buf1 buf2 size
  · split
    · exact memdiff16_eq buf1 buf2 size
    · exact memdiff8_eq buf1 buf2 size

theorem shareLane_of_not_differIn {buf1 buf2 : Buf} {size : Nat} (large : 64 ≤ size)
    (same : ¬ DifferIn buf1 buf2 0 size) : ShareLane buf1 buf2 size := by
  refine ⟨0, by omega, fun i hi => ?_⟩
  by_contra hne
  exact same ⟨8 * 0 + i, Nat.zero_le _, by omega, hne⟩

theorem memdiff64_right_iff {buf1 buf2 : Buf} {size : Nat} (large : 64 ≤ size) :
    memdiff64 buf1 buf2 size = (if DifferIn buf1 buf2 0 size then 1 else 0) ↔
      DifferIn buf1 buf2 0 size ∧
        (ShareLane buf1 buf2 size ∨ DifferIn buf1 buf2 (64 * (size / 64)) size) := by
  rw [memdiff64_eq]
  rcases em (DifferIn buf1 buf2 0 size) with hdiff | hsame
  · rw [if_pos hdiff]
    simp [hdiff, or_iff_not_imp_left]
  · rw [if_pos (.inl (shareLane_of_not_differIn large hsame)), if_neg hsame]
    simp [hsame]

/-- **The comparison that is chosen** is right unless it is `memdiff64`; that one is right
for buffers that differ and either share a lane in their whole blocks or differ in the
tail. -/
theorem bestMemdiff_right_iff (target : Target) (cpu : CpuFeatures) (size : Nat)
    (buf1 buf2 : Buf) :
    bestMemdiff target cpu size buf1 buf2 size = (if DifferIn buf1 buf2 0 size then 1 else 0) ↔
      (choosesMemdiff64 target cpu size = true → DifferIn buf1 buf2 0 size ∧
        (ShareLane buf1 buf2 size ∨ DifferIn buf1 buf2 (64 * (size / 64)) size)) := by
  cases hchoice : choosesMemdiff64 target cpu size with
  | false => simp [bestMemdiff_eq hchoice]
  | true =>
      have large : 64 ≤ size := by
        simp only [choosesMemdiff64, Bool.and_eq_true, decide_eq_true_eq] at hchoice
        exact hchoice.2.1
      rw [bestMemdiff, hchoice, if_pos rfl, memdiff64_right_iff large]
      exact ⟨fun h _ => h, fun h => h rfl⟩

/-- A target and a CPU that have it all. -/
def allFeatures : Target where
  sse2 := true
  avx2 := true
  avx512dq := true
  sse2_of_avx2 := imp_self.mpr trivial
  avx2_of_avx512dq := imp_self.mpr trivial

/-- 64 bytes of zeros, compared with themselves, differ. -/
theorem bestMemdiff_equal_buffers :
    bestMemdiff allFeatures ⟨true, true, true⟩ 64 (fun _ => 0) (fun _ => 0) 64 ≠
      if DifferIn (fun _ => 0) (fun _ => 0) 0 64 then 1 else 0 := by
  have same : ¬ DifferIn (fun _ => 0) (fun _ => 0) 0 64 := by
    rintro ⟨_, _, _, hne⟩
    exact hne rfl
  have share : ShareLane (fun _ => 0) (fun _ => 0) 64 :=
    shareLane_of_not_differIn le_rfl same
  rw [if_neg same, show bestMemdiff allFeatures ⟨true, true, true⟩ 64 = memdiff64 from rfl,
    memdiff64_eq, if_pos (.inl share)]
  exact one_ne_zero

/-! ## The segments of the recorder -/

/-- The bytes of a buffer of the recorder from an offset on. -/
def Buf.ofBuffer (buffer : Nat → UInt8) (offset : Nat) : Buf :=
  fun i => (buffer (offset + i)).toBitVec

/-- A segment is too small for `memdiff64`: what `process_page` takes for changed has
changed. -/
theorem bestMemdiff_segment (target : Target) (cpu : CpuFeatures) (buffer cached : Nat → UInt8)
    (i j : Nat) :
    bestMemdiff target cpu memSegmentSize (.ofBuffer buffer i) (.ofBuffer cached j)
        memSegmentSize = if segment buffer i ≠ segment cached j then 1 else 0 := by
  have narrow : choosesMemdiff64 target cpu memSegmentSize = false := by
    simp [choosesMemdiff64, memSegmentSize]
  have hdiff : DifferIn (.ofBuffer buffer i) (.ofBuffer cached j) 0 memSegmentSize ↔
      segment buffer i ≠ segment cached j := by
    simp only [ne_eq, segment_eq_iff, not_forall, DifferIn, Buf.ofBuffer, Nat.zero_le,
      true_and, UInt8.toBitVec_inj, exists_prop]
  rw [bestMemdiff_eq narrow]
  simp only [hdiff]

end FlightRec
