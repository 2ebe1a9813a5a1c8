/-
# `FlightRec.Examine.Pointers` — whether a pointer that is not on the heap is valid

For an address without a row in table `heap`, `get_pointer_size` looks into table `mem`,
with the cursor that `get_var_value` keeps between the requests.  It does not open the
cursor; until `get_var_value` has been called it fails.  The bounds of the query are the
address and the address a segment further, so it finds the segments that begin there, not
the one that the address lies in.

It is right exactly if `get_var_value` was called before and the two segments agree
(`getPointerSize_valid_iff`).
-/
import FlightRec.Examine.Holes
import FlightRec.Record.Heap

namespace FlightRec

open Heap

/-! ## A session -/

/-- `mem_cursor` and the table it is over; `none` as long as it is `NULL`. -/
structure Cursors where
  mem : Option (List MemMsg) := none

/-- What a request calls in examine/vars.c. -/
inductive VarsCall where
  | getVarValue (addr size step : Nat)
  | getPointerSize (address : Nat)
  deriving DecidableEq, Repr

/-- A recording, as far as the two functions read it. -/
structure MemoryLog where
  mem : List MemMsg
  heap : List HeapRow

/-- The cursors after a call; only `get_var_value` opens `mem_cursor`. -/
def VarsCall.run (r : MemoryLog) (c : Cursors) : VarsCall → Cursors
  | .getVarValue _ _ _ => { c with mem := some r.mem }
  | .getPointerSize _ => c

/-- The cursors after the requests of a session, each with its calls. -/
def Cursors.after (r : MemoryLog) (requests : List (List VarsCall)) : Cursors :=
  requests.flatten.foldl (fun c call => call.run r c) {}

/-- `get_var_value` is called in the session. -/
def CallsGetVarValue (requests : List (List VarsCall)) : Prop :=
  ∃ request ∈ requests, ∃ addr size step, .getVarValue addr size step ∈ request

/-- `get_pointer_size` with the cursors of the session. -/
def Cursors.getPointerSize (c : Cursors) (r : MemoryLog) (address curStep : Nat) : PointerSize :=
  Heap.getPointerSize c.mem
    (Query.orderByDesc HeapRow.allocatedAt (heapRows r.heap address curStep)).head? address curStep

/-! ## Segments -/

/-- A row for the segment was stored at or before the step. -/
def Stores (mem : List MemMsg) (step c : Nat) : Prop :=
  ∃ m ∈ mem, m.stepId ≤ step ∧ m.address = c

/-- Specification: the byte at the address is in a segment stored by then. -/
def Covered (mem : List MemMsg) (step address : Nat) : Prop :=
  ∃ m ∈ mem, m.stepId ≤ step ∧ m.address ≤ address ∧ address < m.address + memSegmentSize

instance (mem : List MemMsg) (step c : Nat) : Decidable (Stores mem step c) :=
  inferInstanceAs (Decidable (∃ m ∈ mem, _ ∧ _))

instance (mem : List MemMsg) (step address : Nat) : Decidable (Covered mem step address) :=
  inferInstanceAs (Decidable (∃ m ∈ mem, _ ∧ _))

/-- The segment of an address, and the next one. -/
def segmentOf (address : Nat) : Nat := address / memSegmentSize * memSegmentSize

def nextSegment (address : Nat) : Nat := (segmentOf address + memSegmentSize) % addressSpace

/-- The segments that the query finds agree with the segment of the address: one of them is
that segment if the address is its start, and the other is the next. -/
def SegmentsAgree (mem : List MemMsg) (step address : Nat) : Prop :=
  if address % memSegmentSize = 0 then
    Stores mem step (nextSegment address) → Stores mem step (segmentOf address)
  else Stores mem step (segmentOf address) ↔ Stores mem step (nextSegment address)

theorem segmentsAgree_of_start {mem : List MemMsg} {step address : Nat}
    (hstart : address % memSegmentSize = 0) (hstored : Stores mem step (segmentOf address)) :
    SegmentsAgree mem step address := by
  rw [SegmentsAgree, if_pos hstart]
  exact fun _ => hstored

section
variable {mem : List MemMsg} {step address : Nat} (h : Segments mem)
include h

theorem covered_iff : Covered mem step address ↔ Stores mem step (segmentOf address) := by
  unfold segmentOf memSegmentSize
  constructor
  · rintro ⟨m, hm, hstep, hlo, hhi⟩
    have haligned := h.aligned m hm
    unfold memSegmentSize at haligned hhi
    exact ⟨m, hm, hstep, by omega⟩
  · rintro ⟨m, hm, hstep, heq⟩
    refine ⟨m, hm, hstep, ?_, ?_⟩
    · omega
    · unfold memSegmentSize
      omega

/-- The query selects a row exactly if one of the two segments is stored. -/
theorem memRows_pointer_iff (haddress : address < addressSpace) :
    memRows mem (address + memSegmentSize) 0 step ≠ [] ↔
      (address % memSegmentSize = 0 ∧ Stores mem step (segmentOf address)) ∨
        Stores mem step (nextSegment address) := by
  have hrow {m : MemMsg} (hm : m ∈ mem) : (toSigned m.address ≤
      toSigned (address + memSegmentSize + 0) ∧
      toSigned (address + memSegmentSize + (addressSpace - memSegmentSize)) ≤
        toSigned m.address) ↔
      (address % memSegmentSize = 0 ∧ m.address = segmentOf address) ∨
        m.address = nextSegment address := by
    have haligned := h.aligned m hm
    have huser := h.user m hm
    rw [toSigned_of_lt (by omega : m.address < 2 ^ 63)]
    unfold nextSegment segmentOf toSigned addressSpace memSegmentSize at *
    split <;> split <;> omega
  constructor
  · intro hne
    obtain ⟨m, hm⟩ := List.exists_mem_of_ne_nil _ hne
    obtain ⟨hmem, hcond⟩ := List.mem_filter.mp hm
    simp only [decide_eq_true_eq] at hcond
    rcases (hrow hmem).mp hcond.2 with ⟨hstart, heq⟩ | heq
    · exact .inl ⟨hstart, m, hmem, hcond.1, heq⟩
    · exact .inr ⟨m, hmem, hcond.1, heq⟩
  · intro hstored hnil
    obtain ⟨m, hmem, hstep, hm⟩ : ∃ m ∈ mem, m.stepId ≤ step ∧
        ((address % memSegmentSize = 0 ∧ m.address = segmentOf address) ∨
          m.address = nextSegment address) := by
      rcases hstored with ⟨hstart, m, hmem, hstep, heq⟩ | ⟨m, hmem, hstep, heq⟩
      · exact ⟨m, hmem, hstep, .inl ⟨hstart, heq⟩⟩
      · exact ⟨m, hmem, hstep, .inr heq⟩
    have hin : m ∈ memRows mem (address + memSegmentSize) 0 step :=
      List.mem_filter.mpr ⟨hmem, by simpa only [decide_eq_true_eq] using
        ⟨hstep, (hrow hmem).mpr hm⟩⟩
    rw [hnil] at hin
    cases hin

theorem segmentsAgree_iff (haddress : address < addressSpace) :
    SegmentsAgree mem step address ↔
      (memRows mem (address + memSegmentSize) 0 step ≠ [] ↔ Covered mem step address) := by
  rw [memRows_pointer_iff h haddress, covered_iff h, SegmentsAgree]
  split
  next hstart =>
    simp only [hstart, true_and]
    exact ⟨fun himp => ⟨fun hor => hor.elim id himp, .inl⟩, fun hiff hnext => hiff.mp (.inr hnext)⟩
  next hinside =>
    simp only [hinside, false_and, false_or]
    exact ⟨Iff.symm, Iff.symm⟩

end

/-! ## The answer -/

theorem after_mem (r : MemoryLog) (requests : List (List VarsCall)) :
    (Cursors.after r requests).mem = some r.mem ∧ CallsGetVarValue requests ∨
      (Cursors.after r requests).mem = none ∧ ¬ CallsGetVarValue requests := by
  have hflat : CallsGetVarValue requests ↔
      ∃ addr size step, .getVarValue addr size step ∈ requests.flatten := by
    simp only [CallsGetVarValue, List.mem_flatten]
    constructor
    · rintro ⟨request, hrequest, addr, size, step, hcall⟩
      exact ⟨addr, size, step, request, hrequest, hcall⟩
    · rintro ⟨addr, size, step, request, hrequest, hcall⟩
      exact ⟨request, hrequest, addr, size, step, hcall⟩
  rw [hflat, Cursors.after]
  -- from the last call back
  induction requests.flatten using List.reverseRecOn with
  | nil => exact .inr ⟨rfl, by simp⟩
  | append_singleton calls call ih =>
      rw [List.foldl_append]
      cases call with
      | getVarValue addr size step =>
          exact .inl ⟨rfl, addr, size, step, by simp⟩
      | getPointerSize address =>
          have hsame : (∃ addr size step,
              VarsCall.getVarValue addr size step ∈ calls ++ [.getPointerSize address]) ↔
              ∃ addr size step, VarsCall.getVarValue addr size step ∈ calls := by
            simp
          rw [hsame]
          exact ih

/-- **Validity of pointers.**  For an address that no row of `heap` matches the answer is
right exactly if `get_var_value` was called before, and the segments that the query finds
agree with the one of the address. -/
theorem getPointerSize_valid_iff (r : MemoryLog) (h : Segments r.mem)
    (requests : List (List VarsCall)) {address curStep : Nat} (haddress : address < addressSpace)
    (nonheap : ∀ row ∈ r.heap, row.address = address → curStep < row.allocatedAt) :
    (Cursors.after r requests).getPointerSize r address curStep =
        (if Covered r.mem curStep address then .success 0 else .memNotfound) ↔
      CallsGetVarValue requests ∧ SegmentsAgree r.mem curStep address := by
  have hrows : heapRows r.heap address curStep = [] := by
    refine List.filter_eq_nil_iff.mpr fun row hrow hcond => ?_
    simp only [decide_eq_true_eq] at hcond
    exact Nat.not_lt.mpr hcond.2 (nonheap row hrow hcond.1)
  have hanswer : (Cursors.after r requests).getPointerSize r address curStep =
      Heap.getPointerSize (Cursors.after r requests).mem none address curStep := by
    rw [Cursors.getPointerSize, hrows]
    rfl
  rw [hanswer]
  rcases after_mem r requests with ⟨hopen, hcalled⟩ | ⟨hclosed, hnever⟩
  · rw [hopen, segmentsAgree_iff h haddress, and_iff_right hcalled]
    simp only [Heap.getPointerSize, latestSegments_nil]
    split
    next hrows =>
      simp only [hrows, ne_eq, not_true_eq_false, false_iff]
      split
      next hcovered => exact iff_of_false PointerSize.noConfusion (not_not.mpr hcovered)
      next huncovered => exact iff_of_true rfl huncovered
    next hrows =>
      simp only [ne_eq, hrows, not_false_eq_true, true_iff]
      split
      next hcovered => exact iff_of_true rfl hcovered
      next huncovered => exact iff_of_false PointerSize.noConfusion huncovered
  · rw [hclosed]
    refine iff_of_false ?_ fun hright => hnever hright.1
    rw [Heap.getPointerSize]
    split <;> simp

/-! ### Examples -/

/-- The segment at 64 is stored, and there is nothing on the heap. -/
def oneSegmentLog : MemoryLog := ⟨oneSegment, []⟩

/-- Before `get_var_value` is called, a pointer to the segment is not valid; afterwards one
is that points in front of it. -/
theorem getPointerSize_misses :
    Covered oneSegment 1 64 ∧ ¬ Covered oneSegment 1 40 ∧
      (Cursors.after oneSegmentLog []).getPointerSize oneSegmentLog 64 1 = .failure ∧
      (Cursors.after oneSegmentLog [[.getVarValue 64 4 1]]).getPointerSize oneSegmentLog 40 1 =
        .success 0 := by
  refine ⟨by decide, by decide, by rfl, by rfl⟩

theorem getPointerSize_valid_iff_start :
    (Cursors.after oneSegmentLog [[.getVarValue 64 4 1]]).getPointerSize oneSegmentLog 64 1 =
      if Covered oneSegmentLog.mem 1 64 then .success 0 else .memNotfound :=
  (getPointerSize_valid_iff oneSegmentLog oneSegment_segments [[.getVarValue 64 4 1]]
    (by decide) (by decide)).mpr
    ⟨⟨_, List.mem_cons_self, 64, 4, 1, List.mem_cons_self⟩,
      segmentsAgree_of_start rfl (by decide)⟩

end FlightRec
