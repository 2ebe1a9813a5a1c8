/-
# `FlightRec.Record.Heap` — what is known of the client's heap

The allocator of the client is replaced by record/preload.c, whose functions call that
of libc and report what it did on a pipe.  Record reads the pipe at every step and
sends a message for each event to the worker of `heap`, with size 0 for a release.
Examine asks what the table says of an address at a step (`get_pointer_size` of
examine/vars.c).

What the answer should be is said by `status`, from what the libc functions do.  The
reports say less: `realloc` does not report the block it releases, an allocation of
size 0 looks like a release, and of two blocks that an address had in one step it is
left open which one is found.  `getPointerSize_classifies_iff` is the answer's
correctness up to these.
-/
import FlightRec.Examine.Value
import FlightRec.Record.DbWorkers

namespace FlightRec.Heap

open Query

/-! ## The calls of the client -/

/-- A call with what it returned, 0 for `NULL`. -/
inductive Call where
  | malloc (size res : Nat)
  | calloc (nmemb size res : Nat)
  | realloc (ptr size res : Nat)
  | free (ptr : Nat)
  deriving DecidableEq, Repr

/-- `enum` of `struct heap_event` -/
inductive EventType where
  | alloc
  | free
  deriving DecidableEq, Repr

/-- `struct heap_event` -/
structure Event where
  type : EventType
  size : Nat
  address : Nat
  deriving DecidableEq, Repr

def sendAllocEvent (address size : Nat) : Event := ⟨.alloc, size, address⟩

def sendFreeEvent (address : Nat) : Event := ⟨.free, 0, address⟩

/-- What the wrappers write to the pipe.  (`__libc_calloc` returns `NULL` where the
product overflows.) -/
def Call.events : Call → List Event
  | .malloc size res => if res ≠ 0 then [sendAllocEvent res size] else []
  | .calloc nmemb size res => if res ≠ 0 then [sendAllocEvent res (nmemb * size)] else []
  | .realloc _ size res => if res ≠ 0 then [sendAllocEvent res size] else []
  | .free ptr => [sendFreeEvent ptr]

/-! ## The table -/

/-- The message of an event that is read at a step (`process_breakpoint`). -/
def Event.heapMsg (stepId : Nat) (event : Event) : HeapMsg :=
  { stepId
    address := event.address
    size := match event.type with
      | .alloc => event.size
      | .free => 0 }

/-- The calls that are reported between the steps, with the step at which their events
are read; the first step is 1. -/
def tagged (drains : List (List Call)) : List (Call × Nat) :=
  (drains.zipIdx 1).flatMap fun d => d.1.map fun call => (call, d.2)

def heapMsgs (drains : List (List Call)) : List HeapMsg :=
  (tagged drains).flatMap fun c => c.1.events.map (Event.heapMsg c.2)

def heapTable (drains : List (List Call)) : List HeapRow := (heapMsgs drains).foldl applyHeap []

theorem wrkInsertHeap_heapTable {env : Nat → Bool} {drains : List (List Call)}
    (h : (wrkInsertHeap env (heapMsgs drains)).2.Succeeded) :
    (wrkInsertHeap env (heapMsgs drains)).2.committed.fr = some (heapTable drains) :=
  (wrkInsertHeap_commits h).2

/-! ## `get_pointer_size` -/

inductive PointerSize where
  | success (size : Nat)
  | memReleased
  | memNotfound
  | failure
  deriving DecidableEq, Repr

/-- `WHERE address = ? AND allocated_at <= ?` -/
def heapRows (heap : List HeapRow) (address curStep : Nat) : List HeapRow :=
  heap.filter fun r => r.address = address ∧ r.allocatedAt ≤ curStep

/-- `get_pointer_size`, with the first row that `ORDER BY allocated_at DESC` returns.
The cursor of the second query is the one of `get_var_value`, which is bound so that it
selects the segments from the address to the next segment; it is `none` as long as
`get_var_value` has not opened it. -/
def getPointerSize (memCursor : Option (List MemMsg)) (fetched : Option HeapRow)
    (address curStep : Nat) : PointerSize :=
  match fetched with
  | some row =>
      if row.freedAt ≠ 0 ∧ row.freedAt ≤ curStep then .memReleased else .success row.size
  | none =>
      match memCursor with
      | none => .failure
      | some mem =>
          if latestSegments mem (address + memSegmentSize) 0 curStep = [] then .memNotfound
          else .success 0

/-! ## What the calls mean -/

/-- What an address is to the client. -/
inductive Status where
  | never
  | live (size : Nat)
  | released
  deriving DecidableEq, Repr

/-- The size of the block that a call returns at `p`. -/
def Call.requested (p : Nat) : Call → Option Nat
  | .malloc size res => if res = p ∧ p ≠ 0 then some size else none
  | .calloc nmemb size res => if res = p ∧ p ≠ 0 then some (nmemb * size) else none
  | .realloc _ size res => if res = p ∧ p ≠ 0 then some size else none
  | .free _ => none

/-- A call that releases the block at `p`: `realloc` does it when it returns another
block, and for size 0. -/
def Call.releases (p : Nat) : Call → Bool
  | .realloc ptr size res => ptr == p && (res != 0 || size == 0)
  | .free ptr => ptr == p
  | _ => false

def Status.release : Status → Status
  | .never => .never
  | _ => .released

/-- What a call does to the block at `p`. -/
def Status.after (p : Nat) (st : Status) (call : Call) : Status :=
  match call.requested p with
  | some n => .live n
  | none => if call.releases p then st.release else st

/-- The calls that are read at steps up to `s`. -/
def callsUpTo (drains : List (List Call)) (s : Nat) : List (Call × Nat) :=
  (tagged drains).filter fun c => c.2 ≤ s

/-- What `p` is after the calls that are read at steps up to `s`. -/
def status (drains : List (List Call)) (s p : Nat) : Status :=
  (callsUpTo drains s).foldl (fun st c => st.after p c.1) .never

/-- An answer is right if it is the size of the block that is live, or that the last one
was released.  Size 0 is also the answer where the size is not known. -/
structure Classifies (st : Status) (answer : PointerSize) : Prop where
  live : ∀ n, st = .live n → answer = .success n
  block : ∀ n, n ≠ 0 → answer = .success n → st = .live n
  released : answer = .memReleased ↔ st = .released

/-! ## What is reported -/

/-- An allocation of `p` that leaves a row, and whether it is reported released later. -/
structure Allocation where
  size : Nat
  step : Nat
  freed : Bool
  deriving DecidableEq, Repr

/-- The calls that are reported like the release of `p`. -/
def Call.reportsRelease (p : Nat) (call : Call) : Bool :=
  call.requested p == some 0 || call == .free p

/-- The allocations of `p` with a size other than 0. -/
def allocations (p : Nat) : List (Call × Nat) → List Allocation
  | [] => []
  | c :: later =>
      match c.1.requested p with
      | some (n + 1) =>
          ⟨n + 1, c.2, later.any fun c => c.1.reportsRelease p⟩ :: allocations p later
      | _ => allocations p later

/-- Those of the last step that has one. -/
def latest (as : List Allocation) : List Allocation :=
  as.filter fun a => as.all fun b => b.step ≤ a.step

/-- The segments that `get_pointer_size` looks for are there. -/
def Backed (memCursor : Option (List MemMsg)) (p s : Nat) : Prop :=
  ∃ mem, memCursor = some mem ∧ memRows mem (p + memSegmentSize) 0 s ≠ []

/-- The reports on `p` up to `s` say what the calls mean: a live block of size 0 has no
predecessor and is in recorded memory; one of another size, and a released one, agrees
with all allocations of `p` in the last step that has one. -/
def Reported (memCursor : Option (List MemMsg)) (drains : List (List Call)) (s p : Nat) : Prop :=
  match status drains s p with
  | .never => True
  | .live 0 => allocations p (callsUpTo drains s) = [] ∧ Backed memCursor p s
  | .live n => ∀ a ∈ latest (allocations p (callsUpTo drains s)), a.size = n ∧ a.freed = false
  | .released => allocations p (callsUpTo drains s) ≠ [] ∧
      ∀ a ∈ latest (allocations p (callsUpTo drains s)), a.freed = true

/-! ## The rows of one address -/

theorem applyHeap_filter (p : Nat) (rows : List HeapRow) (msg : HeapMsg) :
    (applyHeap rows msg).filter (·.address = p) =
      if msg.address = p then applyHeap (rows.filter (·.address = p)) msg
      else rows.filter (·.address = p) := by
  unfold applyHeap
  split
  · rw [List.filter_append, List.filter_cons, List.filter_nil]
    by_cases hp : msg.address = p
    · simp [hp]
    · simp [hp]
  · rw [List.filter_map]
    have haddr : ((fun r : HeapRow => decide (r.address = p)) ∘ fun r =>
        if r.address = msg.address ∧ r.freedAt = 0 then { r with freedAt := msg.stepId } else r) =
        fun r => decide (r.address = p) := by
      funext r
      simp only [Function.comp_apply]
      split <;> rfl
    rw [haddr]
    by_cases hp : msg.address = p
    · rw [if_pos hp]
    · rw [if_neg hp]
      refine (List.map_congr_left fun r hr => ?_).trans (List.map_id _)
      have hr : r.address = p := by simpa using (List.mem_filter.mp hr).2
      exact if_neg fun h => hp (h.1.symm.trans hr)

theorem foldl_applyHeap_filter (p : Nat) (msgs : List HeapMsg) : ∀ rows : List HeapRow,
    (msgs.foldl applyHeap rows).filter (·.address = p) =
      (msgs.filter (·.address = p)).foldl applyHeap (rows.filter (·.address = p)) := by
  induction msgs with
  | nil =>
      intro rows
      rfl
  | cons msg msgs ih =>
      intro rows
      rw [List.foldl_cons, ih, applyHeap_filter, List.filter_cons]
      by_cases hp : msg.address = p
      · rw [if_pos hp, if_pos (by simpa using hp)]
        rfl
      · rw [if_neg hp, if_neg (by simpa using hp)]

/-! ## How the rows end -/

/-- The step of the first release. -/
def closing (msgs : List HeapMsg) : Nat := ((msgs.find? (·.size = 0)).map (·.stepId)).getD 0

def closeRow (step : Nat) (r : HeapRow) : HeapRow :=
  if r.freedAt = 0 then { r with freedAt := step } else r

/-- The rows that messages for one address insert, as they are in the end. -/
def opened : List HeapMsg → List HeapRow
  | [] => []
  | msg :: later =>
      if msg.size ≠ 0 then
        { address := msg.address, size := msg.size, allocatedAt := msg.stepId,
          freedAt := closing later } :: opened later
      else opened later

/-- A release ends every row of the address that has not ended. -/
theorem foldl_applyHeap_eq {p : Nat} {msgs : List HeapMsg} : ∀ {rows : List HeapRow},
    (∀ m ∈ msgs, m.address = p ∧ 0 < m.stepId) → (∀ r ∈ rows, r.address = p) →
      msgs.foldl applyHeap rows = rows.map (closeRow (closing msgs)) ++ opened msgs := by
  induction msgs with
  | nil =>
      intro rows _ _
      have hid : closeRow (closing []) = id := by
        funext r
        unfold closeRow
        split
        · next h => rw [id, closing, List.find?_nil, Option.map_none, Option.getD_none, ← h]
        · rfl
      rw [hid, List.map_id, opened, List.append_nil]
      rfl
  | cons msg msgs ih =>
      intro rows hmsgs hrows
      obtain ⟨hp, hpos⟩ := hmsgs msg List.mem_cons_self
      have hlater : ∀ m ∈ msgs, m.address = p ∧ 0 < m.stepId :=
        fun m hm => hmsgs m (List.mem_cons_of_mem _ hm)
      rw [List.foldl_cons, opened]
      by_cases hsize : msg.size ≠ 0
      · have hclosing : closing (msg :: msgs) = closing msgs := by
          rw [closing, List.find?_cons_of_neg (by simpa using hsize)]
          rfl
        rw [if_pos hsize, applyHeap, if_pos hsize, ih hlater, hclosing, List.map_append,
          List.append_assoc]
        · rfl
        · intro r hr
          rcases List.mem_append.mp hr with hr | hr
          · exact hrows r hr
          · exact List.mem_singleton.mp hr ▸ hp
      · have hclosing : closing (msg :: msgs) = msg.stepId := by
          rw [closing, List.find?_cons_of_pos (by simpa using hsize)]
          rfl
        have hclosed : applyHeap rows msg = rows.map (closeRow msg.stepId) := by
          rw [applyHeap, if_neg hsize]
          refine List.map_congr_left fun r hr => ?_
          unfold closeRow
          exact if_congr (and_iff_right ((hrows r hr).trans hp.symm)) rfl rfl
        have hrest : ∀ r ∈ rows.map (closeRow msg.stepId), r.address = p := by
          intro r hr
          obtain ⟨r', hr', rfl⟩ := List.mem_map.mp hr
          unfold closeRow
          split <;> exact hrows r' hr'
        rw [if_neg hsize, hclosed, ih hlater hrest, hclosing, List.map_map]
        congr 1
        refine List.map_congr_left fun r _ => ?_
        -- what is closed stays closed, as no step is 0
        simp only [Function.comp_apply, closeRow]
        split
        · exact if_neg (by show msg.stepId ≠ 0; omega)
        · rfl

/-! ## What a query sees -/

/-- What `get_pointer_size` sees of a row at step `s`. -/
def seenAt (s : Nat) (r : HeapRow) : Allocation :=
  ⟨r.size, r.allocatedAt, r.freedAt ≠ 0 ∧ r.freedAt ≤ s⟩

/-- The allocations that messages for one address report. -/
def reported : List HeapMsg → List Allocation
  | [] => []
  | msg :: later =>
      if msg.size ≠ 0 then ⟨msg.size, msg.stepId, later.any (·.size = 0)⟩ :: reported later
      else reported later

theorem closing_iff {s : Nat} {msgs : List HeapMsg} (hpos : ∀ m ∈ msgs, 0 < m.stepId)
    (sorted : msgs.Pairwise fun m m' => m.stepId ≤ m'.stepId) :
    (closing msgs ≠ 0 ∧ closing msgs ≤ s) ↔
      (msgs.filter (·.stepId ≤ s)).any (·.size = 0) = true := by
  induction msgs with
  | nil => exact ⟨fun h => absurd rfl h.1, fun h => by cases h⟩
  | cons msg msgs ih =>
      obtain ⟨hfirst, sorted⟩ := List.pairwise_cons.mp sorted
      by_cases hsize : msg.size = 0
      · have hclosing : closing (msg :: msgs) = msg.stepId := by
          rw [closing, List.find?_cons_of_pos (by simpa using hsize)]
          rfl
        rw [hclosing, List.any_eq_true]
        constructor
        · rintro ⟨_, hle⟩
          exact ⟨msg, List.mem_filter.mpr ⟨List.mem_cons_self, by simpa using hle⟩, by
            simpa using hsize⟩
        · rintro ⟨m, hm, _⟩
          obtain ⟨hm, hle⟩ := List.mem_filter.mp hm
          have hle : m.stepId ≤ s := by simpa using hle
          have := hpos msg List.mem_cons_self
          rcases List.mem_cons.mp hm with rfl | hm
          · exact ⟨by omega, hle⟩
          · have := hfirst m hm
            exact ⟨by omega, by omega⟩
      · have hclosing : closing (msg :: msgs) = closing msgs := by
          rw [closing, List.find?_cons_of_neg (by simpa using hsize)]
          rfl
        rw [hclosing, ih (fun m hm => hpos m (List.mem_cons_of_mem _ hm)) sorted, List.filter_cons]
        split
        · rw [List.any_cons, decide_eq_false hsize, Bool.false_or]
        · rfl

theorem opened_seen {s : Nat} {msgs : List HeapMsg} (hpos : ∀ m ∈ msgs, 0 < m.stepId)
    (sorted : msgs.Pairwise fun m m' => m.stepId ≤ m'.stepId) :
    ((opened msgs).filter (·.allocatedAt ≤ s)).map (seenAt s) =
      reported (msgs.filter (·.stepId ≤ s)) := by
  induction msgs with
  | nil => rfl
  | cons msg msgs ih =>
      have hpos' : ∀ m ∈ msgs, 0 < m.stepId := fun m hm => hpos m (List.mem_cons_of_mem _ hm)
      have sorted' := (List.pairwise_cons.mp sorted).2
      rw [opened, List.filter_cons]
      by_cases hsize : msg.size ≠ 0
      · rw [if_pos hsize, List.filter_cons]
        have hfreed : decide (closing msgs ≠ 0 ∧ closing msgs ≤ s) =
            (msgs.filter (·.stepId ≤ s)).any (·.size = 0) := by
          rw [Bool.eq_iff_iff, decide_eq_true_eq]
          exact closing_iff hpos' sorted'
        by_cases hle : msg.stepId ≤ s
        · rw [if_pos (by simpa using hle), if_pos (by simpa using hle), List.map_cons,
            ih hpos' sorted', reported, if_pos hsize, seenAt, hfreed]
        · rw [if_neg (by simpa using hle), if_neg (by simpa using hle), ih hpos' sorted']
      · rw [if_neg hsize, ih hpos' sorted']
        split
        · rw [reported, if_neg hsize]
        · rfl

/-! ## The messages of a client -/

theorem Call.msgs_at (p stepId : Nat) (call : Call) :
    (call.events.map (Event.heapMsg stepId)).filter (·.address = p) =
      match call.requested p with
      | some n => [⟨stepId, p, n⟩]
      | none => if call = .free p then [⟨stepId, p, 0⟩] else [] := by
  cases call with
  | free ptr =>
      simp only [events, requested, sendFreeEvent, List.map_cons, List.map_nil, Event.heapMsg,
        Call.free.injEq]
      by_cases hp : ptr = p
      · simp [hp]
      · simp [hp]
  | malloc size res | calloc nmemb size res | realloc ptr size res =>
      simp only [events, requested]
      by_cases hres : res = 0
      · subst hres
        by_cases hp : p = 0
        · simp [hp]
        · simp [Ne.symm hp]
      · rw [if_pos hres]
        by_cases hp : res = p
        · subst hp
          simp [hres, sendAllocEvent, Event.heapMsg]
        · simp [hp, sendAllocEvent, Event.heapMsg]

section
variable (p : Nat) (calls : List (Call × Nat))

theorem any_size_zero :
    ((calls.flatMap fun c => c.1.events.map (Event.heapMsg c.2)).filter (·.address = p)).any
        (·.size = 0) =
      calls.any fun c => c.1.reportsRelease p := by
  induction calls with
  | nil => rfl
  | cons c calls ih =>
      rw [List.flatMap_cons, List.filter_append, List.any_append, ih, List.any_cons,
        Call.msgs_at, Call.reportsRelease]
      congr 1
      cases hreq : c.1.requested p with
      | some n =>
          -- `free` returns no block
          have hfree : (c.1 == .free p) = false := by
            refine beq_false_of_ne fun h => ?_
            rw [h] at hreq
            cases hreq
          rw [hfree, Bool.or_false]
          cases n with
          | zero => rfl
          | succ n => simp
      | none =>
          by_cases hfree : c.1 = .free p
          · simp [hfree]
          · simp [hfree]

theorem reported_calls :
    reported ((calls.flatMap fun c => c.1.events.map (Event.heapMsg c.2)).filter (·.address = p)) =
      allocations p calls := by
  induction calls with
  | nil => rfl
  | cons c calls ih =>
      rw [List.flatMap_cons, List.filter_append, Call.msgs_at, allocations]
      cases hreq : c.1.requested p with
      | none =>
          dsimp only
          split
          · rw [List.singleton_append, reported, if_neg (by simp), ih]
          · rw [List.nil_append, ih]
      | some n =>
          cases n with
          | zero =>
              dsimp only
              rw [List.singleton_append, reported, if_neg (by simp), ih]
          | succ n =>
              dsimp only
              rw [List.singleton_append, reported, if_pos (by simp), ih, any_size_zero]

end

theorem zipIdx_calls_sorted (drains : List (List Call)) : ∀ k,
    ((drains.zipIdx k).flatMap fun d => d.1.map fun call => (call, d.2)).Pairwise
        (fun c c' => c.2 ≤ c'.2) ∧
      ∀ c ∈ (drains.zipIdx k).flatMap fun d => d.1.map fun call => (call, d.2), k ≤ c.2 := by
  induction drains with
  | nil =>
      intro k
      exact ⟨List.Pairwise.nil, fun c hc => by cases hc⟩
  | cons d drains ih =>
      intro k
      obtain ⟨sorted, hle⟩ := ih (k + 1)
      have hd : ∀ c ∈ d.map fun call => (call, k), c.2 = k := by
        intro c hc
        obtain ⟨call, _, rfl⟩ := List.mem_map.mp hc
        rfl
      rw [List.zipIdx_cons, List.flatMap_cons]
      refine ⟨List.pairwise_append.mpr ⟨?_, sorted, fun c hc c' hc' => ?_⟩, fun c hc => ?_⟩
      · exact List.pairwise_map.mpr (List.pairwise_of_forall fun _ _ => Nat.le_refl k)
      · have := hd c hc
        have := hle c' hc'
        omega
      · rcases List.mem_append.mp hc with hc | hc
        · exact Nat.le_of_eq (hd c hc).symm
        · have := hle c hc
          omega

section
variable (drains : List (List Call))

theorem mem_heapMsgs {m : HeapMsg} (h : m ∈ heapMsgs drains) :
    ∃ c ∈ tagged drains, m.stepId = c.2 := by
  obtain ⟨c, hc, hm⟩ := List.mem_flatMap.mp h
  obtain ⟨event, _, rfl⟩ := List.mem_map.mp hm
  exact ⟨c, hc, rfl⟩

theorem heapMsgs_pos : ∀ m ∈ heapMsgs drains, 0 < m.stepId := by
  intro m hm
  obtain ⟨c, hc, hstep⟩ := mem_heapMsgs drains hm
  have := (zipIdx_calls_sorted drains 1).2 c hc
  omega

theorem heapMsgs_sorted : (heapMsgs drains).Pairwise fun m m' => m.stepId ≤ m'.stepId := by
  refine List.pairwise_flatMap.mpr ⟨fun c _ => ?_, ?_⟩
  · exact List.pairwise_map.mpr (List.pairwise_of_forall fun _ _ => Nat.le_refl c.2)
  · refine (zipIdx_calls_sorted drains 1).1.imp fun hle m hm m' hm' => ?_
    obtain ⟨_, _, rfl⟩ := List.mem_map.mp hm
    obtain ⟨_, _, rfl⟩ := List.mem_map.mp hm'
    exact hle

theorem heapMsgs_upTo (s : Nat) :
    (heapMsgs drains).filter (·.stepId ≤ s) =
      (callsUpTo drains s).flatMap fun c => c.1.events.map (Event.heapMsg c.2) := by
  unfold heapMsgs callsUpTo
  induction tagged drains with
  | nil => rfl
  | cons c calls ih =>
      have hmsgs : (c.1.events.map (Event.heapMsg c.2)).filter (·.stepId ≤ s) =
          if c.2 ≤ s then c.1.events.map (Event.heapMsg c.2) else [] := by
        rw [List.filter_map]
        show (c.1.events.filter fun _ => decide (c.2 ≤ s)).map _ = _
        by_cases hle : c.2 ≤ s
        · simp [hle]
        · simp [hle]
      rw [List.flatMap_cons, List.filter_append, ih, List.filter_cons, hmsgs]
      by_cases hle : c.2 ≤ s
      · rw [if_pos hle, if_pos (by simpa using hle), List.flatMap_cons]
      · rw [if_neg hle, if_neg (by simpa using hle), List.nil_append]

/-- **What the table says of an address at a step** is what was reported by then. -/
theorem heapRows_seen (s p : Nat) :
    (heapRows (heapTable drains) p s).map (seenAt s) =
      allocations p (callsUpTo drains s) := by
  have hat : (heapTable drains).filter (·.address = p) =
      opened ((heapMsgs drains).filter (·.address = p)) := by
    rw [heapTable, foldl_applyHeap_filter, List.filter_nil]
    refine foldl_applyHeap_eq (p := p) (fun m hm => ?_) (fun r hr => by cases hr)
    obtain ⟨hm, hp⟩ := List.mem_filter.mp hm
    exact ⟨by simpa using hp, heapMsgs_pos drains m hm⟩
  have hrows : heapRows (heapTable drains) p s =
      ((heapTable drains).filter (·.address = p)).filter (·.allocatedAt ≤ s) := by
    rw [heapRows, List.filter_filter]
    refine List.filter_congr fun r _ => ?_
    rw [Bool.decide_and, Bool.and_comm]
  rw [hrows, hat, opened_seen, List.filter_filter, ← reported_calls, ← heapMsgs_upTo,
    List.filter_filter]
  · congr 1
    exact List.filter_congr fun m _ => Bool.and_comm _ _
  · exact fun m hm => heapMsgs_pos drains m (List.mem_filter.mp hm).1
  · exact (heapMsgs_sorted drains).filter _

end

/-! ## The status of an address -/

section
variable {p : Nat}

theorem Status.after_ne_never {st : Status} (h : st ≠ .never) (call : Call) :
    st.after p call ≠ .never := by
  unfold Status.after
  split
  · exact fun h => by cases h
  · split
    · cases st with
      | never => exact absurd rfl h
      | live n => exact fun h => by cases h
      | released => exact fun h => by cases h
    · exact h

theorem foldl_after_ne_never {calls : List (Call × Nat)} : ∀ {st : Status}, st ≠ .never →
    calls.foldl (fun st c => st.after p c.1) st ≠ .never := by
  induction calls with
  | nil =>
      intro st h
      exact h
  | cons c calls ih =>
      intro st h
      exact ih (Status.after_ne_never h c.1)

theorem allocations_of_never {calls : List (Call × Nat)} : ∀ {st : Status},
    calls.foldl (fun st c => st.after p c.1) st = .never → allocations p calls = [] := by
  induction calls with
  | nil =>
      intro st _
      rfl
  | cons c calls ih =>
      intro st h
      rw [List.foldl_cons] at h
      rw [allocations]
      split
      · next n hreq =>
          rw [Status.after, hreq] at h
          exact absurd h (foldl_after_ne_never fun h => by cases h)
      · exact ih h

theorem allocations_of_live {n : Nat} {calls : List (Call × Nat)} : ∀ {st : Status},
    calls.foldl (fun st c => st.after p c.1) st = .live (n + 1) →
      st = .live (n + 1) ∨ allocations p calls ≠ [] := by
  induction calls with
  | nil =>
      intro st h
      exact Or.inl h
  | cons c calls ih =>
      intro st h
      rw [List.foldl_cons] at h
      rcases ih h with hlive | hlater
      · rw [Status.after] at hlive
        split at hlive
        · next m hreq =>
            cases hlive
            rw [allocations, hreq]
            exact Or.inr (List.cons_ne_nil _ _)
        · split at hlive
          · cases st <;> cases hlive
          · exact Or.inl hlive
      · rw [allocations]
        split
        · exact Or.inr (List.cons_ne_nil _ _)
        · exact Or.inr hlater

theorem allocations_size_ne_zero {calls : List (Call × Nat)} :
    ∀ a ∈ allocations p calls, a.size ≠ 0 := by
  induction calls with
  | nil => exact fun a ha => by cases ha
  | cons c calls ih =>
      intro a ha
      rw [allocations] at ha
      split at ha
      · rcases List.mem_cons.mp ha with rfl | ha
        · exact Nat.succ_ne_zero _
        · exact ih a ha
      · exact ih a ha

end

/-! ## The classification -/

theorem mem_latest {as : List Allocation} {a : Allocation} :
    a ∈ latest as ↔ a ∈ as ∧ ∀ b ∈ as, b.step ≤ a.step := by
  rw [latest, List.mem_filter, List.all_eq_true]
  simp only [decide_eq_true_eq]

theorem exists_latest {as : List Allocation} (h : as ≠ []) : ∃ a, a ∈ latest as := by
  obtain ⟨a, ha⟩ := List.exists_mem_of_ne_nil _ h
  cases hhead : (orderByDesc Allocation.step as).head? with
  | none => exact absurd ha (orderByDesc_head_none hhead a)
  | some b => exact ⟨b, mem_latest.mpr (orderByDesc_head hhead)⟩

/-- The rows that can come first are seen as the allocations of the last step. -/
theorem forall_latest_rows_iff (drains : List (List Call)) (s p : Nat) (Q : Allocation → Prop) :
    (∀ r ∈ heapRows (heapTable drains) p s,
      (∀ x ∈ heapRows (heapTable drains) p s, x.allocatedAt ≤ r.allocatedAt) →
        Q (seenAt s r)) ↔ ∀ a ∈ latest (allocations p (callsUpTo drains s)), Q a := by
  rw [← heapRows_seen drains s p]
  constructor
  · intro h a ha
    rw [mem_latest, List.forall_mem_map] at ha
    obtain ⟨ha, hmax⟩ := ha
    obtain ⟨r, hr, rfl⟩ := List.mem_map.mp ha
    exact h r hr hmax
  · intro h r hr hmax
    refine h _ (mem_latest.mpr ?_)
    rw [List.forall_mem_map]
    exact ⟨List.mem_map_of_mem hr, hmax⟩

/-! What is right for each status. -/

theorem classifies_never_iff {answer : PointerSize} :
    Classifies .never answer ↔ answer ≠ .memReleased ∧ ∀ n, n ≠ 0 → answer ≠ .success n := by
  constructor
  · rintro ⟨_, block, released⟩
    refine ⟨fun h => ?_, fun n hn h => ?_⟩
    · cases released.mp h
    · cases block n hn h
  · rintro ⟨hreleased, hblock⟩
    refine ⟨fun n h => (by cases h), fun n hn h => absurd h (hblock n hn), ?_⟩
    exact ⟨fun h => absurd h hreleased, fun h => by cases h⟩

theorem classifies_live_iff {n : Nat} {answer : PointerSize} :
    Classifies (.live n) answer ↔ answer = .success n := by
  constructor
  · exact fun h => h.live n rfl
  · rintro rfl
    refine ⟨fun m hm => ?_, fun m _ hm => ?_, fun h => (by cases h), fun h => by cases h⟩
    · cases hm
      rfl
    · cases hm
      rfl

theorem classifies_released_iff {answer : PointerSize} :
    Classifies .released answer ↔ answer = .memReleased := by
  constructor
  · exact fun h => h.released.mpr rfl
  · rintro rfl
    exact ⟨fun n h => (by cases h), fun n _ h => (by cases h), iff_of_true rfl rfl⟩

section
variable (memCursor : Option (List MemMsg)) {p s : Nat}

/-- The answer for a row that is seen as this allocation. -/
def Allocation.answer (a : Allocation) : PointerSize :=
  if a.freed = true then .memReleased else .success a.size

theorem Allocation.answer_released_iff (a : Allocation) :
    a.answer = .memReleased ↔ a.freed = true := by
  unfold Allocation.answer
  split
  · next hfreed => exact iff_of_true rfl hfreed
  · next hfreed => exact iff_of_false (fun h => by cases h) hfreed

theorem Allocation.answer_success_iff (a : Allocation) (n : Nat) :
    a.answer = .success n ↔ a.size = n ∧ a.freed = false := by
  unfold Allocation.answer
  split
  · next hfreed => simp [hfreed]
  · next hfreed => simp [hfreed]

theorem getPointerSize_some (r : HeapRow) :
    getPointerSize memCursor (some r) p s = (seenAt s r).answer := by
  simp only [getPointerSize, seenAt, Allocation.answer, decide_eq_true_eq]

theorem getPointerSize_none : ∀ answer, getPointerSize memCursor none p s = answer →
    answer ≠ .memReleased ∧ (∀ n, n ≠ 0 → answer ≠ .success n) ∧
      (answer = .success 0 ↔ Backed memCursor p s) := by
  rintro _ rfl
  unfold getPointerSize Backed
  cases memCursor with
  | none => simp
  | some mem =>
      simp only [latestSegments_nil]
      split
      · next hnil => simp [hnil]
      · next hne => simpa [hne] using fun n hn h => hn h.symm

end

/-- **What `get_pointer_size` knows of the heap.**  For any calls of the client, step and
address, the answers are right, in whatever order rows of one step come, exactly if the
reports on the address say what the calls mean. -/
theorem getPointerSize_classifies_iff (memCursor : Option (List MemMsg))
    (drains : List (List Call)) (s p : Nat) :
    (∀ rows, AnswersDesc HeapRow.allocatedAt (heapRows (heapTable drains) p s) rows →
        Classifies (status drains s p) (getPointerSize memCursor rows.head? p s)) ↔
      Reported memCursor drains s p := by
  have hnil : heapRows (heapTable drains) p s = [] ↔ allocations p (callsUpTo drains s) = [] := by
    rw [← heapRows_seen drains s p, List.map_eq_nil_iff]
  obtain ⟨hreleased, hblock, hbacked⟩ := getPointerSize_none memCursor (p := p) (s := s) _ rfl
  rw [forall_answersDesc_head_iff (P := fun fetched =>
    Classifies (status drains s p) (getPointerSize memCursor fetched p s))]
  simp only [getPointerSize_some]
  rw [forall_latest_rows_iff drains s p fun a => Classifies (status drains s p) a.answer, hnil]
  unfold Reported
  cases hst : status drains s p with
  | never =>
      refine iff_of_true ⟨fun _ => classifies_never_iff.mpr ⟨hreleased, hblock⟩, ?_⟩ trivial
      rw [allocations_of_never hst]
      exact fun a ha => by cases ha
  | released =>
      simp only [classifies_released_iff, Allocation.answer_released_iff]
      refine and_congr_left fun _ => ?_
      exact ⟨fun h hnone => hreleased (h hnone), fun hsome hnone => absurd hnone hsome⟩
  | live n =>
      simp only [classifies_live_iff, Allocation.answer_success_iff]
      cases n with
      | zero =>
          -- a row has a size, so that there can be none
          constructor
          · rintro ⟨hfirst, hrest⟩
            have hnone : allocations p (callsUpTo drains s) = [] := by
              by_contra hsome
              obtain ⟨a, ha⟩ := exists_latest hsome
              exact allocations_size_ne_zero a (mem_latest.mp ha).1 (hrest a ha).1
            exact ⟨hnone, hbacked.mp (hfirst hnone)⟩
          · rintro ⟨hnone, hmem⟩
            refine ⟨fun _ => hbacked.mpr hmem, ?_⟩
            rw [hnone]
            exact fun a ha => by cases ha
      | succ n =>
          have hsome : allocations p (callsUpTo drains s) ≠ [] := by
            rcases allocations_of_live hst with h | h
            · cases h
            · exact h
          exact and_iff_right fun hnone => absurd hnone hsome

/-- A block is moved by `realloc` between the first two steps. -/
def movedBlock : List (List Call) := [[.malloc 8 0x1000], [.realloc 0x1000 64 0x2000]]

/-- Its old address is still live in the table. -/
theorem movedBlock_unreleased :
    ¬ ∀ rows, AnswersDesc HeapRow.allocatedAt (heapRows (heapTable movedBlock) 0x1000 2) rows →
      Classifies (status movedBlock 2 0x1000) (getPointerSize none rows.head? 0x1000 2) := by
  intro h
  have hanswer := (h _ (orderByDesc_answers _ _)).released.mpr (by decide)
  exact absurd hanswer (by decide)

end FlightRec.Heap
