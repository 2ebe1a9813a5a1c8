/-
# `FlightRec.LiveMemory` — what Examine shows is what the client had

The two threads of Record with the memory of the client, which changes while they work.
The client writes to its pages; the kernel reports the first write to a page since
`clear_refs` was last reset, and `process_breakpoint` has it reset at every stop that
finds `mem_dirty` set, before the client goes on.  The runs are those in which the client
maps no memory and leaves its program break alone.

The cache is the client's memory, except on the pages of the faults that have not been
processed (`Coherent.current`); and at a stop that drains the channel there are none.  So in
every such run, in whatever order the client and the two threads take their actions, the
table `mem` gives back the client's memory as of each such stop, at any time after it
(`recording_faithful`).
-/
import FlightRec.Record.MemKeys

namespace FlightRec

open Chunks Intervals Relation

/-! ## The client writes -/

/-- Two addresses are on one page. -/
def SamePage (x y : Nat) : Prop := x / pageSize = y / pageSize

/-- Events behind which memory is mapped. -/
def BpfEvent.maps : BpfEvent → Bool
  | .mmapExit _ | .brk _ => true
  | _ => false

/-- The faults that were not processed yet, in the channel and in the queue. -/
def System.unprocessed (s : System) : List Nat :=
  s.bpf.procMemCh ++ s.queue.filterMap BpfEvent.fault?

/-- The pages of these faults. -/
def System.pending (s : System) : List Nat := s.unprocessed.map (· / pageSize)

/-- The main loop has come to a stop with `mem_dirty` set; `clear_refs` is reset before
the client goes on. -/
def System.resets (s s' : System) : Bool :=
  match s.main, s'.main with
  | .enter _, .decide _ => s.bpf.memDirty
  | _, _ => false

/-- The recorder, the memory of the client, and the pages whose next write is not reported. -/
structure Live where
  sys : System
  memory : Nat → UInt8
  touched : List Nat

/-- One action, of the client or of a thread of the recorder.  At a stop, `c` tells the
memory that the recorder will read in this step. -/
inductive LiveStep (c : Client) : Live → Live → Prop
  /-- The first write to a page. -/
  | fault {l : Live} (address : Nat) (memory : Nat → UInt8) (runs : l.sys.main.clientRuns)
      (clean : address / pageSize ∉ l.touched)
      (others : ∀ x, ¬ SamePage x address → memory x = l.memory x) :
      LiveStep c l
        { sys := { l.sys with
            queue := l.sys.queue ++ [.pagefault address]
            hist := { l.sys.hist with faults := l.sys.hist.faults ++ [address] } }
          memory
          touched := address / pageSize :: l.touched }
  /-- A write to a page that was written to already. -/
  | write {l : Live} (page : Nat) (memory : Nat → UInt8) (runs : l.sys.main.clientRuns)
      (dirty : page ∈ l.touched) (others : ∀ x, x / pageSize ≠ page → memory x = l.memory x) :
      LiveStep c l { l with memory }
  | step {l : Live} {s' : System} (hstep : Step c l.sys s')
      (unmapped : ∀ e ∈ s'.queue, e.maps = false)
      (seen : ∀ line, l.sys.main = .waitStop → s'.main = .waitSem line →
        ∀ r ∈ l.sys.bpf.mem.cache, ∀ x, r.Contains x →
          c.byte l.sys.nextStep x = some (l.memory x)) :
      LiveStep c l
        { l with sys := s', touched := if l.sys.resets s' then [] else l.touched }

/-- Regions as `/proc/<pid>/maps` has them: whole pages, none of them the first. -/
structure PageLayout (cache : List Region) : Prop where
  separated : Separated Region.start Region.stop cache
  pages : ∀ r ∈ cache, r.start % pageSize = 0 ∧ 0 < r.start ∧ r.stop % pageSize = 0

/-- The state in which the main loop is entered.  The recorder knows the memory but for
the pages that the client has touched before the faults were watched. -/
structure Begun (c : Client) (missed : List Nat) (l : Live) : Prop where
  start : ∃ mem tracer memDirty, l.sys = .start mem tracer memDirty
  layout : PageLayout l.sys.bpf.mem.cache
  synced : Synced c l.sys.tracer.stepId l.sys.bpf.mem
  cached : ∀ r ∈ l.sys.bpf.mem.cache, ∀ x, r.Contains x → x / pageSize ∉ missed →
    r.pages (x - r.start) = l.memory x
  touched : ∀ page ∈ l.touched, page ∈ missed

/-! ## A page is processed -/

theorem PageLayout.of_bounds {cache cache' : List Region} (h : PageLayout cache)
    (hbounds : cache'.map (fun r => (r.start, r.stop)) = cache.map fun r => (r.start, r.stop)) :
    PageLayout cache' := by
  have hmem : ∀ r ∈ cache', ∃ q ∈ cache, q.start = r.start ∧ q.stop = r.stop := by
    intro r hr
    have hr' : (r.start, r.stop) ∈ cache.map fun r => (r.start, r.stop) := by
      rw [← hbounds]
      exact List.mem_map.mpr ⟨r, hr, rfl⟩
    obtain ⟨q, hq, heq⟩ := List.mem_map.mp hr'
    exact ⟨q, hq, (Prod.mk.inj heq).1, (Prod.mk.inj heq).2⟩
  refine ⟨⟨fun r hr => ?_, ?_⟩, fun r hr => ?_⟩
  · obtain ⟨q, hq, h1, h2⟩ := hmem r hr
    rw [← h1, ← h2]
    exact h.separated.nonempty q hq
  · have hpair : (cache.map fun r => (r.start, r.stop)).Pairwise fun a b => a.2 ≤ b.1 :=
      List.pairwise_map.mpr h.separated.ordered
    rw [← hbounds] at hpair
    exact List.pairwise_map.mp hpair
  · obtain ⟨q, hq, h1, h2⟩ := hmem r hr
    rw [← h1, ← h2]
    exact h.pages q hq

theorem PageLayout.page {cache : List Region} (h : PageLayout cache) {r : Region} (hr : r ∈ cache)
    {a : Nat} (ha : r.Contains a) :
    r.start + (a - r.start) / pageSize * pageSize = a / pageSize * pageSize ∧
      r.start + ((a - r.start) / pageSize + 1) * pageSize ≤ r.stop ∧
      0 < a / pageSize * pageSize := by
  obtain ⟨hstart, hpos, hstop⟩ := h.pages r hr
  obtain ⟨hlo, hhi⟩ := ha
  unfold pageSize at *
  omega

theorem PageLayout.contains {cache : List Region} (h : PageLayout cache) {r : Region}
    (hr : r ∈ cache) {a x : Nat} (hx : r.Contains x) (hsame : SamePage x a) : r.Contains a := by
  obtain ⟨hstart, hpos, hstop⟩ := h.pages r hr
  obtain ⟨hlo, hhi⟩ := hx
  unfold SamePage pageSize at *
  constructor <;> omega

/-- What processing the page of an address does, with the client's memory at the step
being `memory`. -/
structure PageRead (c : Client) (step a : Nat) (memory : Nat → UInt8) (st st' : MemState) :
    Prop where
  synced : Synced c step st'
  bounds : st'.cache.map (fun r => (r.start, r.stop)) = st.cache.map fun r => (r.start, r.stop)
  pages : ∀ r' ∈ st'.cache, ∃ r ∈ st.cache, r.start = r'.start ∧ r.stop = r'.stop ∧
    ∀ x, r.Contains x → r'.pages (x - r.start) = r.pages (x - r.start) ∨
      SamePage x a ∧ r'.pages (x - r.start) = memory x
  reads : ∀ r' ∈ st'.cache, ∀ x, r'.Contains x → SamePage x a → r'.pages (x - r'.start) = memory x
  log : ∃ sent, st'.log = st.log ++ sent ∧ ∀ m ∈ sent, m.stepId = step

section
variable {c : Client} {step a : Nat} {memory : Nat → UInt8} {st : MemState}

theorem procDirtyMem_uncached (layout : PageLayout st.cache)
    (hnone : ∀ r ∈ st.cache, ¬ r.Contains a) : procDirtyMem c step [a] st = st := by
  have hfind : findPage st.cache a = none := by
    unfold findPage
    cases hsearch : Intervals.search Region.start Region.stop st.cache a 0 st.cache.length with
    | none => rfl
    | some i =>
        obtain ⟨hi, hin⟩ := (search_eq_some_iff layout.separated).mp hsearch
        exact absurd hin (hnone _ (List.getElem_mem hi))
  simp only [procDirtyMem, hfind]

/-- The page of a cached address, when it is processed: its bytes are the client's, and
the others of the region stay. -/
theorem PageLayout.processPage_bytes (layout : PageLayout st.cache) {r : Region} {i : Nat}
    (hget : st.cache[i]? = some r) (ha : r.Contains a)
    (hseen : ∀ x, r.Contains x → c.byte step x = some (memory x)) :
    ∃ pages sent, processPage c i ((a - r.start) / pageSize) step st =
        { cache := st.cache.set i { r with pages }, log := st.log ++ sent } ∧
      (∀ m ∈ sent, m.stepId = step) ∧
      (∀ x, r.Contains x → SamePage x a → pages (x - r.start) = memory x) ∧
      ∀ x, r.Contains x → ¬ SamePage x a → pages (x - r.start) = r.pages (x - r.start) := by
  obtain ⟨hpage, hend, hpos⟩ := layout.page (List.mem_of_getElem? hget) ha
  generalize hn : (a - r.start) / pageSize = n at *
  have hsucc : (n + 1) * pageSize = n * pageSize + pageSize := Nat.succ_mul _ _
  have hread : ∀ j < pageSize, c.byte step (r.start + n * pageSize + j) =
      some (memory (r.start + n * pageSize + j)) := fun j hj =>
    hseen _ ⟨by omega, by omega⟩
  obtain ⟨hcount, hbuffer⟩ :=
    @Client.readv_full c step (r.start + n * pageSize) pageSize fun j hj => by rw [hread j hj]; rfl
  obtain ⟨scan, hscan⟩ : ∃ scan, scan = scanSegments
      (c.readv step (r.start + n * pageSize) pageSize).2 (r.start + n * pageSize) (n * pageSize)
      step pageSegments r.pages := ⟨_, rfl⟩
  refine ⟨scan.1, scan.2, ?_, fun m hm => ?_, fun x hx hsame => ?_, fun x hx hsame => ?_⟩
  · simp only [processPage, hget]
    rw [if_neg (by rw [hcount]; decide), hscan]
  · exact scanSegments_step m (hscan ▸ hm)
  · obtain ⟨hlo, hhi⟩ := hx
    have hoff : n * pageSize ≤ x - r.start ∧ x - r.start < n * pageSize + pageSize ∧
        r.start + n * pageSize + (x - r.start - n * pageSize) = x := by
      unfold SamePage pageSize at *
      omega
    rw [hscan, scanSegments_pages, ← pageSize_eq, if_pos ⟨hoff.1, hoff.2.1⟩, hbuffer _ (by omega),
      Client.memory, hread _ (by omega), hoff.2.2]
    rfl
  · obtain ⟨hlo, hhi⟩ := hx
    rw [hscan, scanSegments_pages, ← pageSize_eq, if_neg]
    rintro ⟨h1, h2⟩
    refine hsame ?_
    unfold SamePage pageSize at *
    omega

theorem procDirtyMem_pageRead (layout : PageLayout st.cache) (synced : Synced c step st)
    (hseen : ∀ r ∈ st.cache, ∀ x, r.Contains x → c.byte step x = some (memory x)) :
    PageRead c step a memory st (procDirtyMem c step [a] st) := by
  by_cases hcached : ∃ r ∈ st.cache, r.Contains a
  · obtain ⟨r, hr, ha⟩ := hcached
    obtain ⟨hpage, hend, hpos⟩ := layout.page hr ha
    obtain ⟨i, hget⟩ := List.mem_iff_getElem?.mp hr
    obtain ⟨hi, rfl⟩ := List.getElem?_eq_some_iff.mp hget
    have hfind : findPage st.cache a = some (i, (a - st.cache[i].start) / pageSize) := by
      unfold findPage
      rw [(search_eq_some_iff layout.separated).mpr ⟨hi, ha⟩, Option.bind_some, hget]
      rfl
    rw [procDirtyMem_eq hfind hget (by omega)]
    have hsynced := processPage_synced synced ⟨_, hget, hend, fun j hj => by
      rw [hseen _ hr _ ⟨by omega, by rw [Nat.succ_mul] at hend; omega⟩]
      rfl⟩
    have hbounds := processPage_bounds c i ((a - st.cache[i].start) / pageSize) step st
    obtain ⟨pages, sent, hrun, hsent, hpages, hothers⟩ :=
      layout.processPage_bytes hget ha (hseen _ hr)
    rw [hrun] at hsynced hbounds ⊢
    refine ⟨hsynced, hbounds, fun r' hr' => ?_, fun r' hr' x hx hsame => ?_, sent, rfl, hsent⟩
    · rcases List.mem_or_eq_of_mem_set hr' with hr' | rfl
      · exact ⟨r', hr', rfl, rfl, fun x _ => Or.inl rfl⟩
      · refine ⟨_, hr, rfl, rfl, fun x hx => ?_⟩
        by_cases hsame : SamePage x a
        · exact Or.inr ⟨hsame, hpages x hx hsame⟩
        · exact Or.inl (hothers x hx hsame)
    · obtain ⟨j, hj⟩ := List.mem_iff_getElem?.mp hr'
      rw [List.getElem?_set] at hj
      by_cases hij : i = j
      · rw [if_pos hij, if_pos hi] at hj
        cases hj
        exact hpages x hx hsame
      · -- another region has no address of the page
        rw [if_neg hij] at hj
        exact absurd (layout.contains (List.mem_of_getElem? hj) hx hsame)
          (synced.disjoint_getElem hget hj hij ha)
  · have hnone : ∀ r ∈ st.cache, ¬ r.Contains a := fun r hr ha => hcached ⟨r, hr, ha⟩
    rw [procDirtyMem_uncached layout hnone]
    refine ⟨synced, rfl, fun r hr => ⟨r, hr, rfl, rfl, fun x _ => Or.inl rfl⟩,
      fun r hr x hx hsame => ?_, [], (List.append_nil _).symm, fun m hm => by cases hm⟩
    exact absurd (layout.contains hr hx hsame) (hnone r hr)

end

/-! ## Coherence -/

/-- The latest message of a segment up to a step holds what the client has at the step. -/
def Shows (c : Client) (log : List MemMsg) (step a : Nat) : Prop :=
  ∃ m ∈ log, m.stepId ≤ step ∧ m.address = a ∧ m.content = c.segmentAt step a ∧
    ∀ m' ∈ log, m'.stepId ≤ step → m'.address = a → m'.stepId ≤ m.stepId

/-- So it is of all cached segments, but for those on a missed page. -/
def ShowsAll (c : Client) (missed : List Nat) (mem : MemState) (step : Nat) : Prop :=
  ∀ r ∈ mem.cache, ∀ i, r.start + memSegmentSize * i < r.stop →
    (r.start + memSegmentSize * i) / pageSize ∉ missed →
      Shows c mem.log step (r.start + memSegmentSize * i)

/-- A stop that drains the channel, with the draining done. -/
def System.Drained (s : System) (k : Nat) : Prop :=
  ∃ line, (k, line) ∈ s.hist.stops ∧ line.funcFlag ≠ funcFlagStart ∧
    k < s.tracer.stepId + s.main.decided

/-- The channel may be drained in this step. -/
def System.Draining (s : System) : Prop :=
  (∃ line, s.main = .drain line) ∨ ∃ line, s.main = .decide line ∧ s.bpf.memDirty = true

/-- Where the channel is drained, or it is decided whether it will be. -/
def MainPc.drains : MainPc → Bool
  | .drain _ | .decide _ => true
  | _ => false

/-- How cache, table and pending faults fit the memory of the client. -/
structure Coherent (c : Client) (first : Nat) (missed : List Nat) (l : Live) : Prop where
  proto : Protocol first l.sys
  layout : PageLayout l.sys.bpf.mem.cache
  synced : Synced c l.sys.tracer.stepId l.sys.bpf.mem
  unmapped : ∀ e ∈ l.sys.queue, e.maps = false
  touched : l.sys.bpf.stop = false → ∀ page ∈ l.touched, page ∈ missed ∨ page ∈ l.sys.pending
  current : l.sys.bpf.stop = false → ∀ r ∈ l.sys.bpf.mem.cache, ∀ x, r.Contains x →
    x / pageSize ∉ missed → x / pageSize ∈ l.sys.pending ∨ r.pages (x - r.start) = l.memory x
  clean : l.sys.Draining → l.touched = []
  seen : ∀ line, l.sys.main.line? = some line → ∀ r ∈ l.sys.bpf.mem.cache, ∀ x, r.Contains x →
    c.byte (l.sys.tracer.stepId + l.sys.main.uncounted) x = some (l.memory x)
  shown : ∀ k, l.sys.Drained k → ShowsAll c missed l.sys.bpf.mem k

section
variable {c : Client} {first : Nat} {missed : List Nat} {l : Live} {s' : System}

theorem System.Draining.drains {s : System} (h : s.Draining) : s.main.drains = true := by
  rcases h with ⟨line, hline⟩ | ⟨line, hline, _⟩ <;> rw [hline] <;> rfl

theorem Begun.coherent (h : Begun c missed l) : Coherent c l.sys.tracer.stepId missed l := by
  obtain ⟨mem, tracer, memDirty, hsys⟩ := h.start
  have hlayout := h.layout
  have hsynced := h.synced
  have hcached := h.cached
  rw [hsys] at hlayout hsynced hcached
  have hmain : l.sys.main = .cont := by rw [hsys]; rfl
  refine ⟨?_, h.layout, h.synced, ?_, fun _ page hpage => Or.inl (h.touched page hpage),
    fun _ r hr x hx hmissed => Or.inr (h.cached r hr x hx hmissed), ?_, ?_, ?_⟩
  · rw [hsys]
    exact protocol_start mem tracer memDirty
  · rw [hsys]
    exact fun e he => by cases he
  · intro hdraining
    have hdrains := hdraining.drains
    rw [hmain] at hdrains
    cases hdrains
  · intro line hline
    rw [hmain] at hline
    cases hline
  · rintro k ⟨line, hstop, _⟩
    rw [hsys] at hstop
    cases hstop

theorem begun_start {mem : MemState} (tracer : Tracer) (memDirty : Bool) (touched : List Nat)
    {memory : Nat → UInt8} (layout : PageLayout mem.cache) (synced : Synced c tracer.stepId mem)
    (cached : ∀ r ∈ mem.cache, ∀ x, r.Contains x → x / pageSize ∉ missed →
      r.pages (x - r.start) = memory x)
    (htouched : ∀ page ∈ touched, page ∈ missed) :
    Begun c missed ⟨.start mem tracer memDirty, memory, touched⟩ :=
  ⟨⟨mem, tracer, memDirty, rfl⟩, layout, synced, cached, htouched⟩

theorem Shows.later {log sent : List MemMsg} {k a : Nat} (h : Shows c log k a)
    (hsent : ∀ m ∈ sent, k < m.stepId) : Shows c (log ++ sent) k a := by
  obtain ⟨m, hm, hle, haddr, hcontent, hmax⟩ := h
  refine ⟨m, List.mem_append_left _ hm, hle, haddr, hcontent, fun m' hm' hle' haddr' => ?_⟩
  rcases List.mem_append.mp hm' with hm' | hm'
  · exact hmax m' hm' hle' haddr'
  · have := hsent m' hm'
    omega

/-- When no fault is pending at a stop, the table shows the memory at the stop. -/
theorem Coherent.showsAll (h : Coherent c first missed l) (running : l.sys.bpf.stop = false)
    {line : CachedLine} (hline : l.sys.main.line? = some line)
    (counted : l.sys.main.uncounted = 0) (hnone : l.sys.pending = []) :
    ShowsAll c missed l.sys.bpf.mem l.sys.tracer.stepId := by
  intro r hr i hi hmissed
  obtain ⟨m, hm, haddr, hcontent, hmax⟩ := h.synced.latest r hr i hi
  refine ⟨m, hm, h.synced.bound m hm, haddr, ?_, fun m' hm' _ haddr' =>
    hmax m' hm' (haddr'.trans haddr.symm)⟩
  obtain ⟨hstart, _, hstop⟩ := h.layout.pages r hr
  rw [hcontent]
  refine segment_eq_iff.mpr fun k hk => ?_
  have hin : r.Contains (r.start + memSegmentSize * i + k) := by
    constructor
    · omega
    · unfold memSegmentSize pageSize at *
      omega
  have hpage : (r.start + memSegmentSize * i + k) / pageSize =
      (r.start + memSegmentSize * i) / pageSize := by
    unfold memSegmentSize pageSize at *
    omega
  have hbyte := (h.current running r hr _ hin (by rwa [hpage])).resolve_left (by simp [hnone])
  have hseen := h.seen line hline r hr _ hin
  rw [counted, Nat.add_zero] at hseen
  have hoff : r.start + memSegmentSize * i + k - r.start = memSegmentSize * i + k := by omega
  rw [hoff] at hbyte
  rw [hbyte, Nat.zero_add, Client.memory, hseen]
  rfl

theorem Coherent.frame (h : Coherent c first missed l) (hstep : Step c l.sys s')
    (unmapped : ∀ e ∈ s'.queue, e.maps = false) (mem : s'.bpf.mem = l.sys.bpf.mem)
    (step : l.sys.tracer.stepId ≤ s'.tracer.stepId)
    (faults : s'.bpf.stop = false →
      l.sys.bpf.stop = false ∧ l.sys.unprocessed ⊆ s'.unprocessed)
    (clean : s'.Draining → l.sys.Draining ∨ l.sys.resets s' = true)
    (seen : ∀ line, s'.main.line? = some line → ∀ r ∈ l.sys.bpf.mem.cache, ∀ x, r.Contains x →
      c.byte (s'.tracer.stepId + s'.main.uncounted) x = some (l.memory x))
    (shown : ∀ k, s'.Drained k → l.sys.Drained k ∨ ShowsAll c missed l.sys.bpf.mem k) :
    Coherent c first missed
      { l with sys := s', touched := if l.sys.resets s' then [] else l.touched } := by
  have hsub : ∀ page ∈ (if l.sys.resets s' then [] else l.touched), page ∈ l.touched := by
    intro page hpage
    split at hpage
    · cases hpage
    · exact hpage
  have pending : s'.bpf.stop = false → l.sys.bpf.stop = false ∧ l.sys.pending ⊆ s'.pending :=
    fun hs => ⟨(faults hs).1, List.map_subset _ (faults hs).2⟩
  refine ⟨h.proto.step hstep, ?_, ?_, unmapped, fun hs page hpage => ?_,
    fun hs r hr x hx hmissed => ?_, fun hdraining => ?_, ?_, fun k hk => ?_⟩
  · rw [mem]
    exact h.layout
  · rw [mem]
    exact h.synced.mono step
  · exact (h.touched (pending hs).1 page (hsub page hpage)).imp id fun hin => (pending hs).2 hin
  · rw [mem] at hr
    exact (h.current (pending hs).1 r hr x hx hmissed).imp (fun hin => (pending hs).2 hin) id
  · rcases clean hdraining with hold | hresets
    · rw [h.clean hold]
      exact ite_self _
    · exact if_pos hresets
  · rw [mem]
    exact seen
  · rw [mem]
    exact (shown k hk).elim (h.shown k) id

theorem Coherent.beside (h : Coherent c first missed l) (hstep : Step c l.sys s')
    (unmapped : ∀ e ∈ s'.queue, e.maps = false) (mem : s'.bpf.mem = l.sys.bpf.mem)
    (main : s'.main = l.sys.main) (tracer : s'.tracer = l.sys.tracer)
    (stops : s'.hist.stops = l.sys.hist.stops)
    (faults : s'.bpf.stop = false →
      l.sys.bpf.stop = false ∧ l.sys.unprocessed ⊆ s'.unprocessed)
    (dirty : l.sys.main.inBreakpoint = true → s'.bpf.memDirty = l.sys.bpf.memDirty) :
    Coherent c first missed
      { l with sys := s', touched := if l.sys.resets s' then [] else l.touched } := by
  refine h.frame hstep unmapped mem (Nat.le_of_eq (congrArg _ tracer.symm)) faults
    (fun hdraining => Or.inl ?_) ?_ fun k hk => Or.inl ?_
  · rcases hdraining with ⟨line, hline⟩ | ⟨line, hline, hdirty⟩
    · exact Or.inl ⟨line, main.symm.trans hline⟩
    · have hmain := main.symm.trans hline
      exact Or.inr ⟨line, hmain, (dirty (by rw [hmain]; rfl)).symm.trans hdirty⟩
  · rw [main, tracer]
    exact h.seen
  · unfold System.Drained at hk ⊢
    rwa [main, tracer, stops] at hk

theorem Coherent.move (h : Coherent c first missed l) (hstep : Step c l.sys s')
    (unmapped : ∀ e ∈ s'.queue, e.maps = false) (mem : s'.bpf.mem = l.sys.bpf.mem)
    (faults : s'.bpf.stop = false →
      l.sys.bpf.stop = false ∧ l.sys.unprocessed ⊆ s'.unprocessed)
    (stepId : s'.tracer.stepId = l.sys.tracer.stepId) (stops : s'.hist.stops = l.sys.hist.stops)
    (decided : s'.main.decided = l.sys.main.decided)
    (line : s'.main.line? = none ∨
      s'.main.line? = l.sys.main.line? ∧ s'.main.uncounted = l.sys.main.uncounted)
    (clean : s'.Draining → l.sys.Draining) :
    Coherent c first missed
      { l with sys := s', touched := if l.sys.resets s' then [] else l.touched } := by
  refine h.frame hstep unmapped mem (Nat.le_of_eq stepId.symm) faults
    (fun hdraining => Or.inl (clean hdraining)) (fun line' hline' => ?_) fun k hk => Or.inl ?_
  · rcases line with hnone | ⟨hsame, huncounted⟩
    · rw [hnone] at hline'
      cases hline'
    · rw [stepId, huncounted]
      exact h.seen line' (hsame.symm.trans hline')
  · unfold System.Drained at hk ⊢
    rwa [stepId, stops, decided] at hk

/-- The main loop goes on behind what it does with the channel, which is empty by then at
a line inside a function. -/
theorem Coherent.decide (h : Coherent c first missed l) {line : CachedLine} {bpf : BpfState}
    (hstep : Step c l.sys { l.sys with main := .resume line, bpf })
    (mem : bpf.mem = l.sys.bpf.mem) (ch : bpf.procMemCh = l.sys.bpf.procMemCh)
    (inside : l.sys.main.inBreakpoint = true) (at_ : l.sys.main.line? = some line)
    (counted : l.sys.main.uncounted = 0) (undecided : l.sys.main.decided = 0)
    (empty : line.funcFlag ≠ funcFlagStart → l.sys.bpf.procMemCh = []) :
    Coherent c first missed
      { l with
        sys := { l.sys with main := .resume line, bpf }
        touched := if l.sys.resets { l.sys with main := .resume line, bpf } then []
          else l.touched } := by
  have running : l.sys.bpf.stop = false :=
    h.proto.hand.running rfl fun hmain => by rw [hmain] at inside; cases inside
  have hfaults : l.sys.unprocessed ⊆
      System.unprocessed { l.sys with main := .resume line, bpf } := by
    unfold System.unprocessed
    rw [ch]
    exact List.Subset.refl _
  refine h.frame hstep h.unmapped mem (Nat.le_refl _) (fun _ => ⟨running, hfaults⟩)
    (fun hd => absurd hd.drains Bool.false_ne_true) ?_ fun k hk => ?_
  · have hseen := h.seen line at_
    rw [counted] at hseen
    exact fun _ _ => hseen
  · obtain ⟨line', hstop, inner, hlt⟩ := hk
    have hlt : k < l.sys.tracer.stepId + 1 := hlt
    by_cases hold : k < l.sys.tracer.stepId
    · exact Or.inl ⟨line', hstop, inner, by rw [undecided]; exact hold⟩
    · -- the stop at hand
      obtain rfl : k = l.sys.tracer.stepId := by omega
      have hline := h.proto.numbered.line line at_
      rw [counted, Nat.add_zero] at hline
      have hsame : line' = line :=
        congrArg Prod.snd (h.proto.numbered.unique hstop hline rfl)
      refine Or.inr (h.showsAll running at_ counted ?_)
      unfold System.pending System.unprocessed
      rw [empty (hsame ▸ inner), (h.proto.hand.quiet inside).1]
      rfl

theorem Coherent.read (h : Coherent c first missed l) {line : CachedLine} {a : Nat}
    {rest : List Nat} (at_ : l.sys.main = .drain line) (head : l.sys.bpf.procMemCh = a :: rest) :
    Coherent c first missed
      { l with
        sys := { l.sys with
          bpf := { l.sys.bpf with
            procMemCh := rest, mem := procDirtyMem c l.sys.tracer.stepId [a] l.sys.bpf.mem }
          hist := { l.sys.hist with
            processed := l.sys.hist.processed ++ [(a, l.sys.tracer.stepId)] } } } := by
  have hseen : ∀ r ∈ l.sys.bpf.mem.cache, ∀ x, r.Contains x →
      c.byte l.sys.tracer.stepId x = some (l.memory x) := by
    have hall := h.seen line (by rw [at_]; rfl)
    rwa [at_] at hall
  have hread := procDirtyMem_pageRead (a := a) h.layout h.synced hseen
  have htouched := h.clean (Or.inl ⟨line, at_⟩)
  have hstep := Step.read (c := c) at_ head
  refine ⟨h.proto.step hstep, h.layout.of_bounds hread.bounds, hread.synced, h.unmapped,
    fun _ page hpage => ?_, fun hs r' hr' x hx hmissed => ?_, fun _ => htouched,
    fun line' hline' r' hr' x hx => ?_, fun k hk r' hr' i hi hmissed => ?_⟩
  · rw [htouched] at hpage
    cases hpage
  · by_cases hsame : SamePage x a
    · exact Or.inr (hread.reads r' hr' x hx hsame)
    · obtain ⟨r, hr, hstart, hstop, hpages⟩ := hread.pages r' hr'
      have hin : r.Contains x := by
        unfold Region.Contains at hx ⊢
        rwa [hstart, hstop]
      have hbyte := (hpages x hin).resolve_right fun hnew => hsame hnew.1
      rw [hstart] at hbyte
      rcases h.current hs r hr x hin hmissed with hpending | hcurrent
      · refine Or.inl ?_
        unfold System.pending System.unprocessed at hpending ⊢
        rw [head, List.cons_append, List.map_cons] at hpending
        exact (List.mem_cons.mp hpending).resolve_left hsame
      · refine Or.inr ?_
        rw [hbyte, ← hstart]
        exact hcurrent
  · obtain ⟨r, hr, hstart, hstop, -⟩ := hread.pages r' hr'
    have hin : r.Contains x := by
      unfold Region.Contains at hx ⊢
      rwa [hstart, hstop]
    exact h.seen line' hline' r hr x hin
  · obtain ⟨sent, hlog, hsent⟩ := hread.log
    obtain ⟨r, hr, hstart, hstop, -⟩ := hread.pages r' hr'
    rw [← hstart] at hi hmissed ⊢
    rw [← hstop] at hi
    have hlt : k < l.sys.tracer.stepId := by
      obtain ⟨_, _, _, hlt⟩ := hk
      rwa [at_] at hlt
    show Shows c (procDirtyMem c l.sys.tracer.stepId [a] l.sys.bpf.mem).log k _
    rw [hlog]
    refine (h.shown k hk r hr i hi hmissed).later fun m hm => ?_
    rw [hsent m hm]
    exact hlt

theorem Coherent.change (h : Coherent c first missed l) (memory : Nat → UInt8) {page : Nat}
    (runs : l.sys.main.clientRuns) (others : ∀ x, x / pageSize ≠ page → memory x = l.memory x)
    (pending : l.sys.bpf.stop = false → page ∈ missed ∨ page ∈ l.sys.pending) :
    Coherent c first missed { l with memory } := by
  refine { h with current := fun hs r hr x hx hmissed => ?_, seen := fun line hline => ?_ }
  · by_cases hpage : x / pageSize = page
    · exact Or.inl ((pending hs).resolve_left (hpage ▸ hmissed) |> (hpage ▸ ·))
    · dsimp only
      rw [others x hpage]
      exact h.current hs r hr x hx hmissed
  · rcases runs with hmain | hmain <;> rw [hmain] at hline <;> cases hline

theorem Coherent.touch (h : Coherent c first missed l) {page : Nat} (runs : l.sys.main.clientRuns)
    (pending : page ∈ l.sys.pending) :
    Coherent c first missed { l with touched := page :: l.touched } := by
  refine { h with touched := fun hs p hp => ?_, clean := fun hdraining => ?_ }
  · rcases List.mem_cons.mp hp with rfl | hp
    · exact Or.inr pending
    · exact h.touched hs p hp
  · have hdrains := hdraining.drains
    rcases runs with hmain | hmain <;> rw [hmain] at hdrains <;> cases hdrains

theorem resets_of_clientRuns (runs : l.sys.main.clientRuns) : l.sys.resets s' = false := by
  unfold System.resets
  rcases runs with hmain | hmain <;> rw [hmain]

theorem unprocessed_append {s s' : System} {events : List BpfEvent}
    (hch : s'.bpf.procMemCh = s.bpf.procMemCh) (hqueue : s'.queue = s.queue ++ events) :
    s.unprocessed ⊆ s'.unprocessed := by
  unfold System.unprocessed
  rw [hch, hqueue, List.filterMap_append, ← List.append_assoc]
  exact List.subset_append_left _ _

theorem unprocessed_take {s s' : System} {e : BpfEvent} {rest : List BpfEvent}
    (hch : s'.bpf.procMemCh = s.bpf.procMemCh) (head : s.queue = e :: rest)
    (hqueue : s'.queue = rest) (hfault : e.fault? = none) : s.unprocessed ⊆ s'.unprocessed := by
  unfold System.unprocessed
  rw [hch, hqueue, head, List.filterMap_cons_none hfault]
  exact List.Subset.refl _

theorem Coherent.occur (h : Coherent c first missed l) {e : BpfEvent}
    (runs : l.sys.main.clientRuns) (he : e.isTrap = false) (hmaps : e.maps = false) :
    Coherent c first missed
      { l with sys := { l.sys with
          queue := l.sys.queue ++ [e]
          hist := { l.sys.hist with faults := l.sys.hist.faults ++ e.fault?.toList } } } := by
  have hbeside := h.beside (Step.occur runs he) (fun e' he' => ?_) rfl rfl rfl rfl
    (fun hs => ⟨hs, unprocessed_append rfl rfl⟩) fun _ => rfl
  · rwa [resets_of_clientRuns runs, if_neg Bool.false_ne_true] at hbeside
  · rcases List.mem_append.mp he' with he' | he'
    · exact h.unmapped e' he'
    · rw [List.mem_singleton.mp he']
      exact hmaps

theorem Coherent.step (h : Coherent c first missed l) {l' : Live} (hstep : LiveStep c l l') :
    Coherent c first missed l' := by
  cases hstep with
  | fault address memory runs clean others =>
      have hfault := h.occur (e := .pagefault address) runs rfl rfl
      have hpending : address / pageSize ∈ System.pending { l.sys with
          queue := l.sys.queue ++ [.pagefault address]
          hist := { l.sys.hist with faults := l.sys.hist.faults ++ [address] } } := by
        unfold System.pending System.unprocessed
        refine List.mem_map.mpr ⟨address, List.mem_append_right _ ?_, rfl⟩
        rw [List.filterMap_append]
        exact List.mem_append_right _ (List.mem_singleton_self address)
      exact (hfault.change memory runs others fun _ => Or.inr hpending).touch runs hpending
  | write page memory runs dirty others =>
      exact h.change memory runs others fun hs => h.touched hs page dirty
  | @step s' hstep unmapped seen =>
      rcases l with ⟨⟨queue, callback, main, tracer, bpf, hist⟩, memory, touched⟩
      have hand := h.proto.hand
      cases hstep with
      | occur runs he =>
          exact h.beside (.occur runs he) unmapped rfl rfl rfl rfl
            (fun hs => ⟨hs, unprocessed_append rfl rfl⟩) fun _ => rfl
      | hit line at_ =>
          cases at_
          refine h.frame (.hit line rfl) unmapped rfl (Nat.le_refl _)
            (fun hs => ⟨hs, unprocessed_append rfl rfl⟩) ?_ ?_ fun k hk => Or.inl ?_
          · rintro (⟨_, hline⟩ | ⟨_, hline, _⟩) <;> cases hline
          · exact fun _ _ => seen line rfl rfl
          · obtain ⟨line', hstop, inner, hlt⟩ := hk
            refine ⟨line', (List.mem_append.mp hstop).resolve_right fun hnew => ?_, inner, hlt⟩
            -- the new stop has not been processed
            have hk : k = tracer.stepId + 1 := congrArg Prod.fst (List.mem_singleton.mp hnew)
            have hlt : k < tracer.stepId + 1 := hlt
            omega
      | trap at_ =>
          cases at_
          exact h.move (.trap rfl) unmapped rfl (fun hs => ⟨hs, unprocessed_append rfl rfl⟩) rfl rfl
            rfl (.inl rfl) fun hd => absurd hd.drains Bool.false_ne_true
      | exit at_ =>
          cases at_
          exact h.move (.exit rfl) unmapped rfl (fun hs => ⟨hs, List.Subset.refl _⟩) rfl rfl
            rfl (.inl rfl) fun hd => absurd hd.drains Bool.false_ne_true
      | killed at_ =>
          cases at_
          exact h.move (.killed rfl) unmapped rfl (fun hs => ⟨hs, List.Subset.refl _⟩) rfl rfl
            rfl (.inl rfl) fun hd => absurd hd.drains Bool.false_ne_true
      | ignore at_ head stopped =>
          exact h.beside (.ignore at_ head stopped) unmapped rfl rfl rfl rfl
            (fun hs => absurd (stopped.symm.trans hs) (by simp)) fun _ => rfl
      | @write address rest at_ head running =>
          have hsame : System.unprocessed ⟨rest, .written, main, tracer,
              { bpf with procMemCh := bpf.procMemCh ++ [address] },
              { hist with arrived := hist.arrived ++ [(address, tracer.stepId + 1)] }⟩ =
              System.unprocessed ⟨queue, callback, main, tracer, bpf, hist⟩ := by
            cases head
            exact List.append_assoc _ [address] _
          exact h.beside (.write at_ head running) unmapped rfl rfl rfl rfl
            (fun _ => ⟨running, hsame ▸ List.Subset.refl _⟩) fun _ => rfl
      | mark at_ =>
          exact h.beside (.mark at_) unmapped rfl rfl rfl rfl
            (fun hs => ⟨hs, List.Subset.refl _⟩) fun hin => absurd at_ (hand.quiet hin).2
      | post at_ head running first =>
          exact h.beside (.post at_ head running first) unmapped rfl rfl rfl rfl
            (fun hs => ⟨hs, unprocessed_take rfl head rfl rfl⟩) fun _ => rfl
      | setCount at_ =>
          exact h.beside (.setCount at_) unmapped rfl rfl rfl rfl
            (fun hs => ⟨hs, List.Subset.refl _⟩) fun _ => rfl
      | clearCount at_ head running second =>
          exact h.beside (.clearCount at_ head running second) unmapped rfl rfl rfl rfl
            (fun hs => ⟨hs, unprocessed_take rfl head rfl rfl⟩) fun _ => rfl
      | @other e rest at_ head running quiet =>
          obtain ⟨hstop, _, hdirty, hch, _⟩ := bpfCallback_quiet c tracer.stepId bpf quiet
          have hmem : (bpfCallback c tracer.stepId e bpf).mem = bpf.mem := by
            have hmaps := h.unmapped e (by rw [head]; exact List.mem_cons_self)
            rw [bpfCallback_mem]
            cases e <;> first | rfl | cases hmaps
          exact h.beside (.other at_ head running quiet) unmapped hmem rfl rfl rfl
            (fun hs => ⟨hstop.symm.trans hs,
              unprocessed_take hch head rfl (BpfEvent.fault?_of_isQuiet quiet)⟩)
            fun _ => hdirty
      | continue_ at_ =>
          cases at_
          exact h.move (.continue_ rfl) unmapped rfl (fun hs => ⟨hs, List.Subset.refl _⟩) rfl rfl
            rfl (.inl rfl) fun hd => absurd hd.drains Bool.false_ne_true
      | semWait at_ posted =>
          cases at_
          exact h.move (.semWait rfl posted) unmapped rfl (fun hs => ⟨hs, List.Subset.refl _⟩) rfl
            rfl rfl (.inr ⟨rfl, rfl⟩) fun hd => absurd hd.drains Bool.false_ne_true
      | @enter line at_ =>
          cases at_
          have hid : (tracer.arrive line).stepId = tracer.stepId + 1 := tracer.arrive_stepId line
          refine h.frame (.enter rfl) unmapped rfl (by dsimp only; omega)
            (fun hs => ⟨hs, List.Subset.refl _⟩) (fun hdraining => Or.inr ?_) ?_
            fun k hk => Or.inl ?_
          · rcases hdraining with ⟨line', hline⟩ | ⟨line', hline, hdirty⟩
            · cases hline
            · exact hdirty
          · show ∀ line', _ → ∀ r ∈ bpf.mem.cache, ∀ x, r.Contains x →
              c.byte ((tracer.arrive line).stepId + 0) x = _
            rw [hid]
            exact h.seen
          · obtain ⟨line', hstop, inner, hlt⟩ := hk
            refine ⟨line', hstop, inner, ?_⟩
            have hlt : k < (tracer.arrive line).stepId + 0 := hlt
            rw [hid] at hlt
            exact hlt
      | @skip line at_ clean =>
          cases at_
          refine h.decide (.skip rfl clean) rfl rfl rfl rfl rfl rfl fun inner => ?_
          -- inside a function a channel with something in it would have been announced
          by_contra hne
          have hdirty := (h.proto.delivered.dirty hne).resolve_right (hand.quiet rfl).2
          exact clean ⟨hdirty, inner⟩
      | @dirty line at_ dirty inner =>
          cases at_
          exact h.move (.dirty rfl dirty inner) unmapped rfl (fun hs => ⟨hs, List.Subset.refl _⟩)
            rfl rfl rfl (.inr ⟨rfl, rfl⟩) fun _ => Or.inr ⟨line, rfl, dirty⟩
      | @read line address rest at_ head =>
          cases at_
          exact h.read rfl head
      | noData at_ empty =>
          cases at_
          exact h.move (.noData rfl empty) unmapped rfl (fun hs => ⟨hs, List.Subset.refl _⟩) rfl
            rfl rfl (.inr ⟨rfl, rfl⟩) fun hd => absurd hd.drains Bool.false_ne_true
      | @clean line at_ =>
          cases at_
          exact h.decide (.clean rfl) rfl rfl rfl rfl rfl rfl
            fun _ => h.proto.delivered.drained line rfl
      | @resume line at_ =>
          cases at_
          exact h.move (.resume rfl) unmapped rfl (fun hs => ⟨hs, List.Subset.refl _⟩)
            (tracer.depart_stepId line) rfl rfl (.inl rfl)
            fun hd => absurd hd.drains Bool.false_ne_true
      | stop at_ =>
          cases at_
          exact h.move (.stop rfl) unmapped rfl (fun hs => by cases hs) rfl rfl rfl (.inl rfl)
            fun hd => absurd hd.drains Bool.false_ne_true

/-! ## Runs -/

theorem Begun.run (h : Begun c missed l) {l' : Live} (run : ReflTransGen (LiveStep c) l l') :
    Coherent c l.sys.tracer.stepId missed l' := by
  induction run with
  | refl => exact h.coherent
  | tail _ hstep ih => exact ih.step hstep

theorem LiveStep.bounds {l' : Live} (hstep : LiveStep c l l')
    (unmapped : ∀ e ∈ l.sys.queue, e.maps = false) :
    l'.sys.bpf.mem.cache.map (fun r => (r.start, r.stop)) =
      l.sys.bpf.mem.cache.map fun r => (r.start, r.stop) := by
  cases hstep with
  | fault address memory runs clean others => rfl
  | write page memory runs dirty others => rfl
  | @step s' hstep _ _ =>
      show s'.bpf.mem.cache.map _ = _
      rw [hstep.mem]
      cases hmakes : l.sys.makes s' with
      | none => rfl
      | some call =>
          unfold System.makes at hmakes
          split at hmakes
          · obtain ⟨address, _, rfl⟩ := Option.map_eq_some_iff.mp hmakes
            exact procDirtyMem_bounds c _ address _
          · split at hmakes
            · obtain ⟨range, hadds, _⟩ := Option.map_eq_some_iff.mp hmakes
              obtain ⟨e, he, hadds⟩ := Option.bind_eq_some_iff.mp hadds
              have hmaps := unmapped e (List.mem_of_head? he)
              cases e with
              | mmapExit address => cases hmaps
              | brk address => cases hmaps
              | _ => cases hadds
            · cases hmakes

theorem Begun.bounds (h : Begun c missed l) {l' : Live} (run : ReflTransGen (LiveStep c) l l') :
    l'.sys.bpf.mem.cache.map (fun r => (r.start, r.stop)) =
      l.sys.bpf.mem.cache.map fun r => (r.start, r.stop) := by
  induction run with
  | refl => rfl
  | tail run hstep ih => exact (hstep.bounds (h.run run).unmapped).trans ih

/-- The address is cached. -/
def Live.Caches (l : Live) (x : Nat) : Prop := ∃ r ∈ l.sys.bpf.mem.cache, r.Contains x

theorem Begun.caches (h : Begun c missed l) {l' : Live} (run : ReflTransGen (LiveStep c) l l')
    {x : Nat} : l'.Caches x ↔ l.Caches x := by
  have hbounds : ∀ m : Live, m.Caches x ↔
      ∃ b ∈ m.sys.bpf.mem.cache.map (fun r => (r.start, r.stop)), b.1 ≤ x ∧ x < b.2 := by
    intro m
    constructor
    · rintro ⟨r, hr, hx⟩
      exact ⟨_, List.mem_map.mpr ⟨r, hr, rfl⟩, hx⟩
    · rintro ⟨b, hb, hx⟩
      obtain ⟨r, hr, rfl⟩ := List.mem_map.mp hb
      exact ⟨r, hr, hx⟩
  rw [hbounds, hbounds, h.bounds run]

theorem Step.stops {s : System} (hstep : Step c s s') :
    s'.hist.stops = s.hist.stops ∨ ∃ line, s.main = .waitStop ∧ s'.main = .waitSem line ∧
      s'.nextStep = s.nextStep ∧ s'.hist.stops = s.hist.stops ++ [(s.nextStep, line)] := by
  cases hstep with
  | hit line at_ => exact Or.inr ⟨line, at_, rfl, rfl, rfl⟩
  | _ => exact Or.inl rfl

/-- The run from `l` to `l'` passes through `m`, where the client is at its stop `k`; it
has the memory that `c` tells. -/
structure StoppedAt (c : Client) (l l' m : Live) (k : Nat) (line : CachedLine) : Prop where
  before : ReflTransGen (LiveStep c) l m
  after : ReflTransGen (LiveStep c) m l'
  at_ : m.sys.main = .waitSem line
  next : m.sys.nextStep = k
  memory : ∀ x, l.Caches x → c.byte k x = some (m.memory x)

theorem Begun.stop (h : Begun c missed l) {l' : Live} (run : ReflTransGen (LiveStep c) l l')
    {k : Nat} {line : CachedLine} (hstop : (k, line) ∈ l'.sys.hist.stops) :
    ∃ m, StoppedAt c l l' m k line := by
  induction run with
  | refl =>
      obtain ⟨mem, tracer, memDirty, hsys⟩ := h.start
      rw [hsys] at hstop
      cases hstop
  | @tail b b' run hstep ih =>
      have hold : (k, line) ∈ b.sys.hist.stops → ∃ m, StoppedAt c l b' m k line := by
        intro hmem
        obtain ⟨m, hm⟩ := ih hmem
        exact ⟨m, { hm with after := hm.after.tail hstep }⟩
      have hall := hstep
      cases hstep with
      | fault address memory runs clean others => exact hold hstop
      | write page memory runs dirty others => exact hold hstop
      | @step s' hstep unmapped seen =>
          rcases hstep.stops with hsame | ⟨line', hwait, hsem, hnext, hnew⟩
          · exact hold (hsame ▸ hstop)
          · rw [hnew] at hstop
            rcases List.mem_append.mp hstop with hmem | hmem
            · exact hold hmem
            · cases List.mem_singleton.mp hmem
              refine ⟨_, run.tail hall, .refl, hsem, hnext, fun x hx => ?_⟩
              obtain ⟨r, hr, hin⟩ := (h.caches run).mpr hx
              exact seen line hwait hsem r hr x hin

theorem Coherent.getVarValue_eq (h : Coherent c first missed l) {k addr size : Nat}
    (drained : l.sys.Drained k)
    (hrange : ∀ x, addr ≤ x → x < addr + size → l.Caches x ∧ x / pageSize ∉ missed) :
    getVarValue l.sys.bpf.mem.log addr size k =
      slice (c.memory k) addr (addr + size) ++ [0] := by
  by_cases hpos : 0 < size
  · -- a segment that touches the range is shown
    have hshows : ∀ a, a % memSegmentSize = 0 → a < addr + size → addr < a + memSegmentSize →
        Shows c l.sys.bpf.mem.log k a := by
      intro a haligned h1 h2
      have hseg : 0 < memSegmentSize := by decide
      obtain ⟨⟨r, hr, hx⟩, hmissed⟩ := hrange (max a addr) (by omega) (by omega)
      obtain ⟨i, rfl, hstop⟩ := h.synced.segment_of_contains hr hx haligned (by omega) (by omega)
      refine h.shown k drained r hr i (by omega) ?_
      have hpage : max (r.start + memSegmentSize * i) addr / pageSize =
          (r.start + memSegmentSize * i) / pageSize := by
        unfold memSegmentSize pageSize at *
        omega
      rwa [hpage] at hmissed
    obtain ⟨⟨r, hr, hx⟩, -⟩ := hrange (addr + size - 1) (by omega) (by omega)
    have hx : r.start ≤ addr + size - 1 ∧ addr + size - 1 < r.stop := hx
    obtain ⟨_, _, hend⟩ := h.synced.aligned r hr (by omega)
    refine Stored.getVarValue_eq ⟨fun m hm _ => ?_, fun a haligned h1 h2 => ?_,
      fun m hm hle h1 h2 hmax => ?_⟩ (by omega)
    · obtain ⟨haligned, hlt, _⟩ := h.synced.content m hm
      exact ⟨haligned, hlt⟩
    · obtain ⟨m, hm, hle, haddr, _⟩ := hshows a haligned h1 h2
      exact ⟨m, hm, hle, haddr⟩
    · obtain ⟨haligned, _, hcontent⟩ := h.synced.content m hm
      obtain ⟨m₀, hm₀, hle₀, haddr₀, hcontent₀, hmax₀⟩ := hshows m.address haligned h2 h1
      -- both are the latest, and messages of one address and step agree
      have hstep : m.stepId = m₀.stepId :=
        Nat.le_antisymm (hmax₀ m hm hle rfl) (hmax m₀ hm₀ hle₀ haddr₀)
      have hsame : m.content = m₀.content := by
        rw [hcontent, (h.synced.content m₀ hm₀).2.2, hstep, haddr₀]
      rw [hsame, hcontent₀, Client.segmentAt, segment]
      refine List.map_congr_left fun j _ => ?_
      rw [Nat.zero_add]
  · obtain rfl : size = 0 := by omega
    exact getVarValue_empty _ fun m hm _ => (h.synced.content m hm).2.1

end

/-- The stop is one of the run, and the table gives back all of its memory. -/
theorem Begun.stop_readBack {c : Client} {missed : List Nat} {l l' : Live} (h : Begun c missed l)
    (run : ReflTransGen (LiveStep c) l l') {k : Nat} (hk : l'.sys.Drained k) :
    ∃ stop line, StoppedAt c l l' stop k line ∧ ∀ addr size,
      (∀ x, addr ≤ x → x < addr + size → l.Caches x ∧ x / pageSize ∉ missed) →
        getVarValue l'.sys.bpf.mem.log addr size k =
          slice stop.memory addr (addr + size) ++ [0] := by
  have hdrained := hk
  obtain ⟨line, hstop, _⟩ := hk
  obtain ⟨stop, hat⟩ := h.stop run hstop
  refine ⟨stop, line, hat, fun addr size hrange => ?_⟩
  have hvalue := (h.run run).getVarValue_eq hdrained fun x hlo hhi =>
    ⟨(h.caches run).mpr (hrange x hlo hhi).1, (hrange x hlo hhi).2⟩
  refine hvalue.trans (congrArg (· ++ [0]) (List.map_congr_left fun x hx => ?_))
  obtain ⟨hlo, hhi⟩ := List.mem_range'_1.mp hx
  rw [Client.memory, hat.memory x (hrange x hlo (by omega)).1]
  rfl

/-- **The recording is faithful.**  Whenever the client writes to its memory, of which it
maps no more, and in whatever order it and the two threads take their actions: for a stop that
drained the channel, and at any time after it, the table gives back what the client had in its
memory at the stop, for every cached range but on the pages touched before the faults were
watched. -/
theorem recording_faithful {c : Client} {missed : List Nat} {l l' : Live} (h : Begun c missed l)
    (run : ReflTransGen (LiveStep c) l l') {k addr size : Nat} (hk : l'.sys.Drained k)
    (hrange : ∀ x, addr ≤ x → x < addr + size → l.Caches x ∧ x / pageSize ∉ missed) :
    ∃ stop line, ReflTransGen (LiveStep c) l stop ∧ ReflTransGen (LiveStep c) stop l' ∧
      stop.sys.main = .waitSem line ∧ stop.sys.nextStep = k ∧
      getVarValue l'.sys.bpf.mem.log addr size k =
        slice stop.memory addr (addr + size) ++ [0] := by
  obtain ⟨stop, line, hat, hback⟩ := h.stop_readBack run hk
  exact ⟨stop, line, hat.before, hat.after, hat.at_, hat.next, hback addr size hrange⟩

/-- One cached page, whose bytes are 1 when the main loop is entered. -/
def oneLivePage : Live where
  sys := .start (cacheAddRegion tickingClient 4096 4096 1 .init) ⟨1, 1, 1⟩ true
  memory := fun _ => 1
  touched := []

theorem oneLivePage_begun : Begun tickingClient [] oneLivePage := by
  have hread : ∀ i < 4096, (tickingClient.byte 1 (4096 + i)).isSome := by
    intro i hi
    simp only [tickingClient]
    rw [if_pos (by omega)]
    rfl
  have hfit : MemCall.Fits tickingClient ⟨1, .addRegion 4096 4096⟩ .init :=
    ⟨by decide, by decide, fun r hr => (by cases hr), hread⟩
  obtain ⟨-, pages, hpages, hcache, -⟩ :=
    @cacheAddRegion_full tickingClient 4096 4096 1 .init (by decide) (by decide) hread
  have hmem : ∀ r ∈ (cacheAddRegion tickingClient 4096 4096 1 .init).cache,
      r = ⟨4096, 8192, pages⟩ := by
    intro r hr
    rw [hcache] at hr
    exact List.mem_singleton.mp hr
  refine begun_start _ _ _ ⟨⟨fun r hr => ?_, ?_⟩, fun r hr => ?_⟩
    (cacheAddRegion_synced (synced_init tickingClient 1) hfit) (fun r hr x hx _ => ?_)
    fun page hpage => by cases hpage
  · rw [hmem r hr]
    show 4096 < 8192
    decide
  · rw [hcache]
    exact List.pairwise_singleton _ _
  · rw [hmem r hr]
    show 4096 % pageSize = 0 ∧ 0 < 4096 ∧ 8192 % pageSize = 0
    decide
  · rw [hmem r hr] at hx ⊢
    obtain ⟨hlo, hhi⟩ := hx
    dsimp only at hlo hhi ⊢
    rw [hpages _ (by omega), Client.memory]
    simp only [tickingClient]
    rw [if_pos (by omega)]
    rfl

theorem oneLivePage_caches {x : Nat} : oneLivePage.Caches x ↔ 4096 ≤ x ∧ x < 8192 := by
  have hcache : oneLivePage.sys.bpf.mem.cache =
      (cacheAddRegion tickingClient 4096 4096 1 .init).cache := rfl
  rw [Live.Caches, hcache, cacheAddRegion_cache]
  constructor
  · rintro ⟨r, hr, hx⟩
    rw [List.mem_singleton.mp hr] at hx
    exact hx
  · intro hx
    exact ⟨_, List.mem_singleton_self _, hx⟩

theorem oneLivePage_run : ∃ l', ReflTransGen (LiveStep tickingClient) oneLivePage l' ∧
    l'.sys.Drained 2 := by
  have htwo : ∀ x, oneLivePage.Caches x →
      tickingClient.byte 2 x = some (if x / pageSize = 1 then 2 else 1) := by
    intro x hx
    obtain ⟨hlo, hhi⟩ := oneLivePage_caches.mp hx
    simp only [tickingClient]
    rw [if_pos (by omega), if_pos (by unfold pageSize; omega)]
    rfl
  have run : ReflTransGen (LiveStep tickingClient) oneLivePage _ :=
    ReflTransGen.refl
      |>.tail (.step (.continue_ rfl) (by decide) fun _ h => by cases h)
      |>.tail (.fault 4096 (fun x => if x / pageSize = 1 then 2 else 1) (Or.inl rfl) (by decide)
        fun x hx => if_neg hx)
      |>.tail (.step (.hit ⟨0x1004, 1, 0⟩ rfl) (by decide) fun _ _ _ r hr x hx =>
        htwo x ⟨r, hr, hx⟩)
      |>.tail (.step (.write rfl rfl rfl) (by decide) fun _ h => by cases h)
      |>.tail (.step (.mark rfl) (by decide) fun _ h => by cases h)
      |>.tail (.step (.post rfl rfl rfl rfl) (by decide) fun _ h => by cases h)
      |>.tail (.step (.semWait rfl (by decide)) (by decide) fun _ h => by cases h)
      |>.tail (.step (.enter rfl) (by decide) fun _ h => by cases h)
      |>.tail (.step (.dirty rfl rfl (by decide)) (by decide) fun _ h => by cases h)
      |>.tail (.step (.read rfl rfl) (by decide) fun _ h => by cases h)
      |>.tail (.step (.noData rfl rfl) (by decide) fun _ h => by cases h)
      |>.tail (.step (.clean rfl) (by decide) fun _ h => by cases h)
  exact ⟨_, run, ⟨0x1004, 1, 0⟩, List.mem_singleton_self _, by decide, by decide⟩

theorem recording_faithful_oneWrite :
    ∃ l', ReflTransGen (LiveStep tickingClient) oneLivePage l' ∧ l'.sys.Drained 2 ∧
      ∃ (stop : Live) (line : CachedLine), stop.sys.main = .waitSem line ∧
        stop.sys.nextStep = 2 ∧
        getVarValue l'.sys.bpf.mem.log 4112 8 2 = slice stop.memory 4112 4120 ++ [0] := by
  obtain ⟨l', run, hdrained⟩ := oneLivePage_run
  have hrange : ∀ x, 4112 ≤ x → x < 4112 + 8 →
      oneLivePage.Caches x ∧ x / pageSize ∉ ([] : List Nat) := by
    intro x hlo hhi
    exact ⟨oneLivePage_caches.mpr ⟨by omega, by omega⟩, List.not_mem_nil⟩
  obtain ⟨stop, line, -, -, hmain, hnext, hvalue⟩ :=
    recording_faithful oneLivePage_begun run hdrained hrange
  exact ⟨l', run, hdrained, stop, line, hmain, hnext, hvalue⟩

end FlightRec
