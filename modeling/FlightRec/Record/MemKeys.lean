/-
# `FlightRec.Record.MemKeys` — one message for an address and a step

What goes to the worker of table `mem` comes from both threads: `bpf_callback` adds regions
with the step the client is in, `process_breakpoint` processes pages with the step it has
just counted.  When recording ends, a unique index on address and step is created, and if
that fails the recording is lost.

The pages of a step are processed while the client stands still, before any region is added
with that step; so a page is found twice in the same place, and the second time there is
nothing to send.  What remains are the ranges: no two messages have address and step in
common as long as within one step no segment is added twice, or added after it was
processed, or processed as part of two pages (`mem_keys_nodup`).
-/
import FlightRec.Fidelity
import FlightRec.Record.Buffers
import FlightRec.Record.FaultProtocol

namespace FlightRec

open Intervals

/-! ## The keys of a call -/

/-- `(address, step_id)` -/
def MemMsg.key (msg : MemMsg) : Nat × Nat := (msg.address, msg.stepId)

/-- The addresses of the segments from an address on. -/
def segmentsFrom (address n : Nat) : List Nat :=
  (List.range n).map fun i => (address + memSegmentSize * i) % addressSpace

/-- The segments that a call can send: those of a region that is read in full, or of the
page that is found. -/
def Made.segments (c : Client) (m : Made) : List Nat :=
  match m.call.op with
  | .addRegion address size =>
      if (c.readv m.call.step address size).1 < toSigned size then []
      else segmentsFrom address ((size + (memSegmentSize - 1)) / memSegmentSize)
  | .pageFault address =>
      match findPage m.before.cache address with
      | none => []
      | some (index, pageNum) =>
          match m.before.cache[index]? with
          | none => []
          | some region => segmentsFrom (region.start + pageNum * pageSize) pageSegments

/-- The call processes this page, and reads all of it. -/
def Made.Processes (c : Client) (m : Made) (index pageNum : Nat) : Prop :=
  ∃ address, m.call.op = .pageFault address ∧
    findPage m.before.cache address = some (index, pageNum) ∧
      ∃ region, m.before.cache[index]? = some region ∧ ∀ j < pageSize,
        (c.byte m.call.step (region.start + pageNum * pageSize + j)).isSome

/-- Two calls of one step have no segment in common, unless they process the same page. -/
def Made.Apart (c : Client) (m m' : Made) : Prop :=
  m.call.step = m'.call.step →
    (m.segments c).Disjoint (m'.segments c) ∨
      ∃ index pageNum, m.Processes c index pageNum ∧ m'.Processes c index pageNum

/-- A length that is added is a `uint64_t`. -/
def Made.IsWord (m : Made) : Prop :=
  ∀ address size, m.call.op = .addRegion address size → size < addressSpace

theorem segmentsFrom_nodup {address n : Nat} (h : memSegmentSize * n ≤ addressSpace) :
    (segmentsFrom address n).Nodup := by
  refine List.Nodup.map_on ?_ List.nodup_range
  intro i hi j hj heq
  have hi := List.mem_range.mp hi
  have hj := List.mem_range.mp hj
  unfold memSegmentSize addressSpace at *
  omega

theorem scanSegments_addresses (buffer : Nat → UInt8) (address base step : Nat)
    (pages : Nat → UInt8) : ∀ n : Nat,
      List.Sublist ((scanSegments buffer address base step n pages).2.map (·.address))
        (segmentsFrom address n)
  | 0 => List.nil_sublist _
  | n + 1 => by
      have ih := scanSegments_addresses buffer address base step pages n
      have hsucc : segmentsFrom address (n + 1) =
          segmentsFrom address n ++ [(address + memSegmentSize * n) % addressSpace] := by
        rw [segmentsFrom, List.range_succ, List.map_append]
        rfl
      rw [hsucc, scanSegments]
      dsimp only
      split
      · rw [List.map_append]
        exact ih.append (List.Sublist.refl _)
      · exact ih.trans (List.sublist_append_left _ _)

theorem procDirtyMem_cases (c : Client) (step address : Nat) (st : MemState) :
    procDirtyMem c step [address] st = st ∨
      ∃ index pageNum region, findPage st.cache address = some (index, pageNum) ∧
        st.cache[index]? = some region ∧ procDirtyMem c step [address] st =
          { cache := st.cache.set index { region with
              pages := (scanSegments (c.readv step (region.start + pageNum * pageSize) pageSize).2
                (region.start + pageNum * pageSize) (pageNum * pageSize) step pageSegments
                region.pages).1 }
            log := st.log ++ (scanSegments
              (c.readv step (region.start + pageNum * pageSize) pageSize).2
              (region.start + pageNum * pageSize) (pageNum * pageSize) step pageSegments
              region.pages).2 } := by
  unfold procDirtyMem
  cases hfind : findPage st.cache address with
  | none => exact Or.inl rfl
  | some found =>
      obtain ⟨index, pageNum⟩ := found
      dsimp only [procDirtyMem]
      split
      · exact Or.inl rfl
      · unfold processPage
        cases hregion : st.cache[index]? with
        | none => exact Or.inl rfl
        | some region =>
            dsimp only
            split
            · exact Or.inl rfl
            · exact Or.inr ⟨index, pageNum, region, rfl, hregion, rfl⟩

/-- **What a call sends**: messages of its step, for some of its segments, each once. -/
theorem CacheCall.run_sent (c : Client) (call : CacheCall) (st : MemState)
    (hword : Made.IsWord ⟨call, st⟩) :
    ∃ sent, (call.run c st).log = st.log ++ sent ∧ (∀ msg ∈ sent, msg.stepId = call.step) ∧
      (sent.map (·.address)).Nodup ∧
      ∀ msg ∈ sent, msg.address ∈ Made.segments c ⟨call, st⟩ := by
  have hnone : ∃ sent, st.log = st.log ++ sent ∧ (∀ msg ∈ sent, msg.stepId = call.step) ∧
      (sent.map (·.address)).Nodup ∧ ∀ msg ∈ sent, msg.address ∈ Made.segments c ⟨call, st⟩ :=
    ⟨[], (List.append_nil _).symm, fun _ h => (List.not_mem_nil h).elim, List.nodup_nil,
      fun _ h => (List.not_mem_nil h).elim⟩
  obtain ⟨step, op⟩ := call
  cases op with
  | addRegion address size =>
      have hsize := hword address size rfl
      show ∃ sent, (cacheAddRegion c address size step st).log = _ ∧ _
      unfold cacheAddRegion
      dsimp only
      by_cases hread : (c.readv step address size).1 < toSigned size
      · rw [if_pos hread]
        exact hnone
      · rw [if_neg hread]
        refine ⟨_, rfl, fun msg hmsg => ?_, ?_, fun msg hmsg => ?_⟩
        · obtain ⟨i, _, rfl⟩ := List.mem_map.mp hmsg
          rfl
        · rw [List.map_map]
          refine @segmentsFrom_nodup address _ ?_
          unfold memSegmentSize addressSpace at *
          omega
        · obtain ⟨i, hi, rfl⟩ := List.mem_map.mp hmsg
          unfold Made.segments
          dsimp only
          rw [if_neg hread]
          exact List.mem_map.mpr ⟨i, hi, rfl⟩
  | pageFault address =>
      show ∃ sent, (procDirtyMem c step [address] st).log = _ ∧ _
      rcases procDirtyMem_cases c step address st with
        hsame | ⟨index, pageNum, region, hfind, hregion, heq⟩
      · rw [hsame]
        exact hnone
      · have hsub := scanSegments_addresses
          (c.readv step (region.start + pageNum * pageSize) pageSize).2
          (region.start + pageNum * pageSize) (pageNum * pageSize) step region.pages pageSegments
        rw [heq]
        refine ⟨_, rfl, scanSegments_step, hsub.nodup (segmentsFrom_nodup (by decide)),
          fun msg hmsg => ?_⟩
        unfold Made.segments
        dsimp only
        rw [hfind]
        dsimp only
        rw [hregion]
        exact hsub.mem (List.mem_map.mpr ⟨msg, hmsg, rfl⟩)

/-! ## The log and the calls -/

/-- What is in the log comes from the calls, and has no key twice. -/
structure Keyed (c : Client) (step : Nat) (all : List Made) (st : MemState) : Prop where
  steps : ∀ m ∈ all, m.call.step ≤ step
  origin : ∀ msg ∈ st.log, ∃ m ∈ all, msg.stepId = m.call.step ∧ msg.address ∈ m.segments c
  nodup : (st.log.map MemMsg.key).Nodup

theorem Keyed.mono {c : Client} {step step' : Nat} {all : List Made} {st : MemState}
    (h : Keyed c step all st) (hle : step ≤ step') : Keyed c step' all st :=
  { h with steps := fun m hm => (h.steps m hm).trans hle }

/-- **A call** keeps the keys apart: it is apart from the calls before it, and if it
processes a page again in the same step, it has nothing to send. -/
theorem Keyed.call {c : Client} {step : Nat} {all : List Made} {st : MemState}
    (h : Keyed c step all st) {call : CacheCall} (hstep : call.step ≤ step)
    (hword : Made.IsWord ⟨call, st⟩) (hapart : ∀ m ∈ all, m.Apart c ⟨call, st⟩)
    (hagain : ∀ m ∈ all, m.call.step = call.step → ∀ index pageNum,
      m.Processes c index pageNum → Made.Processes c ⟨call, st⟩ index pageNum →
        (call.run c st).log = st.log) :
    Keyed c step (all ++ [⟨call, st⟩]) (call.run c st) := by
  obtain ⟨sent, hlog, hsteps, hdistinct, hsegments⟩ := call.run_sent c st hword
  refine ⟨fun m hm => ?_, fun msg hmsg => ?_, ?_⟩
  · rcases List.mem_append.mp hm with hm | hm
    · exact h.steps m hm
    · cases List.mem_singleton.mp hm
      exact hstep
  · rw [hlog] at hmsg
    rcases List.mem_append.mp hmsg with hmsg | hmsg
    · obtain ⟨m, hm, horigin⟩ := h.origin msg hmsg
      exact ⟨m, List.mem_append_left _ hm, horigin⟩
    · exact ⟨_, List.mem_append_right _ (List.mem_singleton_self _), hsteps msg hmsg,
        hsegments msg hmsg⟩
  · rw [hlog, List.map_append, List.nodup_append']
    have hsent : (sent.map MemMsg.key).Nodup := by
      refine List.Nodup.of_map Prod.fst ?_
      rw [List.map_map]
      exact hdistinct
    refine ⟨h.nodup, hsent, ?_⟩
    -- a message in the log with the key of a new one comes from a call of the same step
    intro key hold hnew
    obtain ⟨msg, hmsg, rfl⟩ := List.mem_map.mp hold
    obtain ⟨msg', hmsg', hkey⟩ := List.mem_map.mp hnew
    obtain ⟨haddress, hid⟩ := Prod.mk.inj hkey
    obtain ⟨m, hm, hmstep, hmseg⟩ := h.origin msg hmsg
    have hsame : m.call.step = call.step := by
      rw [← hmstep, ← hid, hsteps msg' hmsg']
    rcases hapart m hm hsame with hdisjoint | ⟨index, pageNum, hpage, hpage'⟩
    · exact hdisjoint hmseg (haddress ▸ hsegments msg' hmsg')
    · have hnothing := hagain m hm hsame index pageNum hpage hpage'
      rw [hlog, List.append_right_eq_self] at hnothing
      rw [hnothing] at hmsg'
      cases hmsg'

/-! ## Processing a page again -/

/-- The copy of the page is what the client holds at the step, if all of it can be read. -/
def PageHeld (c : Client) (step : Nat) (st : MemState) (index pageNum : Nat) : Prop :=
  ∀ region, st.cache[index]? = some region → region.start + pageNum * pageSize ≠ 0 →
    (∀ j < pageSize, (c.byte step (region.start + pageNum * pageSize + j)).isSome) →
      ∀ j < pageSize, region.pages (pageNum * pageSize + j) =
        c.memory step (region.start + pageNum * pageSize + j)

theorem procDirtyMem_eq {c : Client} {step address index pageNum : Nat} {st : MemState}
    {region : Region} (hfind : findPage st.cache address = some (index, pageNum))
    (hregion : st.cache[index]? = some region) (hne : region.start + pageNum * pageSize ≠ 0) :
    procDirtyMem c step [address] st = processPage c index pageNum step st := by
  simp only [procDirtyMem, hfind, hregion, Option.map_some, Option.getD_some, if_neg hne]

theorem PageHeld.again {c : Client} {step address index pageNum : Nat} {st : MemState}
    (h : PageHeld c step st index pageNum)
    (hagain : Made.Processes c ⟨⟨step, .pageFault address⟩, st⟩ index pageNum) :
    (procDirtyMem c step [address] st).log = st.log := by
  obtain ⟨_, hop, hfind, region, hregion, hread⟩ := hagain
  cases hop
  dsimp only at hfind hregion hread
  rcases procDirtyMem_cases c step address st with hsame | ⟨i, n, r, hfound, hr, heq⟩
  · rw [hsame]
  · rw [hfind] at hfound
    cases hfound
    rw [hregion] at hr
    cases hr
    obtain ⟨_, hbuffer⟩ := c.readv_full hread
    rw [heq]
    dsimp only
    rw [List.append_right_eq_self, List.eq_nil_iff_forall_not_mem]
    intro msg hmsg
    obtain ⟨k, hk, hdiff, rfl⟩ := mem_scanSegments.mp hmsg
    by_cases hne : region.start + pageNum * pageSize = 0
    · -- the page at address 0 is not processed at all
      have hskip : procDirtyMem c step [address] st = st := by
        simp only [procDirtyMem, hfind, hregion, Option.map_some, Option.getD_some, if_pos hne]
      have hlog := congrArg MemState.log (hskip.symm.trans heq)
      dsimp only at hlog
      rw [List.self_eq_append_right] at hlog
      rw [hlog] at hmsg
      cases hmsg
    · refine hdiff (segment_eq_iff.mpr fun o ho => ?_)
      have hle := segment_le_page hk
      rw [hbuffer _ (by omega), Nat.add_assoc (pageNum * pageSize),
        h region hregion hne hread _ (by omega)]

theorem Made.Processes.found {c : Client} {step address index pageNum i n : Nat} {st : MemState}
    (h : Made.Processes c ⟨⟨step, .pageFault address⟩, st⟩ index pageNum)
    (hfound : findPage st.cache address = some (i, n)) : i = index ∧ n = pageNum := by
  obtain ⟨_, hop, hfind, _⟩ := h
  cases hop
  exact Prod.mk.inj (Option.some.inj (hfound.symm.trans hfind))

theorem PageHeld.of_same {c : Client} {step address index pageNum : Nat} {st : MemState}
    (h : Made.Processes c ⟨⟨step, .pageFault address⟩, st⟩ index pageNum)
    (hsame : procDirtyMem c step [address] st = st) : PageHeld c step st index pageNum := by
  intro region hregion hne hread j hj
  obtain ⟨_, hop, hfind, _⟩ := h
  cases hop
  dsimp only at hfind
  rw [procDirtyMem_eq hfind hregion hne] at hsame
  obtain ⟨hcount, hbuffer⟩ := c.readv_full hread
  unfold processPage at hsame
  rw [hregion] at hsame
  dsimp only at hsame
  rw [if_neg (by rw [hcount]; decide)] at hsame
  have hset := congrArg (fun s => s.cache[index]?) hsame
  dsimp only at hset
  rw [List.getElem?_set_self (List.getElem?_eq_some_iff.mp hregion).1, hregion,
    Option.some.injEq] at hset
  have hpages := congrFun (congrArg Region.pages hset) (pageNum * pageSize + j)
  dsimp only at hpages
  rw [scanSegments_pages, ← pageSize_eq, if_pos ⟨by omega, by omega⟩,
    Nat.add_sub_cancel_left, hbuffer j hj] at hpages
  exact hpages.symm

theorem PageHeld.pageFault {c : Client} {step address index pageNum : Nat} {st : MemState}
    (h : PageHeld c step st index pageNum ∨
      Made.Processes c ⟨⟨step, .pageFault address⟩, st⟩ index pageNum) :
    PageHeld c step (procDirtyMem c step [address] st) index pageNum := by
  rcases procDirtyMem_cases c step address st with hsame | ⟨i, n, r, hfound, hr, heq⟩
  · rw [hsame]
    exact h.elim id fun hpage => .of_same hpage hsame
  · intro region hregion hne hread j hj
    rw [heq] at hregion
    dsimp only at hregion
    by_cases hindex : i = index
    · subst hindex
      rw [List.getElem?_set_self (List.getElem?_eq_some_iff.mp hr).1, Option.some.injEq] at hregion
      subst hregion
      dsimp only at hne hread ⊢
      rw [scanSegments_pages, ← pageSize_eq]
      by_cases hpage : n = pageNum
      · subst hpage
        obtain ⟨_, hbuffer⟩ := c.readv_full hread
        rw [if_pos ⟨by omega, by omega⟩, Nat.add_sub_cancel_left, hbuffer j hj]
      · -- another page of the region
        have hheld := h.resolve_right fun hfault => hpage (hfault.found hfound).2
        rw [if_neg ?_]
        · exact hheld r hr hne hread j hj
        · rintro ⟨hlo, hhi⟩
          unfold pageSize at *
          omega
    · have hheld := h.resolve_right fun hfault => hindex (hfault.found hfound).1
      rw [List.getElem?_set_ne hindex] at hregion
      exact hheld region hregion hne hread j hj

/-! ## The recorder -/

/-- The call on the cache that an action makes: an address is taken from `proc_mem_ch`, or
an event that adds a range from the queue. -/
def System.makes (s s' : System) : Option CacheCall :=
  if s'.bpf.procMemCh.length < s.bpf.procMemCh.length then
    s.bpf.procMemCh.head?.map fun address => ⟨s.tracer.stepId, .pageFault address⟩
  else if s'.queue.length < s.queue.length then
    (s.queue.head?.bind s.bpf.adds).map fun range =>
      ⟨s.tracer.stepId, .addRegion range.1 range.2⟩
  else none

/-- A run of the recorder, with the calls on the cache that it makes. -/
inductive Run (c : Client) (start : System) : System → List Made → Prop
  | start : Run c start start []
  | step {s s' : System} {made : List Made} (run : Run c start s made) (hstep : Step c s s') :
      Run c start s' (made ++ ((s.makes s').map fun call => ⟨call, s.bpf.mem⟩).toList)

theorem Reachable.run {c : Client} {mem : MemState} {tracer : Tracer} {memDirty : Bool}
    {s : System} (h : Reachable c mem tracer memDirty s) :
    ∃ made, Run c (.start mem tracer memDirty) s made := by
  induction h with
  | refl => exact ⟨[], .start⟩
  | tail _ hstep ih =>
      obtain ⟨made, run⟩ := ih
      exact ⟨_, run.step hstep⟩

/-- The calls of `init_cache`. -/
def initCalls (exeName : String) (maps : List MapsEntry) : List CacheCall :=
  (maps.filter (·.cached exeName)).map fun e => ⟨1, .addRegion e.head (e.tail - e.head)⟩

theorem initCache_eq (c : Client) (exeName : String) (maps : List MapsEntry) :
    initCache c exeName maps = runCache c (initCalls exeName maps) .init := by
  unfold initCache runCache initCalls
  rw [List.foldl_map]
  rfl

/-- The step is counted and its single instruction not executed yet. -/
def MainPc.counted : MainPc → Bool
  | .decide _ | .drain _ | .reset _ | .resume _ => true
  | _ => false

theorem MainPc.inBreakpoint_of_counted {pc : MainPc} (h : pc.counted = true) :
    pc.inBreakpoint = true := by
  cases pc with
  | decide line => rfl
  | drain line => rfl
  | reset line => rfl
  | resume line => rfl
  | _ => cases h

section
variable {c : Client} {s s' : System}

theorem System.makes_none (hch : ¬ s'.bpf.procMemCh.length < s.bpf.procMemCh.length)
    (hq : ¬ s'.queue.length < s.queue.length) : s.makes s' = none := by
  unfold System.makes
  rw [if_neg hch, if_neg hq]

theorem System.makes_event {e : BpfEvent} {rest : List BpfEvent} (head : s.queue = e :: rest)
    (taken : s'.queue = rest) (hch : ¬ s'.bpf.procMemCh.length < s.bpf.procMemCh.length) :
    s.makes s' = (s.bpf.adds e).map fun range => ⟨s.tracer.stepId, .addRegion range.1 range.2⟩ := by
  unfold System.makes
  rw [if_neg hch, if_pos (by rw [taken, head, List.length_cons]; exact Nat.lt_succ_self _), head]
  rfl

/-- **What an action does to the cache** is what its call does. -/
theorem Step.mem (hstep : Step c s s') :
    s'.bpf.mem = match s.makes s' with
      | some call => call.run c s.bpf.mem
      | none => s.bpf.mem := by
  cases hstep with
  | occur runs he => rw [System.makes_none (by simp) (by simp)]
  | hit line at_ => rw [System.makes_none (by simp) (by simp)]
  | trap at_ => rw [System.makes_none (by simp) (by simp)]
  | exit at_ => rw [System.makes_none (by simp) (by simp)]
  | killed at_ => rw [System.makes_none (by simp) (by simp)]
  | @ignore e rest at_ head stopped =>
      have hnone : s.bpf.adds e = none := by
        cases e <;> simp [BpfState.adds, stopped]
      rw [System.makes_event head rfl (by simp), hnone]
      rfl
  | @write address rest at_ head running =>
      rw [System.makes_event head rfl (by simp)]
      rfl
  | mark at_ => rw [System.makes_none (by simp) (by simp)]
  | @post rest at_ head running first =>
      rw [System.makes_event head rfl (by simp)]
      rfl
  | setCount at_ => rw [System.makes_none (by simp) (by simp)]
  | @clearCount rest at_ head running second =>
      rw [System.makes_event head rfl (by simp)]
      rfl
  | @other e rest at_ head running quiet =>
      obtain ⟨_, _, _, hch, _⟩ := bpfCallback_quiet c s.tracer.stepId s.bpf quiet
      rw [System.makes_event head rfl (by dsimp only; rw [hch]; exact Nat.lt_irrefl _)]
      dsimp only
      rw [bpfCallback_mem]
      cases s.bpf.adds e with
      | none => rfl
      | some range => rfl
  | continue_ at_ => rw [System.makes_none (by simp) (by simp)]
  | semWait at_ posted => rw [System.makes_none (by simp) (by simp)]
  | enter at_ => rw [System.makes_none (by simp) (by simp)]
  | skip at_ clean => rw [System.makes_none (by simp) (by simp)]
  | dirty at_ dirty inner => rw [System.makes_none (by simp) (by simp)]
  | @read line address rest at_ head =>
      unfold System.makes
      dsimp only
      rw [if_pos (by rw [head, List.length_cons]; exact Nat.lt_succ_self _), head]
      rfl
  | noData at_ empty => rw [System.makes_none (by simp) (by simp)]
  | clean at_ => rw [System.makes_none (by simp) (by simp)]
  | resume at_ => rw [System.makes_none (by simp) (by simp)]
  | stop at_ => rw [System.makes_none (by simp) (by simp)]

/-- A call is made with the current step, which the action does not change.  It is a page
exactly if the main loop has counted the step and not gone on yet. -/
theorem Step.makes_call (hand : Handshake s) (hstep : Step c s s') {call : CacheCall}
    (hmakes : s.makes s' = some call) :
    call.step = s.tracer.stepId ∧ s'.tracer = s.tracer ∧ s'.main = s.main ∧
      (s.main.counted = true ↔ ∃ address, call.op = .pageFault address) := by
  have hevent : ∀ {e : BpfEvent} {rest : List BpfEvent}, s.queue = e :: rest →
      s'.queue = rest → ¬ s'.bpf.procMemCh.length < s.bpf.procMemCh.length →
        call.step = s.tracer.stepId ∧
          (s.main.counted = true ↔ ∃ address, call.op = .pageFault address) := by
    intro e rest head taken hch
    rw [System.makes_event head taken hch, Option.map_eq_some_iff] at hmakes
    obtain ⟨range, _, rfl⟩ := hmakes
    refine ⟨rfl, fun hcounted => ?_, fun ⟨_, hop⟩ => nomatch hop⟩
    have hempty := (hand.quiet (MainPc.inBreakpoint_of_counted hcounted)).1
    rw [head] at hempty
    cases hempty
  cases hstep with
  | @ignore e rest at_ head stopped =>
      obtain ⟨hid, hop⟩ := hevent head rfl (Nat.lt_irrefl _)
      exact ⟨hid, rfl, rfl, hop⟩
  | @write address rest at_ head running =>
      obtain ⟨hid, hop⟩ := hevent head rfl (by simp)
      exact ⟨hid, rfl, rfl, hop⟩
  | @post rest at_ head running first =>
      obtain ⟨hid, hop⟩ := hevent head rfl (Nat.lt_irrefl _)
      exact ⟨hid, rfl, rfl, hop⟩
  | @clearCount rest at_ head running second =>
      obtain ⟨hid, hop⟩ := hevent head rfl (Nat.lt_irrefl _)
      exact ⟨hid, rfl, rfl, hop⟩
  | @other e rest at_ head running quiet =>
      obtain ⟨_, _, _, hch, _⟩ := bpfCallback_quiet c s.tracer.stepId s.bpf quiet
      obtain ⟨hid, hop⟩ := hevent head rfl (by dsimp only; rw [hch]; exact Nat.lt_irrefl _)
      exact ⟨hid, rfl, rfl, hop⟩
  | @read line address rest at_ head =>
      unfold System.makes at hmakes
      dsimp only at hmakes
      rw [if_pos (by rw [head, List.length_cons]; exact Nat.lt_succ_self _), head] at hmakes
      cases hmakes
      exact ⟨rfl, rfl, rfl, fun _ => ⟨address, rfl⟩, fun _ => by rw [at_]; rfl⟩
  | _ =>
      rw [System.makes_none (by simp) (by simp)] at hmakes
      cases hmakes

/-- The number of the step grows by one when the main loop counts it, and else stays. -/
theorem Step.counted (hstep : Step c s s') :
    (s'.tracer.stepId = s.tracer.stepId ∧ (s'.main.counted = true → s.main.counted = true)) ∨
      s'.tracer.stepId = s.tracer.stepId + 1 := by
  cases hstep with
  | @enter line at_ => exact Or.inr (s.tracer.arrive_stepId line)
  | @resume line at_ => exact Or.inl ⟨s.tracer.depart_stepId line, fun h => nomatch h⟩
  | occur runs he => exact Or.inl ⟨rfl, id⟩
  | ignore at_ head stopped => exact Or.inl ⟨rfl, id⟩
  | write at_ head running => exact Or.inl ⟨rfl, id⟩
  | mark at_ => exact Or.inl ⟨rfl, id⟩
  | post at_ head running first => exact Or.inl ⟨rfl, id⟩
  | setCount at_ => exact Or.inl ⟨rfl, id⟩
  | clearCount at_ head running second => exact Or.inl ⟨rfl, id⟩
  | other at_ head running quiet => exact Or.inl ⟨rfl, id⟩
  | skip at_ clean => exact Or.inl ⟨rfl, fun _ => by rw [at_]; rfl⟩
  | dirty at_ dirty inner => exact Or.inl ⟨rfl, fun _ => by rw [at_]; rfl⟩
  | read at_ head => exact Or.inl ⟨rfl, id⟩
  | noData at_ empty => exact Or.inl ⟨rfl, fun _ => by rw [at_]; rfl⟩
  | clean at_ => exact Or.inl ⟨rfl, fun _ => by rw [at_]; rfl⟩
  | _ => exact Or.inl ⟨rfl, fun h => nomatch h⟩

end

/-- While the main loop is at a step, it holds the pages that it has processed. -/
def System.HoldsPages (c : Client) (s : System) (all : List Made) : Prop :=
  s.main.counted = true → ∀ m ∈ all, m.call.step = s.tracer.stepId → ∀ index pageNum,
    m.Processes c index pageNum → PageHeld c s.tracer.stepId s.bpf.mem index pageNum

/-- **A run** keeps the keys apart, if its calls are apart.  Behind the counting of a step
there are no calls with its number yet, and up to the single instruction only pages. -/
theorem Run.keyed {c : Client} {start s : System} {init made : List Made}
    (hand : Handshake start) (hkeyed : Keyed c start.tracer.stepId init start.bpf.mem)
    (hstart : start.main.counted = false) (run : Run c start s made)
    (hwords : ∀ m ∈ init ++ made, m.IsWord) (hapart : (init ++ made).Pairwise (Made.Apart c)) :
    Handshake s ∧ Keyed c s.tracer.stepId (init ++ made) s.bpf.mem ∧
      s.HoldsPages c (init ++ made) := by
  induction run with
  | start =>
      rw [List.append_nil]
      exact ⟨hand, hkeyed, fun h => by rw [hstart] at h; cases h⟩
  | @step s s' made run hstep ih =>
      have hmem := hstep.mem
      cases hmakes : s.makes s' with
      | none =>
          rw [hmakes] at hmem hwords hapart
          dsimp only at hmem
          rw [Option.map_none, Option.toList_none, List.append_nil] at hwords hapart ⊢
          obtain ⟨hand, hkeyed, hheld⟩ := ih hwords hapart
          refine ⟨hand.step hstep, ?_, fun hcounted m hm hid => ?_⟩
          · rw [hmem]
            refine hkeyed.mono ?_
            rcases hstep.counted with ⟨hsame, _⟩ | hnext
            · omega
            · omega
          · rcases hstep.counted with ⟨hsame, hback⟩ | hnext
            · rw [hmem, hsame]
              exact hheld (hback hcounted) m hm (hid.trans hsame)
            · have := hkeyed.steps m hm
              omega
      | some call =>
          rw [hmakes] at hmem hwords hapart
          dsimp only at hmem
          rw [Option.map_some, Option.toList_some, ← List.append_assoc] at hwords hapart ⊢
          obtain ⟨hfront, _, hlast⟩ := List.pairwise_append.mp hapart
          obtain ⟨hand, hkeyed, hheld⟩ :=
            ih (fun m hm => hwords m (List.mem_append_left _ hm)) hfront
          obtain ⟨hid, htracer, hmain, hpage⟩ := hstep.makes_call hand hmakes
          obtain ⟨step, op⟩ := call
          cases hid
          refine ⟨hand.step hstep, ?_, fun hcounted m hm hmid index pageNum hm' => ?_⟩
          · rw [hmem, htracer]
            refine hkeyed.call (Nat.le_refl _)
              (hwords _ (List.mem_append_right _ (List.mem_singleton_self _)))
              (fun m hm => hlast m hm _ (List.mem_singleton_self _)) ?_
            intro m hm hmid index pageNum hfirst hagain
            obtain ⟨address, hop, _⟩ := id hagain
            cases hop
            exact (hheld (hpage.mpr ⟨address, rfl⟩) m hm hmid index pageNum hfirst).again hagain
          · rw [hmain] at hcounted
            rw [htracer] at hmid ⊢
            obtain ⟨address, hop⟩ := hpage.mp hcounted
            cases hop
            rw [hmem]
            refine PageHeld.pageFault ?_
            rcases List.mem_append.mp hm with hm | hm
            · exact Or.inl (hheld hcounted m hm hmid index pageNum hm')
            · cases List.mem_singleton.mp hm
              exact Or.inr hm'

theorem trace_keyed {c : Client} : ∀ {calls : List CacheCall} {all : List Made} {st : MemState},
    (∀ call ∈ calls, call.step = 1 ∧ ∃ address size, call.op = .addRegion address size) →
    (∀ m ∈ all ++ trace c calls st, m.IsWord) →
    (all ++ trace c calls st).Pairwise (Made.Apart c) → Keyed c 1 all st →
      Keyed c 1 (all ++ trace c calls st) (runCache c calls st)
  | [], all, st, _, _, _, hkeyed => by
      rw [trace, List.append_nil]
      exact hkeyed
  | call :: rest, all, st, hadds, hwords, hapart, hkeyed => by
      obtain ⟨hone, address, size, hop⟩ := hadds call List.mem_cons_self
      rw [trace, List.append_cons] at hwords hapart ⊢
      obtain ⟨_, _, hlast⟩ := List.pairwise_append.mp (List.pairwise_append.mp hapart).1
      refine trace_keyed (fun x hx => hadds x (List.mem_cons_of_mem _ hx)) hwords hapart ?_
      refine hkeyed.call (Nat.le_of_eq hone) (hwords _ (by simp))
        (fun m hm => hlast m hm _ (List.mem_singleton_self _)) ?_
      rintro _ _ _ _ _ _ ⟨_, hfault, _⟩
      rw [hop] at hfault
      cases hfault

/-- **No duplicate records.**  In every state of every run whose calls, from those of
`init_cache` on, are apart, no two messages have address and step in common. -/
theorem mem_keys_nodup {c : Client} {exeName : String} {maps : List MapsEntry} {tracer : Tracer}
    {memDirty : Bool} {s : System} {made : List Made} (hfirst : 1 ≤ tracer.stepId)
    (run : Run c (.start (initCache c exeName maps) tracer memDirty) s made)
    (hwords : ∀ m ∈ trace c (initCalls exeName maps) .init ++ made, m.IsWord)
    (hapart : (trace c (initCalls exeName maps) .init ++ made).Pairwise (Made.Apart c)) :
    (s.bpf.mem.log.map MemMsg.key).Nodup := by
  have hempty : Keyed c 1 [] .init :=
    ⟨fun _ h => (List.not_mem_nil h).elim, fun _ h => (List.not_mem_nil h).elim, List.nodup_nil⟩
  have hinit := @trace_keyed c (initCalls exeName maps) [] .init (fun call hcall => by
      obtain ⟨e, _, rfl⟩ := List.mem_map.mp hcall
      exact ⟨rfl, _, _, rfl⟩) (fun m hm => hwords m (List.mem_append_left _ hm))
    (List.pairwise_append.mp hapart).1 hempty
  rw [List.nil_append, ← initCache_eq] at hinit
  exact (Run.keyed (handshake_start _ tracer memDirty) (hinit.mono hfirst) rfl run hwords
    hapart).2.1.nodup

/-! ### Segments mapped apart and twice -/

theorem Run.reachable {c : Client} {mem : MemState} {tracer : Tracer} {memDirty : Bool}
    {s : System} {made : List Made} (run : Run c (.start mem tracer memDirty) s made) :
    Reachable c mem tracer memDirty s := by
  induction run with
  | start => exact .refl
  | step _ hstep ih => exact ih.tail hstep

theorem Run.event {c : Client} {start s : System} {made : List Made} (run : Run c start s made)
    {e : BpfEvent} (quiet : e.isQuiet = true) (at_ : s.main = .waitStop)
    (idle : s.callback = .idle) (empty : s.queue = []) (running : s.bpf.stop = false) :
    ∃ hist, Run c start
      { s with bpf := bpfCallback c s.tracer.stepId e s.bpf, hist }
      (made ++ ((s.bpf.adds e).map fun range =>
        ⟨⟨s.tracer.stepId, .addRegion range.1 range.2⟩, s.bpf.mem⟩).toList) := by
  have hqueue : s.queue ++ [e] = [e] := by rw [empty, List.nil_append]
  obtain ⟨_, _, _, hch, _⟩ := bpfCallback_quiet c s.tracer.stepId s.bpf quiet
  have hoccur := run.step (.occur (Or.inl at_) (BpfEvent.isTrap_of_isQuiet quiet))
  rw [System.makes_none (by simp) (by simp), Option.map_none, Option.toList_none,
    List.append_nil] at hoccur
  have hother := hoccur.step (.other idle hqueue running quiet)
  rw [System.makes_event hqueue rfl (by dsimp only; rw [hch]; exact Nat.lt_irrefl _),
    Option.map_map] at hother
  rw [← empty] at hother
  exact ⟨_, hother⟩

theorem mappedTwice_run (address : Nat) :
    ∃ s, Run zeroClient (.start (initCache zeroClient "a.out" []) ⟨1, 1, 1⟩ false) s
      [⟨⟨1, .addRegion 0x70000 32⟩, .init⟩,
       ⟨⟨1, .addRegion address 32⟩, cacheAddRegion zeroClient 0x70000 32 1 .init⟩] ∧
      s.bpf.mem = cacheAddRegion zeroClient address 32 1
        (cacheAddRegion zeroClient 0x70000 32 1 .init) := by
  have r0 := (@Run.start zeroClient
    (.start (initCache zeroClient "a.out" []) ⟨1, 1, 1⟩ false)).step (.continue_ rfl)
  obtain ⟨h1, r1⟩ := r0.event (e := .mmapEntry 32) rfl rfl rfl rfl rfl
  obtain ⟨h2, r2⟩ := r1.event (e := .mmapExit 0x70000) rfl rfl rfl rfl rfl
  obtain ⟨h3, r3⟩ := r2.event (e := .munmap 0x70000) rfl rfl rfl rfl rfl
  obtain ⟨h4, r4⟩ := r3.event (e := .mmapExit address) rfl rfl rfl rfl rfl
  exact ⟨_, r4, rfl⟩

theorem zeroClient_segments {address : Nat} (h : address + 32 ≤ 2 ^ 56) (st : MemState) :
    (cacheAddRegion zeroClient address 32 1 st).log.map MemMsg.key =
        st.log.map MemMsg.key ++ [(address, 1)] ∧
      Made.segments zeroClient ⟨⟨1, .addRegion address 32⟩, st⟩ = [address] := by
  have hread : ¬ (zeroClient.readv 1 address 32).1 < toSigned 32 := by
    rw [zeroClient_readv h]
    decide
  have haddress : (address + memSegmentSize * 0) % addressSpace = address := by
    unfold addressSpace
    omega
  unfold cacheAddRegion Made.segments
  dsimp only
  rw [if_neg hread, if_neg hread, List.map_append]
  refine ⟨?_, ?_⟩
  · show _ ++ [((address + memSegmentSize * 0) % addressSpace, 1)] = _
    rw [haddress]
  · show [(address + memSegmentSize * 0) % addressSpace] = _
    rw [haddress]

/-- Two segments in different places. -/
theorem mem_keys_nodup_apart : ∃ s : System, (s.bpf.mem.log.map MemMsg.key).Nodup ∧
    s.bpf.mem.log.map MemMsg.key = [(0x70000, 1), (0x80000, 1)] := by
  obtain ⟨s, run, hmem⟩ := mappedTwice_run 0x80000
  refine ⟨s, mem_keys_nodup (by decide) run (fun m hm => ?_) ?_, ?_⟩
  · rw [List.mem_append] at hm
    rcases hm with hm | hm
    · cases hm
    · rcases List.mem_cons.mp hm with rfl | hm
      · rintro _ _ ⟨⟩
        decide
      · cases List.mem_singleton.mp hm
        rintro _ _ ⟨⟩
        decide
  · refine List.pairwise_pair.mpr fun _ => Or.inl ?_
    rw [(zeroClient_segments (by decide) _).2, (zeroClient_segments (by decide) _).2]
    exact List.disjoint_singleton.mpr (by decide)
  · rw [hmem, (zeroClient_segments (by decide) _).1, (zeroClient_segments (by decide) _).1]
    rfl

/-- The second segment is mapped where the first was, before the next line is reached. -/
theorem mapped_twice_duplicates : ¬ ∀ s : System,
    Reachable zeroClient (initCache zeroClient "a.out" []) ⟨1, 1, 1⟩ false s →
      (s.bpf.mem.log.map MemMsg.key).Nodup := by
  intro h
  obtain ⟨s, run, hmem⟩ := mappedTwice_run 0x70000
  have hnodup := h s run.reachable
  rw [hmem, (zeroClient_segments (by decide) _).1, (zeroClient_segments (by decide) _).1] at hnodup
  exact absurd hnodup (by decide)

end FlightRec
