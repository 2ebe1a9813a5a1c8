/-
# `FlightRec.Record.FaultProtocol` — page faults between two stops

Two threads of Record share the channel `proc_mem_ch`, the flag `mem_dirty` and the
semaphore `bpf_sem`: the thread that runs `bpf_callback` for the events of the
client, and the main loop of `record`, which lets the client run to the next
breakpoint, waits for the semaphore and calls `process_breakpoint` (record/run.c).
A stop raises two `SIGTRAP`s, one for the breakpoint and one for the single
instruction behind it; the callback posts the semaphore for every other one.

`Step` is one action of the client, of the main loop or of the callback, whose two
effects on the other thread are two actions.  The events of the client stand in
`queue` in the order they occurred, and the callback takes them from the front.
In every state that any interleaving reaches (`Reachable`), the faults before a stop
are in the channel when it is processed, the semaphore was posted once for it, and
the addresses are processed in order, each once, at the first stop that drains the
channel (`reachable_faultsProcessed`).
-/
import FlightRec.Lib.Toggle
import FlightRec.Record.BpfCallback
import FlightRec.Record.Depth
import Mathlib.Logic.Relation
import Mathlib.Data.List.Forall2

namespace FlightRec

open Toggle

/-! ## The two threads -/

/-- Where the callback is: between two events, or half way through one. -/
inductive BpfPc where
  | idle
  /-- The address is written to `proc_mem_ch`, `mem_dirty` is not set yet. -/
  | written
  /-- `bpf_sem` is posted, `count` is not set yet. -/
  | posted
  deriving DecidableEq, Repr

/-- Where the main loop is, with the line the client is stopped at. -/
inductive MainPc where
  /-- Before `PTRACE_CONT`. -/
  | cont
  /-- In `waitpid`; the client runs to its next breakpoint. -/
  | waitStop
  /-- Before `sem_wait`. -/
  | waitSem (line : CachedLine)
  /-- `process_breakpoint` is called. -/
  | enter (line : CachedLine)
  /-- Before the test of `mem_dirty`; the step is counted. -/
  | decide (line : CachedLine)
  /-- In the loop of `proc_dirty_mem`. -/
  | drain (line : CachedLine)
  /-- Before `mem_dirty = 0`. -/
  | reset (line : CachedLine)
  /-- Before `PTRACE_SINGLESTEP`. -/
  | resume (line : CachedLine)
  /-- In the `waitpid` of `process_breakpoint`; the client executes one instruction. -/
  | waitTrap
  /-- Out of the loop, before `stop = 1`. -/
  | leave
  | finished
  /-- `process_breakpoint` did not get its `SIGTRAP`. -/
  | failed
  deriving DecidableEq, Repr

/-- What has happened so far; no thread reads it.  A stop is known by the number of
the step it becomes, an address comes with the first stop at or after its arrival in
the channel, and with the stop it is processed at. -/
structure History where
  faults : List Nat
  stops : List (Nat × CachedLine)
  posts : List Nat
  arrived : List (Nat × Nat)
  processed : List (Nat × Nat)
  deriving DecidableEq, Repr

/-- Both threads, what they share, and the events that were not delivered yet. -/
structure System where
  queue : List BpfEvent
  callback : BpfPc
  main : MainPc
  tracer : Tracer
  bpf : BpfState
  hist : History

/-- The main loop is entered after the first step was processed and the callback
was installed; `mem_dirty` is whatever that step left. -/
def System.start (mem : MemState) (tracer : Tracer) (memDirty : Bool) : System where
  queue := []
  callback := .idle
  main := .cont
  tracer := tracer
  bpf := { BpfState.start mem with memDirty }
  hist := { faults := [], stops := [], posts := [], arrived := [], processed := [] }

/-- The step the next stop becomes. -/
def System.nextStep (s : System) : Nat := s.tracer.stepId + 1

/-- The client runs while the main loop is in one of its two `waitpid`s. -/
def MainPc.clientRuns (pc : MainPc) : Prop := pc = .waitStop ∨ pc = .waitTrap

/-- The address of a page fault. -/
def BpfEvent.fault? : BpfEvent → Option Nat
  | .pagefault address => some address
  | _ => none

/-- The event is a `SIGTRAP`. -/
def BpfEvent.isTrap (e : BpfEvent) : Bool := e == .signal sigtrap

/-- The events of which `bpf_callback` shares nothing with the main loop but the cache. -/
def BpfEvent.isQuiet (e : BpfEvent) : Bool := e.fault?.isNone && !e.isTrap

/-- One action of the client, the callback or the main loop. -/
inductive Step (c : Client) : System → System → Prop
  -- the client
  | occur {s : System} {e : BpfEvent} (runs : s.main.clientRuns) (he : e.isTrap = false) :
      Step c s { s with
        queue := s.queue ++ [e]
        hist := { s.hist with faults := s.hist.faults ++ e.fault?.toList } }
  | hit {s : System} (line : CachedLine) (at_ : s.main = .waitStop) :
      Step c s { s with
        main := .waitSem line
        queue := s.queue ++ [.signal sigtrap]
        hist := { s.hist with stops := s.hist.stops ++ [(s.nextStep, line)] } }
  | trap {s : System} (at_ : s.main = .waitTrap) :
      Step c s { s with main := .cont, queue := s.queue ++ [.signal sigtrap] }
  | exit {s : System} (at_ : s.main = .waitStop) : Step c s { s with main := .leave }
  | killed {s : System} (at_ : s.main = .waitTrap) : Step c s { s with main := .failed }
  -- the callback
  | ignore {s : System} {e : BpfEvent} {rest : List BpfEvent} (at_ : s.callback = .idle)
      (head : s.queue = e :: rest) (stopped : s.bpf.stop = true) :
      Step c s { s with queue := rest }
  | write {s : System} {address : Nat} {rest : List BpfEvent} (at_ : s.callback = .idle)
      (head : s.queue = .pagefault address :: rest) (running : s.bpf.stop = false) :
      Step c s { s with
        queue := rest
        callback := .written
        bpf := { s.bpf with procMemCh := s.bpf.procMemCh ++ [address] }
        hist := { s.hist with arrived := s.hist.arrived ++ [(address, s.nextStep)] } }
  | mark {s : System} (at_ : s.callback = .written) :
      Step c s { s with callback := .idle, bpf := { s.bpf with memDirty := true } }
  | post {s : System} {rest : List BpfEvent} (at_ : s.callback = .idle)
      (head : s.queue = .signal sigtrap :: rest) (running : s.bpf.stop = false)
      (first : s.bpf.count = false) :
      Step c s { s with
        queue := rest
        callback := .posted
        bpf := { s.bpf with bpfSem := s.bpf.bpfSem + 1 }
        hist := { s.hist with posts := s.hist.posts ++ [s.nextStep] } }
  | setCount {s : System} (at_ : s.callback = .posted) :
      Step c s { s with callback := .idle, bpf := { s.bpf with count := true } }
  | clearCount {s : System} {rest : List BpfEvent} (at_ : s.callback = .idle)
      (head : s.queue = .signal sigtrap :: rest) (running : s.bpf.stop = false)
      (second : s.bpf.count = true) :
      Step c s { s with queue := rest, bpf := { s.bpf with count := false } }
  | other {s : System} {e : BpfEvent} {rest : List BpfEvent} (at_ : s.callback = .idle)
      (head : s.queue = e :: rest) (running : s.bpf.stop = false) (quiet : e.isQuiet = true) :
      Step c s { s with queue := rest, bpf := bpfCallback c s.tracer.stepId e s.bpf }
  -- the main loop
  | continue_ {s : System} (at_ : s.main = .cont) : Step c s { s with main := .waitStop }
  | semWait {s : System} {line : CachedLine} (at_ : s.main = .waitSem line)
      (posted : 0 < s.bpf.bpfSem) :
      Step c s { s with main := .enter line, bpf := { s.bpf with bpfSem := s.bpf.bpfSem - 1 } }
  | enter {s : System} {line : CachedLine} (at_ : s.main = .enter line) :
      Step c s { s with main := .decide line, tracer := s.tracer.arrive line }
  | skip {s : System} {line : CachedLine} (at_ : s.main = .decide line)
      (clean : ¬ (s.bpf.memDirty = true ∧ line.funcFlag ≠ funcFlagStart)) :
      Step c s { s with main := .resume line }
  | dirty {s : System} {line : CachedLine} (at_ : s.main = .decide line)
      (dirty : s.bpf.memDirty = true) (inner : line.funcFlag ≠ funcFlagStart) :
      Step c s { s with main := .drain line }
  | read {s : System} {line : CachedLine} {address : Nat} {rest : List Nat}
      (at_ : s.main = .drain line) (head : s.bpf.procMemCh = address :: rest) :
      Step c s { s with
        bpf := { s.bpf with
          procMemCh := rest, mem := procDirtyMem c s.tracer.stepId [address] s.bpf.mem }
        hist := { s.hist with processed := s.hist.processed ++ [(address, s.tracer.stepId)] } }
  | noData {s : System} {line : CachedLine} (at_ : s.main = .drain line)
      (empty : s.bpf.procMemCh = []) : Step c s { s with main := .reset line }
  | clean {s : System} {line : CachedLine} (at_ : s.main = .reset line) :
      Step c s { s with main := .resume line, bpf := { s.bpf with memDirty := false } }
  | resume {s : System} {line : CachedLine} (at_ : s.main = .resume line) :
      Step c s { s with main := .waitTrap, tracer := s.tracer.depart line }
  | stop {s : System} (at_ : s.main = .leave) :
      Step c s { s with main := .finished, bpf := { s.bpf with stop := true } }

/-- What the two threads and the client can reach from the start of the main loop. -/
def Reachable (c : Client) (mem : MemState) (tracer : Tracer) (memDirty : Bool) (s : System) :
    Prop :=
  Relation.ReflTransGen (Step c) (.start mem tracer memDirty) s

/-! ## The actions make up the functions -/

theorem callback_runs (c : Client) {s : System} {e : BpfEvent} {rest : List BpfEvent}
    (idle : s.callback = .idle) (head : s.queue = e :: rest) :
    ∃ hist, Relation.ReflTransGen (Step c) s
      { s with queue := rest, bpf := bpfCallback c s.tracer.stepId e s.bpf, hist } := by
  rcases s with ⟨queue, callback, main, tracer, bpf, hist⟩
  cases idle
  cases head
  by_cases hstop : bpf.stop = true
  · refine ⟨hist, .single ?_⟩
    simp only [bpfCallback, if_pos hstop]
    exact .ignore rfl rfl hstop
  · have running : bpf.stop = false := eq_false_of_ne_true hstop
    cases e with
    | pagefault address =>
        refine ⟨{ hist with arrived := hist.arrived ++ [(address, tracer.stepId + 1)] },
          .tail (.single (.write rfl rfl running)) ?_⟩
        simp only [bpfCallback, if_neg hstop]
        exact .mark rfl
    | signal signum =>
        by_cases htrap : signum = sigtrap
        · subst htrap
          cases hcount : bpf.count with
          | false =>
              refine ⟨{ hist with posts := hist.posts ++ [tracer.stepId + 1] },
                .tail (.single (.post rfl rfl running hcount)) ?_⟩
              simp only [bpfCallback, if_neg hstop, BpfState.onSignal, hcount]
              exact .setCount rfl
          | true =>
              refine ⟨hist, .single ?_⟩
              simp only [bpfCallback, if_neg hstop, BpfState.onSignal, hcount]
              exact .clearCount rfl rfl running hcount
        · exact ⟨hist, .single (.other rfl rfl running (by
            simp [BpfEvent.isQuiet, BpfEvent.fault?, BpfEvent.isTrap, htrap]))⟩
    | mmapEntry size => exact ⟨hist, .single (.other rfl rfl running rfl)⟩
    | mmapExit address => exact ⟨hist, .single (.other rfl rfl running rfl)⟩
    | munmap address => exact ⟨hist, .single (.other rfl rfl running rfl)⟩
    | brk address => exact ⟨hist, .single (.other rfl rfl running rfl)⟩
    | unknown type => exact ⟨hist, .single (.other rfl rfl running rfl)⟩

theorem procDirtyMem_cons (c : Client) (step address : Nat) (rest : List Nat) (st : MemState) :
    procDirtyMem c step (address :: rest) st =
      procDirtyMem c step rest (procDirtyMem c step [address] st) := by
  simp only [procDirtyMem]
  split
  · rfl
  · split <;> rfl

theorem drain_runs (c : Client) {line : CachedLine} {s : System} (at_ : s.main = .drain line) :
    ∃ hist, Relation.ReflTransGen (Step c) s
      { s with
        main := .reset line
        bpf := { s.bpf with
          procMemCh := [], mem := procDirtyMem c s.tracer.stepId s.bpf.procMemCh s.bpf.mem }
        hist } := by
  rcases s with ⟨queue, callback, main, tracer, bpf, hist⟩
  cases at_
  induction hch : bpf.procMemCh generalizing bpf hist with
  | nil =>
      have hdone := Step.noData (c := c) (s := ⟨queue, callback, .drain line, tracer, bpf, hist⟩)
        rfl hch
      refine ⟨hist, .single ?_⟩
      simp only [procDirtyMem]
      rwa [← hch]
  | cons address rest ih =>
      have hread := Step.read (c := c) (s := ⟨queue, callback, .drain line, tracer, bpf, hist⟩)
        rfl hch
      obtain ⟨hist', hrest⟩ := ih { bpf with
        procMemCh := rest, mem := procDirtyMem c tracer.stepId [address] bpf.mem } _ rfl
      refine ⟨hist', .head hread ?_⟩
      simp only [procDirtyMem_cons c _ address rest]
      exact hrest

/-! ## The handshake -/

/-- The main loop is inside `process_breakpoint`, and the client stands still. -/
def MainPc.inBreakpoint : MainPc → Bool
  | .enter _ | .decide _ | .drain _ | .reset _ | .resume _ => true
  | _ => false

/-- Of the two `SIGTRAP`s of a stop the first has been raised and the second has not. -/
def MainPc.opened : MainPc → Bool
  | .waitSem _ | .enter _ | .decide _ | .drain _ | .reset _ | .resume _ | .waitTrap
  | .failed => true
  | .cont | .waitStop | .leave | .finished => false

/-- How many posts of the semaphore the main loop has still to take. -/
def MainPc.awaits : MainPc → Nat
  | .waitSem _ => 1
  | _ => 0

/-- `count`, once the callback is done with its event. -/
def System.count (s : System) : Bool := s.bpf.count || s.callback == .posted

/-- How the events in the queue fit where the main loop is: they switch `count` to
on exactly between the two `SIGTRAP`s of a stop; the posts made and to come are
those the main loop awaits; and while it waits for the semaphore the last event is
the one that posts it, so that behind the wait the callback has nothing to do. -/
structure Handshake (s : System) : Prop where
  stopped : s.bpf.stop = true ↔ s.main = .finished
  switch : s.bpf.stop = false → final BpfEvent.isTrap s.count s.queue = s.main.opened
  posts : s.bpf.stop = false →
    rises BpfEvent.isTrap s.count s.queue + s.bpf.bpfSem = s.main.awaits
  last : ∀ line, s.main = .waitSem line → s.queue = [] ∧ s.callback ≠ .written ∨
    ∃ q, s.queue = q ++ [.signal sigtrap] ∧ final BpfEvent.isTrap s.count q = false
  quiet : s.main.inBreakpoint = true → s.queue = [] ∧ s.callback ≠ .written

@[simp] theorem isTrap_sigtrap : (BpfEvent.signal sigtrap).isTrap = true := rfl

@[simp] theorem fault?_signal (signum : Nat) : (BpfEvent.signal signum).fault? = none := rfl

@[simp] theorem fault?_pagefault (address : Nat) :
    (BpfEvent.pagefault address).fault? = some address := rfl

theorem handshake_start (mem : MemState) (tracer : Tracer) (memDirty : Bool) :
    Handshake (.start mem tracer memDirty) where
  stopped := by simp [System.start, BpfState.start]
  switch := fun _ => rfl
  posts := fun _ => rfl
  last := fun line h => by cases h
  quiet := fun h => by cases h

theorem BpfEvent.isTrap_of_isQuiet {e : BpfEvent} (h : e.isQuiet = true) : e.isTrap = false := by
  simp only [BpfEvent.isQuiet, Bool.and_eq_true] at h
  simpa using h.2

theorem bpfCallback_quiet (c : Client) (step : Nat) {e : BpfEvent} (st : BpfState)
    (h : e.isQuiet = true) :
    (bpfCallback c step e st).stop = st.stop ∧ (bpfCallback c step e st).count = st.count ∧
      (bpfCallback c step e st).memDirty = st.memDirty ∧
      (bpfCallback c step e st).procMemCh = st.procMemCh ∧
      (bpfCallback c step e st).bpfSem = st.bpfSem := by
  unfold bpfCallback
  split
  · exact ⟨rfl, rfl, rfl, rfl, rfl⟩
  · cases e with
    | pagefault address => cases h
    | signal signum =>
        have hne : signum ≠ sigtrap := fun heq => by
          rw [heq] at h
          cases h
        simp [BpfState.onSignal, hne]
    | mmapEntry size => exact ⟨rfl, rfl, rfl, rfl, rfl⟩
    | mmapExit address => exact ⟨rfl, rfl, rfl, rfl, rfl⟩
    | munmap address => exact ⟨rfl, rfl, rfl, rfl, rfl⟩
    | unknown type => exact ⟨rfl, rfl, rfl, rfl, rfl⟩
    | brk address =>
        simp only []
        split
        · exact ⟨rfl, rfl, rfl, rfl, rfl⟩
        · split <;> exact ⟨rfl, rfl, rfl, rfl, rfl⟩

section
variable {c : Client} {s s' : System}

theorem Handshake.running (h : Handshake s) {pc : MainPc} (at_ : s.main = pc)
    (hpc : pc ≠ .finished) : s.bpf.stop = false :=
  eq_false_of_ne_true (mt h.stopped.mp (at_ ▸ hpc))

theorem Handshake.outside (h : Handshake s) {e : BpfEvent} {rest : List BpfEvent}
    (head : s.queue = e :: rest) : s.main.inBreakpoint ≠ true := by
  intro hin
  have hnil := (h.quiet hin).1
  rw [head] at hnil
  cases hnil

/-- While the main loop waits, the event at hand is the one that posts, or that is still ahead. -/
theorem Handshake.last_cons (h : Handshake s) {line : CachedLine} (hline : s.main = .waitSem line)
    {e : BpfEvent} {rest : List BpfEvent} (head : s.queue = e :: rest) :
    (rest = [] ∧ e = .signal sigtrap ∧ s.count = false) ∨
      ∃ q, rest = q ++ [.signal sigtrap] ∧
        final BpfEvent.isTrap (flip BpfEvent.isTrap s.count e) q = false := by
  rcases h.last line hline with ⟨hnil, _⟩ | ⟨q, hq, hfinal⟩
  · rw [head] at hnil
    cases hnil
  · rw [head] at hq
    cases q with
    | nil =>
        cases hq
        exact Or.inl ⟨rfl, rfl, hfinal⟩
    | cons x q =>
        obtain ⟨rfl, hrest⟩ := List.cons.inj hq
        exact Or.inr ⟨q, hrest, hfinal⟩

theorem Handshake.move (h : Handshake s) {from_ pc : MainPc} (at_ : s.main = from_)
    {tracer : Tracer} {bpf : BpfState} {hist : History} (stop : bpf.stop = s.bpf.stop)
    (count : bpf.count = s.bpf.count) (sem : bpf.bpfSem = s.bpf.bpfSem)
    (opened : pc.opened = from_.opened) (awaits : pc.awaits = from_.awaits)
    (nowait : ∀ line, pc ≠ .waitSem line) (finished : pc = .finished ↔ from_ = .finished)
    (inside : pc.inBreakpoint = true → from_.inBreakpoint = true) :
    Handshake { s with main := pc, tracer, bpf, hist } := by
  have hcount : System.count { s with main := pc, tracer, bpf, hist } = s.count := by
    simp only [System.count, count]
  refine ⟨?_, ?_, ?_, fun line hline => absurd hline (nowait line), fun hin => ?_⟩
  · simp only [stop, finished, ← at_]
    exact h.stopped
  · rw [hcount]
    simp only [stop, opened, ← at_]
    exact h.switch
  · rw [hcount]
    simp only [stop, sem, awaits, ← at_]
    exact h.posts
  · refine h.quiet ?_
    rw [at_]
    exact inside hin

theorem Handshake.take (h : Handshake s) {e : BpfEvent} {rest : List BpfEvent}
    (head : s.queue = e :: rest) (plain : s.bpf.stop = false → e.isTrap = false)
    {callback : BpfPc} {bpf : BpfState} {hist : History} (posted : callback ≠ .posted)
    (idle : s.callback = .idle)
    (stop : bpf.stop = s.bpf.stop) (count : bpf.count = s.bpf.count)
    (sem : bpf.bpfSem = s.bpf.bpfSem) :
    Handshake { s with queue := rest, callback, bpf, hist } := by
  have hcount : System.count { s with queue := rest, callback, bpf, hist } = s.count := by
    simp [System.count, count, idle, beq_false_of_ne posted]
  refine ⟨by simpa only [stop] using h.stopped, fun hs => ?_, fun hs => ?_, fun line hline => ?_,
    fun hin => absurd hin (h.outside head)⟩
  · rw [hcount]
    simp only [stop] at hs
    have := h.switch hs
    rwa [head, final_cons_plain (plain hs)] at this
  · rw [hcount]
    simp only [stop] at hs
    have := h.posts hs
    rw [head, rises_cons_plain (plain hs)] at this
    simpa only [sem] using this
  · have he : e.isTrap = false := plain (h.running hline (fun h => by cases h))
    rw [hcount]
    rcases h.last_cons hline head with ⟨_, rfl, _⟩ | ⟨q, hrest, hfinal⟩
    · cases he
    · rw [flip_plain he] at hfinal
      exact Or.inr ⟨q, hrest, hfinal⟩

theorem Handshake.raised (h : Handshake s) (hs : s.bpf.stop = false) :
    final BpfEvent.isTrap s.count (s.queue ++ [.signal sigtrap]) = !s.main.opened ∧
      rises BpfEvent.isTrap s.count (s.queue ++ [.signal sigtrap]) + s.bpf.bpfSem =
        s.main.awaits + if s.main.opened then 0 else 1 := by
  have hopen := h.switch hs
  have hposts := h.posts hs
  constructor
  · rw [final_concat, flip_marked isTrap_sigtrap, hopen]
  · rw [rises_concat, hopen, isTrap_sigtrap, Bool.true_and]
    cases s.main.opened with
    | false =>
        simp only [Bool.not_false, if_true, Bool.false_eq_true, if_false]
        omega
    | true =>
        simp only [Bool.not_true, if_true, Bool.false_eq_true, if_false]
        omega

theorem Handshake.step (h : Handshake s) (hstep : Step c s s') : Handshake s' := by
  cases hstep with
  | @occur e runs he =>
      have hout : s.main.inBreakpoint = false := by rcases runs with h | h <;> rw [h] <;> rfl
      refine ⟨h.stopped, fun hs => ?_, fun hs => ?_, fun line hline => ?_, fun hin => ?_⟩
      · show final _ s.count _ = _
        rw [final_concat, flip_plain he]
        exact h.switch hs
      · show rises _ s.count _ + _ = _
        rw [rises_concat, he]
        simpa using h.posts hs
      · rcases runs with h | h <;> rw [h] at hline <;> cases hline
      · rw [hout] at hin
        cases hin
  | hit line at_ =>
      have hs : s.bpf.stop = false := h.running at_ (fun h => by cases h)
      have hopen := h.switch hs
      obtain ⟨hfinal, hposts⟩ := h.raised hs
      rw [at_] at hopen hfinal hposts
      exact ⟨by simp [hs], fun _ => hfinal, fun _ => hposts,
        fun _ _ => Or.inr ⟨s.queue, rfl, hopen⟩, fun hin => by cases hin⟩
  | trap at_ =>
      have hs : s.bpf.stop = false := h.running at_ (fun h => by cases h)
      obtain ⟨hfinal, hposts⟩ := h.raised hs
      rw [at_] at hfinal hposts
      exact ⟨by simp [hs], fun _ => hfinal, fun _ => hposts, fun _ hline => (by cases hline),
        fun hin => by cases hin⟩
  | exit at_ =>
      exact h.move at_ rfl rfl rfl rfl rfl (by simp) (by simp) (fun hin => by cases hin)
  | killed at_ =>
      exact h.move at_ rfl rfl rfl rfl rfl (by simp) (by simp) (fun hin => by cases hin)
  | ignore at_ head stopped =>
      exact h.take head (fun hs => absurd (stopped.symm.trans hs) (by simp)) (by rw [at_]; simp) at_
        rfl rfl rfl
  | write at_ head running =>
      exact h.take head (fun _ => rfl) (by simp) at_ rfl rfl rfl
  | mark at_ =>
      have hcount : System.count { s with
          callback := .idle, bpf := { s.bpf with memDirty := true } } = s.count := by
        simp only [System.count, at_]
        rfl
      refine ⟨h.stopped, ?_, ?_, fun line hline => ?_, fun hin => absurd at_ (h.quiet hin).2⟩
      · rw [hcount]
        exact h.switch
      · rw [hcount]
        exact h.posts
      · rw [hcount]
        rcases h.last line hline with ⟨_, hne⟩ | hq
        · exact absurd at_ hne
        · exact Or.inr hq
  | @post rest at_ head running first =>
      have hoff : s.count = false := by simp [System.count, first, at_]
      have hsw := h.switch running
      have hposts := h.posts running
      rw [head, hoff, final_cons, flip_marked isTrap_sigtrap] at hsw
      rw [head, hoff, rises_cons, flip_marked isTrap_sigtrap, isTrap_sigtrap] at hposts
      have hon : ∀ bpf hist, System.count ⟨rest, .posted, s.main, s.tracer, bpf, hist⟩ = true := by
        simp [System.count]
      refine ⟨h.stopped, fun _ => ?_, fun _ => ?_, fun line hline => ?_,
        fun hin => absurd hin (h.outside head)⟩
      · rw [hon]
        exact hsw
      · rw [hon]
        have : 1 + rises BpfEvent.isTrap true rest + s.bpf.bpfSem = s.main.awaits := hposts
        show rises BpfEvent.isTrap true rest + (s.bpf.bpfSem + 1) = s.main.awaits
        omega
      · rw [hon]
        rcases h.last_cons hline head with ⟨hnil, _⟩ | ⟨q, hrest, hfinal⟩
        · exact Or.inl ⟨hnil, by simp⟩
        · rw [hoff, flip_marked isTrap_sigtrap] at hfinal
          exact Or.inr ⟨q, hrest, hfinal⟩
  | setCount at_ =>
      have hcount : System.count { s with
          callback := .idle, bpf := { s.bpf with count := true } } = s.count := by
        simp [System.count, at_]
      refine ⟨h.stopped, ?_, ?_, fun line hline => ?_, fun hin => ⟨(h.quiet hin).1, by simp⟩⟩
      · rw [hcount]
        exact h.switch
      · rw [hcount]
        exact h.posts
      · rw [hcount]
        rcases h.last line hline with ⟨hnil, _⟩ | hq
        · exact Or.inl ⟨hnil, by simp⟩
        · exact Or.inr hq
  | @clearCount rest at_ head running second =>
      have hon : s.count = true := by simp [System.count, second]
      have hsw := h.switch running
      have hposts := h.posts running
      rw [head, hon, final_cons, flip_marked isTrap_sigtrap] at hsw
      rw [head, hon, rises_cons, flip_marked isTrap_sigtrap, isTrap_sigtrap] at hposts
      have hoff : System.count { s with
          queue := rest, bpf := { s.bpf with count := false } } = false := by
        simp [System.count, at_]
      refine ⟨h.stopped, fun _ => ?_, fun _ => ?_, fun line hline => ?_,
        fun hin => absurd hin (h.outside head)⟩
      · rw [hoff]
        exact hsw
      · rw [hoff]
        simpa using hposts
      · rw [hoff]
        rcases h.last_cons hline head with ⟨_, _, hcount⟩ | ⟨q, hrest, hfinal⟩
        · -- with `count` set the event at hand is not the one that posts
          rw [hon] at hcount
          cases hcount
        · rw [hon, flip_marked isTrap_sigtrap] at hfinal
          exact Or.inr ⟨q, hrest, hfinal⟩
  | other at_ head running quiet =>
      obtain ⟨hstop, hcount, _, _, hsem⟩ := bpfCallback_quiet c s.tracer.stepId s.bpf quiet
      exact h.take head (fun _ => BpfEvent.isTrap_of_isQuiet quiet) (by rw [at_]; simp) at_
        hstop hcount hsem
  | continue_ at_ =>
      exact h.move at_ rfl rfl rfl rfl rfl (by simp) (by simp) (fun hin => by cases hin)
  | @semWait line at_ posted =>
      have hs : s.bpf.stop = false := h.running at_ (fun h => by cases h)
      have hposts := h.posts hs
      have hsw := h.switch hs
      rw [at_] at hposts hsw
      have hposts : rises BpfEvent.isTrap s.count s.queue + s.bpf.bpfSem = 1 := hposts
      refine ⟨by simp [hs], fun _ => hsw, fun _ => ?_, fun _ hline => (by cases hline), fun _ => ?_⟩
      · show rises BpfEvent.isTrap s.count s.queue + (s.bpf.bpfSem - 1) = 0
        omega
      · -- the event that posts would be in the queue, and be a second post
        rcases h.last line at_ with hdone | ⟨q, hq, hfinal⟩
        · exact hdone
        · rw [hq, rises_concat, hfinal] at hposts
          simp at hposts
          omega
  | enter at_ =>
      exact h.move at_ rfl rfl rfl rfl rfl (by simp) (by simp) (fun _ => rfl)
  | skip at_ clean =>
      exact h.move at_ rfl rfl rfl rfl rfl (by simp) (by simp) (fun _ => rfl)
  | dirty at_ dirty inner =>
      exact h.move at_ rfl rfl rfl rfl rfl (by simp) (by simp) (fun _ => rfl)
  | read at_ head => exact h.move rfl rfl rfl rfl rfl rfl (by simp [at_]) Iff.rfl id
  | noData at_ empty =>
      exact h.move at_ rfl rfl rfl rfl rfl (by simp) (by simp) (fun _ => rfl)
  | clean at_ =>
      exact h.move at_ rfl rfl rfl rfl rfl (by simp) (by simp) (fun _ => rfl)
  | resume at_ =>
      exact h.move at_ rfl rfl rfl rfl rfl (by simp) (by simp) (fun hin => by cases hin)
  | stop at_ =>
      exact ⟨by simp, fun hs => (by cases hs), fun hs => (by cases hs),
        fun _ hline => (by cases hline), fun hin => (by cases hin)⟩

/-! ## Stops and posts are numbered by the steps -/

/-- The stop at hand has not been counted as a step yet. -/
def MainPc.uncounted : MainPc → Nat
  | .waitSem _ | .enter _ => 1
  | _ => 0

/-- The line the client is stopped at. -/
def MainPc.line? : MainPc → Option CachedLine
  | .waitSem line | .enter line | .decide line | .drain line | .reset line
  | .resume line => some line
  | _ => none

/-- The line of a stop that drains the channel, until it is drained. -/
def MainPc.draining? : MainPc → Option CachedLine
  | .drain line | .reset line => some line
  | _ => none

/-- Every stop becomes a step, in order, and all of them but the one the main loop
still waits to hear of have been posted, in order. -/
structure Numbered (first : Nat) (s : System) : Prop where
  le : first ≤ s.tracer.stepId
  stops : s.hist.stops.map Prod.fst =
    List.range' (first + 1) (s.tracer.stepId - first + s.main.uncounted)
  posts : s.hist.stops.map Prod.fst =
    s.hist.posts ++ List.replicate (s.main.awaits - s.bpf.bpfSem) s.nextStep
  line : ∀ line, s.main.line? = some line →
    (s.tracer.stepId + s.main.uncounted, line) ∈ s.hist.stops
  inner : ∀ line, s.main.draining? = some line → line.funcFlag ≠ funcFlagStart

theorem numbered_start (mem : MemState) (tracer : Tracer) (memDirty : Bool) :
    Numbered tracer.stepId (.start mem tracer memDirty) where
  le := Nat.le_refl _
  stops := by simp [System.start, MainPc.uncounted]
  posts := rfl
  line := fun _ h => by cases h
  inner := fun _ h => by cases h

theorem Numbered.step {first : Nat} (h : Numbered first s) (hand : Handshake s)
    (hstep : Step c s s') : Numbered first s' := by
  rcases s with ⟨queue, callback, main, tracer, bpf, hist⟩
  cases hstep with
  | occur runs he => exact ⟨h.le, h.stops, h.posts, h.line, h.inner⟩
  | hit line at_ =>
      cases at_
      have hsem : rises _ _ queue + bpf.bpfSem = 0 := hand.posts (hand.running rfl (by simp))
      have hle : first ≤ tracer.stepId := h.le
      have hstops : hist.stops.map Prod.fst = List.range' (first + 1) (tracer.stepId - first + 0) :=
        h.stops
      have hposts : hist.stops.map Prod.fst =
          hist.posts ++ List.replicate (0 - bpf.bpfSem) (tracer.stepId + 1) := h.posts
      refine ⟨h.le, ?_, ?_, fun l hl => ?_, fun _ hl => (by cases hl)⟩
      · show (hist.stops ++ [(tracer.stepId + 1, line)]).map _ =
          List.range' _ (tracer.stepId - first + 1)
        rw [List.map_append, hstops, List.range'_1_concat]
        have : first + 1 + (tracer.stepId - first) = tracer.stepId + 1 := by omega
        rw [this]
        rfl
      · show (hist.stops ++ [(tracer.stepId + 1, line)]).map _ =
          hist.posts ++ List.replicate (1 - bpf.bpfSem) (tracer.stepId + 1)
        have h0 : bpf.bpfSem = 0 := by omega
        rw [List.map_append, hposts, h0]
        simp
      · cases hl
        exact List.mem_append_right _ (List.mem_singleton.mpr rfl)
  | trap at_ => cases at_; exact ⟨h.le, h.stops, h.posts, h.line, h.inner⟩
  | exit at_ => cases at_; exact ⟨h.le, h.stops, h.posts, h.line, h.inner⟩
  | killed at_ => cases at_; exact ⟨h.le, h.stops, h.posts, h.line, h.inner⟩
  | ignore at_ head stopped => exact ⟨h.le, h.stops, h.posts, h.line, h.inner⟩
  | write at_ head run => exact ⟨h.le, h.stops, h.posts, h.line, h.inner⟩
  | mark at_ => exact ⟨h.le, h.stops, h.posts, h.line, h.inner⟩
  | @post rest at_ head run off =>
      cases at_
      cases head
      have hposts : rises BpfEvent.isTrap (bpf.count || BpfPc.idle == .posted)
        (.signal sigtrap :: rest) + bpf.bpfSem = main.awaits := hand.posts run
      have hawaits : main.awaits ≤ 1 := by cases main <;> simp [MainPc.awaits]
      have hcount : bpf.count = false := off
      rw [hcount, rises_cons] at hposts
      have h1 : (if (BpfEvent.signal sigtrap).isTrap && !(false || BpfPc.idle == .posted)
        then 1 else 0) = 1 := rfl
      rw [h1] at hposts
      have hone : main.awaits - bpf.bpfSem = 1 := by omega
      have hnone : main.awaits - (bpf.bpfSem + 1) = 0 := by omega
      refine ⟨h.le, h.stops, ?_, h.line, h.inner⟩
      have hold : hist.stops.map Prod.fst =
        hist.posts ++ List.replicate (main.awaits - bpf.bpfSem) (tracer.stepId + 1) := h.posts
      show hist.stops.map Prod.fst = (hist.posts ++ [tracer.stepId + 1]) ++
        List.replicate (main.awaits - (bpf.bpfSem + 1)) (tracer.stepId + 1)
      rw [hold, hone, hnone]
      simp
  | setCount at_ => exact ⟨h.le, h.stops, h.posts, h.line, h.inner⟩
  | clearCount at_ head run on => exact ⟨h.le, h.stops, h.posts, h.line, h.inner⟩
  | other at_ head run quiet =>
      refine ⟨h.le, h.stops, ?_, h.line, h.inner⟩
      obtain ⟨_, _, _, _, hsem⟩ := bpfCallback_quiet c tracer.stepId bpf quiet
      show _ = _ ++ List.replicate (main.awaits - (bpfCallback _ _ _ bpf).bpfSem) _
      rw [hsem]
      exact h.posts
  | continue_ at_ => cases at_; exact ⟨h.le, h.stops, h.posts, h.line, h.inner⟩
  | @semWait line at_ posted =>
      cases at_
      refine ⟨h.le, h.stops, ?_, h.line, fun _ hl => (by cases hl)⟩
      have hposted : 0 < bpf.bpfSem := posted
      have hold : hist.stops.map Prod.fst =
        hist.posts ++ List.replicate (1 - bpf.bpfSem) (tracer.stepId + 1) := h.posts
      show hist.stops.map Prod.fst =
        hist.posts ++ List.replicate (0 - (bpf.bpfSem - 1)) (tracer.stepId + 1)
      rw [hold]
      congr 2
      omega
  | @enter line at_ =>
      cases at_
      have hle : first ≤ tracer.stepId := h.le
      have hid : (tracer.arrive line).stepId = tracer.stepId + 1 := tracer.arrive_stepId line
      have hstops : hist.stops.map Prod.fst = List.range' (first + 1) (tracer.stepId - first + 1) :=
        h.stops
      refine ⟨?_, ?_, ?_, fun l hl => ?_, fun _ hl => (by cases hl)⟩
      · show first ≤ (tracer.arrive line).stepId
        omega
      · show hist.stops.map Prod.fst = List.range' _ ((tracer.arrive line).stepId - first + 0)
        rw [hstops, hid]
        congr 1
        omega
      · simpa [MainPc.awaits] using h.posts
      · show ((tracer.arrive line).stepId + 0, l) ∈ hist.stops
        rw [hid]
        exact h.line l hl
  | skip at_ clean =>
      cases at_
      exact ⟨h.le, h.stops, h.posts, h.line, fun _ hl => (by cases hl)⟩
  | @dirty line at_ dirty inner =>
      cases at_
      refine ⟨h.le, h.stops, h.posts, h.line, fun l hl => ?_⟩
      cases hl
      exact inner
  | read at_ head => exact ⟨h.le, h.stops, h.posts, h.line, h.inner⟩
  | @noData line at_ empty =>
      cases at_
      exact ⟨h.le, h.stops, h.posts, h.line, h.inner⟩
  | clean at_ =>
      cases at_
      exact ⟨h.le, h.stops, h.posts, h.line, fun _ hl => (by cases hl)⟩
  | @resume line at_ =>
      cases at_
      have hid : (tracer.depart line).stepId = tracer.stepId := tracer.depart_stepId line
      refine ⟨?_, ?_, ?_, fun l hl => (by cases hl), fun _ hl => (by cases hl)⟩
      · show first ≤ (tracer.depart line).stepId
        rw [hid]
        exact h.le
      · show hist.stops.map Prod.fst = List.range' _ ((tracer.depart line).stepId - first + 0)
        rw [hid]
        exact h.stops
      · simpa [MainPc.awaits] using h.posts
  | stop at_ => cases at_; exact ⟨h.le, h.stops, h.posts, h.line, h.inner⟩

theorem Numbered.stop_le {first : Nat} (h : Numbered first s) {st : Nat × CachedLine}
    (hst : st ∈ s.hist.stops) : st.1 ≤ s.tracer.stepId + s.main.uncounted := by
  have hmem : st.1 ∈ s.hist.stops.map Prod.fst := List.mem_map.mpr ⟨st, hst, rfl⟩
  rw [h.stops] at hmem
  have hle := h.le
  have hbound := (List.mem_range'_1.mp hmem).2
  omega

theorem Numbered.unique {first : Nat} (h : Numbered first s) {a b : Nat × CachedLine}
    (ha : a ∈ s.hist.stops) (hb : b ∈ s.hist.stops) (heq : a.1 = b.1) : a = b := by
  have hnodup : (s.hist.stops.map Prod.fst).Nodup := h.stops ▸ List.nodup_range'
  exact List.inj_on_of_nodup_map hnodup ha hb heq

/-! ## Faults -/

/-- What is in the channel is announced by `mem_dirty`, unless the callback is just
about to; and every fault has been written to the channel or is still in the queue. -/
structure Delivered (s : System) : Prop where
  faults : s.bpf.stop = false →
    s.hist.faults = s.hist.arrived.map Prod.fst ++ s.queue.filterMap BpfEvent.fault?
  dirty : s.bpf.procMemCh ≠ [] → s.bpf.memDirty = true ∨ s.callback = .written
  drained : ∀ line, s.main = .reset line → s.bpf.procMemCh = []

theorem delivered_start (mem : MemState) (tracer : Tracer) (memDirty : Bool) :
    Delivered (.start mem tracer memDirty) where
  faults := fun _ => rfl
  dirty := fun h => absurd rfl h
  drained := fun _ h => by cases h

theorem BpfEvent.fault?_of_isQuiet {e : BpfEvent} (h : e.isQuiet = true) : e.fault? = none := by
  simp only [BpfEvent.isQuiet, Bool.and_eq_true, Option.isNone_iff_eq_none] at h
  exact h.1

theorem faults_concat_sigtrap (queue : List BpfEvent) :
    (queue ++ [BpfEvent.signal sigtrap]).filterMap BpfEvent.fault? =
      queue.filterMap BpfEvent.fault? := by
  rw [List.filterMap_append]
  exact List.append_nil _

theorem Delivered.step (h : Delivered s) (hand : Handshake s) (hstep : Step c s s') :
    Delivered s' := by
  rcases s with ⟨queue, callback, main, tracer, bpf, hist⟩
  cases hstep with
  | @occur e runs he =>
      refine ⟨fun run => ?_, h.dirty, h.drained⟩
      have hold : hist.faults = _ ++ queue.filterMap BpfEvent.fault? := h.faults run
      show hist.faults ++ e.fault?.toList = _ ++ (queue ++ [e]).filterMap _
      rw [hold, List.filterMap_append, List.append_assoc]
      cases he : e.fault? <;> simp [he]
  | hit line at_ =>
      refine ⟨fun run => ?_, h.dirty, fun _ hl => (by cases hl)⟩
      show hist.faults = _ ++ (queue ++ [BpfEvent.signal sigtrap]).filterMap _
      rw [faults_concat_sigtrap]
      exact h.faults run
  | trap at_ =>
      refine ⟨fun run => ?_, h.dirty, fun _ hl => (by cases hl)⟩
      show hist.faults = _ ++ (queue ++ [BpfEvent.signal sigtrap]).filterMap _
      rw [faults_concat_sigtrap]
      exact h.faults run
  | exit at_ => exact ⟨h.faults, h.dirty, fun _ hl => (by cases hl)⟩
  | killed at_ => exact ⟨h.faults, h.dirty, fun _ hl => (by cases hl)⟩
  | ignore at_ head stopped =>
      exact ⟨fun run => absurd (stopped : bpf.stop = true) (ne_true_of_eq_false run),
        h.dirty, h.drained⟩
  | @write address rest at_ head run =>
      cases head
      refine ⟨fun run => ?_, fun _ => Or.inr rfl, fun line hl => ?_⟩
      · show hist.faults = (hist.arrived ++ [(address, tracer.stepId + 1)]).map _ ++ _
        simpa using h.faults run
      · have hquiet := (hand.quiet (by rw [show main = .reset line from hl]; rfl)).1
        cases hquiet
  | mark at_ => exact ⟨h.faults, fun _ => Or.inl rfl, h.drained⟩
  | post at_ head run off =>
      cases at_
      cases head
      refine ⟨h.faults, fun hne => Or.inl ?_, h.drained⟩
      rcases h.dirty hne with hd | hw
      · exact hd
      · cases hw
  | setCount at_ =>
      cases at_
      refine ⟨h.faults, fun hne => Or.inl ?_, h.drained⟩
      rcases h.dirty hne with hd | hw
      · exact hd
      · cases hw
  | clearCount at_ head run on =>
      cases head
      exact ⟨h.faults, h.dirty, h.drained⟩
  | @other e rest at_ head run quiet =>
      cases head
      obtain ⟨hstop, _, hd, hch, _⟩ := bpfCallback_quiet c tracer.stepId bpf quiet
      refine ⟨fun _ => ?_, fun hne => ?_, fun line hl => ?_⟩
      · have hold := h.faults run
        simp only [List.filterMap_cons, BpfEvent.fault?_of_isQuiet quiet] at hold
        exact hold
      · simp only [hch] at hne
        simp only [hd]
        exact h.dirty hne
      · simp only [hch]
        exact h.drained line hl
  | continue_ at_ => exact ⟨h.faults, h.dirty, fun _ hl => (by cases hl)⟩
  | semWait at_ posted => exact ⟨h.faults, h.dirty, fun _ hl => (by cases hl)⟩
  | enter at_ => exact ⟨h.faults, h.dirty, fun _ hl => (by cases hl)⟩
  | skip at_ clean => exact ⟨h.faults, h.dirty, fun _ hl => (by cases hl)⟩
  | dirty at_ dirty inner => exact ⟨h.faults, h.dirty, fun _ hl => (by cases hl)⟩
  | @read line address rest at_ head =>
      cases at_
      refine ⟨h.faults, fun _ => ?_, fun _ hl => (by cases hl)⟩
      refine h.dirty ?_
      have head : bpf.procMemCh = address :: rest := head
      simp [head]
  | noData at_ empty => exact ⟨h.faults, h.dirty, fun _ _ => empty⟩
  | @clean line at_ =>
      refine ⟨h.faults, fun hne => ?_, fun _ hl => (by cases hl)⟩
      exact absurd (h.drained line at_) hne
  | resume at_ => exact ⟨h.faults, h.dirty, fun _ hl => (by cases hl)⟩
  | stop at_ => exact ⟨fun hs => (by cases hs), h.dirty, fun _ hl => (by cases hl)⟩

/-! ## Every address is processed once, when its turn comes -/

/-- Stop `j` is the first at or after stop `k` that is not at the start of a function. -/
def FirstDrain (stops : List (Nat × CachedLine)) (k j : Nat) : Prop :=
  k ≤ j ∧ (∃ line, (j, line) ∈ stops ∧ line.funcFlag ≠ funcFlagStart) ∧
    ∀ st ∈ stops, k ≤ st.1 → st.1 < j → st.2.funcFlag = funcFlagStart

/-- Arrivals may wait for the stop after the current step; inside `process_breakpoint`
there are none, once the step is counted. -/
def MainPc.arriving : MainPc → Nat
  | .decide _ | .drain _ | .reset _ | .resume _ => 0
  | _ => 1

/-- The current step has drained the channel, or decided not to. -/
def MainPc.decided : MainPc → Nat
  | .decide _ | .drain _ | .reset _ => 0
  | _ => 1

/-- The addresses that arrived are those processed, each at the first stop that
drains the channel after its arrival, and behind them those in the channel, since
whose arrival no stop has drained it. -/
structure Accounted (s : System) : Prop where
  account : s.hist.processed.map Prod.fst ++ s.bpf.procMemCh = s.hist.arrived.map Prod.fst
  arrivals : ∀ a ∈ s.hist.arrived, a.2 ≤ s.tracer.stepId + s.main.arriving
  served : List.Forall₂ (fun a p => FirstDrain s.hist.stops a.2 p.2)
    (s.hist.arrived.take s.hist.processed.length) s.hist.processed
  pending : ∀ a ∈ s.hist.arrived.drop s.hist.processed.length, ∀ st ∈ s.hist.stops,
    a.2 ≤ st.1 → st.1 < s.tracer.stepId + s.main.decided → st.2.funcFlag = funcFlagStart

theorem accounted_start (mem : MemState) (tracer : Tracer) (memDirty : Bool) :
    Accounted (.start mem tracer memDirty) where
  account := rfl
  arrivals := fun _ h => by cases h
  served := .nil
  pending := fun _ h => by cases h

theorem Accounted.length_eq (h : Accounted s) :
    s.hist.processed.length + s.bpf.procMemCh.length = s.hist.arrived.length := by
  have := congrArg List.length h.account
  simpa using this

theorem Accounted.drop_eq_nil (h : Accounted s) (hempty : s.bpf.procMemCh = []) :
    s.hist.arrived.drop s.hist.processed.length = [] := by
  have := h.length_eq
  rw [hempty] at this
  exact List.drop_eq_nil_of_le (by simp at this; omega)

theorem FirstDrain.concat {stops : List (Nat × CachedLine)} {k j : Nat}
    (h : FirstDrain stops k j) {st : Nat × CachedLine} (hnew : ∀ x ∈ stops, x.1 ≤ st.1) :
    FirstDrain (stops ++ [st]) k j := by
  obtain ⟨hle, ⟨line, hmem, hinner⟩, hstart⟩ := h
  refine ⟨hle, ⟨line, List.mem_append_left _ hmem, hinner⟩, fun x hx hk hj => ?_⟩
  rcases List.mem_append.mp hx with hx | hx
  · exact hstart x hx hk hj
  · have hlast : j ≤ st.1 := hnew _ hmem
    rw [List.mem_singleton.mp hx] at hj
    omega

/-- The first address of the channel is processed at a stop that drains it. -/
theorem Accounted.read (h : Accounted s) {address : Nat} {rest : List Nat}
    (head : s.bpf.procMemCh = address :: rest) {line : CachedLine}
    (hline : (s.tracer.stepId, line) ∈ s.hist.stops) (inner : line.funcFlag ≠ funcFlagStart)
    (late : s.main.arriving = 0) (undecided : s.main.decided = 0) :
    ∃ k, s.hist.arrived.drop s.hist.processed.length =
        (address, k) :: s.hist.arrived.drop (s.hist.processed.length + 1) ∧
      s.hist.arrived.take (s.hist.processed.length + 1) =
        s.hist.arrived.take s.hist.processed.length ++ [(address, k)] ∧
      FirstDrain s.hist.stops k s.tracer.stepId := by
  have hlen := h.length_eq
  rw [head, List.length_cons] at hlen
  have hlt : s.hist.processed.length < s.hist.arrived.length := by omega
  have hget : (s.hist.arrived[s.hist.processed.length]).1 = address := by
    have := h.account
    rw [head] at this
    have hmap : (s.hist.arrived.map Prod.fst)[s.hist.processed.length]? = some address := by
      rw [← this, List.getElem?_append_right (by simp)]
      simp
    simpa [hlt] using hmap
  have hdrop := List.drop_eq_getElem_cons hlt
  generalize s.hist.arrived[s.hist.processed.length] = a at hget hdrop
  rcases a with ⟨address', k⟩
  obtain rfl : address' = address := hget
  have hmem : (address', k) ∈ s.hist.arrived.drop s.hist.processed.length := by
    rw [hdrop]
    exact List.mem_cons_self
  have hle := h.arrivals _ (List.mem_of_mem_drop hmem)
  rw [late] at hle
  refine ⟨k, hdrop, ?_, hle, ⟨line, hline, inner⟩, fun st hst hk hj => ?_⟩
  · rw [List.take_add, hdrop]
    rfl
  · exact h.pending _ hmem st hst hk (by rw [undecided]; exact hj)

theorem Accounted.step {first : Nat} (h : Accounted s) (hand : Handshake s)
    (num : Numbered first s) (del : Delivered s) (hstep : Step c s s') : Accounted s' := by
  rcases s with ⟨queue, callback, main, tracer, bpf, hist⟩
  cases hstep with
  | occur runs he => exact ⟨h.account, h.arrivals, h.served, h.pending⟩
  | hit line at_ =>
      cases at_
      have hold : ∀ st ∈ hist.stops, st.1 ≤ tracer.stepId + 1 := fun st hst =>
        Nat.le_succ_of_le (num.stop_le hst)
      refine ⟨h.account, h.arrivals, h.served.imp fun a p hp => hp.concat hold,
        fun a ha st hst hk hlt => ?_⟩
      rcases List.mem_append.mp hst with hst | hst
      · exact h.pending a ha st hst hk hlt
      · rw [List.mem_singleton.mp hst] at hlt
        have hlt : tracer.stepId + 1 < tracer.stepId + 1 := hlt
        omega
  | trap at_ => cases at_; exact ⟨h.account, h.arrivals, h.served, h.pending⟩
  | exit at_ => cases at_; exact ⟨h.account, h.arrivals, h.served, h.pending⟩
  | killed at_ => cases at_; exact ⟨h.account, h.arrivals, h.served, h.pending⟩
  | ignore at_ head stopped => exact ⟨h.account, h.arrivals, h.served, h.pending⟩
  | @write address rest at_ head run =>
      cases head
      have hlen : hist.processed.length ≤ hist.arrived.length := by
        have : hist.processed.length + bpf.procMemCh.length = hist.arrived.length := h.length_eq
        omega
      refine ⟨?_, fun a ha => ?_, ?_, fun a ha st hst hk hlt => ?_⟩
      · show hist.processed.map _ ++ (bpf.procMemCh ++ [address]) =
          (hist.arrived ++ [(address, tracer.stepId + 1)]).map _
        rw [List.map_append, ← List.append_assoc]
        exact congrArg (· ++ [address]) h.account
      · rcases List.mem_append.mp ha with ha | ha
        · exact h.arrivals a ha
        · -- no address arrives while `process_breakpoint` is at work
          have hlate : main.arriving = 1 := by
            cases main with
            | decide line => cases (hand.quiet rfl).1
            | drain line => cases (hand.quiet rfl).1
            | reset line => cases (hand.quiet rfl).1
            | resume line => cases (hand.quiet rfl).1
            | _ => rfl
          rw [List.mem_singleton.mp ha]
          show tracer.stepId + 1 ≤ tracer.stepId + main.arriving
          omega
      · show List.Forall₂ _ ((hist.arrived ++ [(address, tracer.stepId + 1)]).take _) _
        rw [List.take_append_of_le_length hlen]
        exact h.served
      · have ha : a ∈ (hist.arrived ++ [(address, tracer.stepId + 1)]).drop
          hist.processed.length := ha
        rw [List.drop_append_of_le_length hlen] at ha
        rcases List.mem_append.mp ha with ha | ha
        · exact h.pending a ha st hst hk hlt
        · rw [List.mem_singleton.mp ha] at hk
          have hk : tracer.stepId + 1 ≤ st.1 := hk
          have hlt : st.1 < tracer.stepId + main.decided := hlt
          have : main.decided ≤ 1 := by cases main <;> simp [MainPc.decided]
          omega
  | mark at_ => exact ⟨h.account, h.arrivals, h.served, h.pending⟩
  | post at_ head run off => exact ⟨h.account, h.arrivals, h.served, h.pending⟩
  | setCount at_ => exact ⟨h.account, h.arrivals, h.served, h.pending⟩
  | clearCount at_ head run on => exact ⟨h.account, h.arrivals, h.served, h.pending⟩
  | @other e rest at_ head run quiet =>
      obtain ⟨_, _, _, hch, _⟩ := bpfCallback_quiet c tracer.stepId bpf quiet
      refine ⟨?_, h.arrivals, h.served, h.pending⟩
      simp only [hch]
      exact h.account
  | continue_ at_ => cases at_; exact ⟨h.account, h.arrivals, h.served, h.pending⟩
  | semWait at_ posted => cases at_; exact ⟨h.account, h.arrivals, h.served, h.pending⟩
  | @enter line at_ =>
      cases at_
      have hid : (tracer.arrive line).stepId = tracer.stepId + 1 := tracer.arrive_stepId line
      refine ⟨h.account, fun a ha => ?_, ?_, fun a ha st hst hk hlt => ?_⟩
      · show a.2 ≤ (tracer.arrive line).stepId + 0
        rw [hid]
        exact h.arrivals a ha
      · exact h.served
      · refine h.pending a ha st hst hk ?_
        have hlt : st.1 < (tracer.arrive line).stepId + 0 := hlt
        rw [hid] at hlt
        exact hlt
  | @skip line at_ clean =>
      cases at_
      refine ⟨h.account, h.arrivals, h.served, fun a ha st hst hk hlt => ?_⟩
      have hlt : st.1 < tracer.stepId + 1 := hlt
      by_cases hstart : line.funcFlag = funcFlagStart
      · by_cases hcur : st.1 = tracer.stepId
        · rw [num.unique hst (num.line line rfl) hcur]
          exact hstart
        · have hbefore : st.1 < tracer.stepId + 0 := by omega
          exact h.pending a ha st hst hk hbefore
      · -- the channel is empty
        have hempty : bpf.procMemCh = [] := by
          by_contra hne
          rcases del.dirty hne with hd | hw
          · exact clean ⟨hd, hstart⟩
          · exact (hand.quiet rfl).2 hw
        have hnil : hist.arrived.drop hist.processed.length = [] := h.drop_eq_nil hempty
        rw [hnil] at ha
        cases ha
  | dirty at_ dirty inner => cases at_; exact ⟨h.account, h.arrivals, h.served, h.pending⟩
  | @read line address rest at_ head =>
      cases at_
      obtain ⟨k, hdrop, htake, hfirst⟩ := h.read head (num.line line rfl) (num.inner line rfl)
        rfl rfl
      refine ⟨?_, h.arrivals, ?_, fun a ha => h.pending a ?_⟩
      · have hold : hist.processed.map Prod.fst ++ bpf.procMemCh = _ := h.account
        have head : bpf.procMemCh = address :: rest := head
        rw [head] at hold
        show (hist.processed ++ [(address, tracer.stepId)]).map _ ++ rest = _
        simpa using hold
      · show List.Forall₂ _
          (hist.arrived.take (hist.processed ++ [(address, tracer.stepId)]).length)
          (hist.processed ++ [(address, tracer.stepId)])
        rw [List.length_append, List.length_singleton, htake]
        exact List.rel_append h.served (.cons hfirst .nil)
      · have ha : a ∈ hist.arrived.drop (hist.processed ++ [(address, tracer.stepId)]).length := ha
        rw [List.length_append, List.length_singleton] at ha
        rw [hdrop]
        exact List.mem_cons_of_mem _ ha
  | noData at_ empty => cases at_; exact ⟨h.account, h.arrivals, h.served, h.pending⟩
  | @clean line at_ =>
      cases at_
      have hnil : hist.arrived.drop hist.processed.length = [] :=
        h.drop_eq_nil (del.drained line rfl)
      refine ⟨h.account, h.arrivals, h.served, fun a ha => ?_⟩
      rw [hnil] at ha
      cases ha
  | @resume line at_ =>
      cases at_
      have hid : (tracer.depart line).stepId = tracer.stepId := tracer.depart_stepId line
      refine ⟨h.account, fun a ha => ?_, h.served, fun a ha st hst hk hlt => ?_⟩
      · show a.2 ≤ (tracer.depart line).stepId + 1
        rw [hid]
        exact Nat.le_succ_of_le (h.arrivals a ha)
      · refine h.pending a ha st hst hk ?_
        have hlt : st.1 < (tracer.depart line).stepId + 1 := hlt
        rw [hid] at hlt
        exact hlt
  | stop at_ => cases at_; exact ⟨h.account, h.arrivals, h.served, h.pending⟩

end

/-! ## Every interleaving -/

/-- What holds between the two threads.  Inside `process_breakpoint` all faults of the
client have arrived in the channel, and a channel that is not empty is announced by
`mem_dirty`.  The stops are the steps behind `first`, one after the other, each posted
once; only the post of a stop the main loop waits to hear of may be outstanding.  The
addresses are processed in the order of their arrival, each at the first stop from
its arrival on that drains the channel, and those still in the channel have seen no
such stop; behind a stop that drains the channel there are none. -/
structure FaultsProcessed (first : Nat) (s : System) : Prop where
  arrived : s.main.inBreakpoint = true →
    s.queue = [] ∧ s.hist.arrived.map Prod.fst = s.hist.faults
  announced : s.main.inBreakpoint = true → s.bpf.procMemCh ≠ [] → s.bpf.memDirty = true
  stops : ∃ n, s.hist.stops.map Prod.fst = List.range' (first + 1) n
  posted : s.hist.posts = s.hist.stops.map Prod.fst ∨
    (∃ line, s.main = .waitSem line) ∧ s.bpf.bpfSem = 0 ∧
      s.hist.posts ++ [s.nextStep] = s.hist.stops.map Prod.fst
  account : s.hist.processed.map Prod.fst ++ s.bpf.procMemCh = s.hist.arrived.map Prod.fst
  served : List.Forall₂ (fun a p => FirstDrain s.hist.stops a.2 p.2)
    (s.hist.arrived.take s.hist.processed.length) s.hist.processed
  pending : ∀ a ∈ s.hist.arrived.drop s.hist.processed.length, ∀ st ∈ s.hist.stops,
    a.2 ≤ st.1 → st.1 < s.tracer.stepId + s.main.decided → st.2.funcFlag = funcFlagStart
  emptied : ∀ line, s.main = .resume line → line.funcFlag ≠ funcFlagStart →
    s.hist.processed.map Prod.fst = s.hist.faults

/-- The invariants of the two threads. -/
structure Protocol (first : Nat) (s : System) : Prop where
  hand : Handshake s
  numbered : Numbered first s
  delivered : Delivered s
  accounted : Accounted s

theorem protocol_start (mem : MemState) (tracer : Tracer) (memDirty : Bool) :
    Protocol tracer.stepId (.start mem tracer memDirty) :=
  ⟨handshake_start mem tracer memDirty, numbered_start mem tracer memDirty,
   delivered_start mem tracer memDirty, accounted_start mem tracer memDirty⟩

theorem Protocol.step {c : Client} {first : Nat} {s s' : System} (h : Protocol first s)
    (hstep : Step c s s') : Protocol first s' :=
  ⟨h.hand.step hstep, h.numbered.step h.hand hstep, h.delivered.step h.hand hstep,
   h.accounted.step h.hand h.numbered h.delivered hstep⟩

theorem Protocol.channel_nil {first : Nat} {s : System} (h : Protocol first s)
    {line : CachedLine} (hmain : s.main = .resume line) (inner : line.funcFlag ≠ funcFlagStart) :
    s.bpf.procMemCh = [] := by
  have hdrop : s.hist.arrived.drop s.hist.processed.length = [] := by
    refine List.eq_nil_iff_forall_not_mem.mpr fun a ha => inner ?_
    have hline := h.numbered.line line (by rw [hmain]; rfl)
    have hle := h.accounted.arrivals a (List.mem_of_mem_drop ha)
    have hpending := h.accounted.pending a ha _ hline
    rw [hmain] at hle hpending
    exact hpending hle (Nat.lt_succ_self _)
  have hlen := h.accounted.length_eq
  have := List.drop_eq_nil_iff.mp hdrop
  exact List.eq_nil_of_length_eq_zero (by omega)

/-- Inside `process_breakpoint` every fault of the client has arrived in the channel. -/
theorem Protocol.arrived {first : Nat} {s : System} (h : Protocol first s)
    (hin : s.main.inBreakpoint = true) :
    s.queue = [] ∧ s.hist.arrived.map Prod.fst = s.hist.faults := by
  have hquiet := (h.hand.quiet hin).1
  have hrun : s.bpf.stop = false := h.hand.running rfl fun hmain => by
    rw [hmain] at hin
    cases hin
  have hfaults := h.delivered.faults hrun
  rw [hquiet, List.filterMap_nil, List.append_nil] at hfaults
  exact ⟨hquiet, hfaults.symm⟩

theorem Protocol.faultsProcessed {first : Nat} {s : System} (h : Protocol first s) :
    FaultsProcessed first s where
  arrived := h.arrived
  announced := fun hin hne => (h.delivered.dirty hne).resolve_right (h.hand.quiet hin).2
  stops := ⟨_, h.numbered.stops⟩
  posted := by
    have hposts := h.numbered.posts
    by_cases hdue : s.main.awaits - s.bpf.bpfSem = 0
    · rw [hdue] at hposts
      exact Or.inl (by simpa using hposts.symm)
    · cases hmain : s.main with
      | waitSem line =>
          rw [hmain] at hposts hdue
          have hsem : s.bpf.bpfSem = 0 := by
            have : 1 - s.bpf.bpfSem ≠ 0 := hdue
            omega
          rw [hsem] at hposts
          exact Or.inr ⟨⟨line, rfl⟩, hsem, hposts.symm⟩
      | _ => simp [hmain, MainPc.awaits] at hdue
  account := h.accounted.account
  served := h.accounted.served
  pending := h.accounted.pending
  emptied := fun line hmain inner => by
    have hin : s.main.inBreakpoint = true := by rw [hmain]; rfl
    have haccount := h.accounted.account
    rw [h.channel_nil hmain inner, List.append_nil] at haccount
    exact haccount.trans (h.arrived hin).2

/-- **No fault is lost or processed twice**, in whatever order the client, the
callback and the main loop take their actions. -/
theorem reachable_faultsProcessed {c : Client} {mem : MemState} {tracer : Tracer}
    {memDirty : Bool} {s : System} (h : Reachable c mem tracer memDirty s) :
    FaultsProcessed tracer.stepId s := by
  refine Protocol.faultsProcessed ?_
  induction h with
  | refl => exact protocol_start mem tracer memDirty
  | tail _ hstep ih => exact ih.step hstep

/-- A fault on the way to a line inside a function is processed at this stop. -/
theorem reachable_faultsProcessed_oneFault :
    ∃ s, Reachable unreadableClient .init ⟨1, 1, 1⟩ true s ∧
      s.hist.processed = [(0x5000, 2)] ∧ FaultsProcessed 1 s := by
  have run : Reachable unreadableClient .init ⟨1, 1, 1⟩ true _ :=
    Relation.ReflTransGen.refl
      |>.tail (.continue_ rfl)
      |>.tail (.occur (Or.inl rfl) (rfl : (BpfEvent.pagefault 0x5000).isTrap = false))
      |>.tail (.hit ⟨0x1004, 1, 0⟩ rfl)
      |>.tail (.write rfl rfl rfl)
      |>.tail (.mark rfl)
      |>.tail (.post rfl rfl rfl rfl)
      |>.tail (.semWait rfl (by decide))
      |>.tail (.enter rfl)
      |>.tail (.dirty rfl rfl (by decide))
      |>.tail (.read rfl rfl)
  exact ⟨_, run, rfl, reachable_faultsProcessed run⟩

end FlightRec
