/-
# `FlightRec.Record.FaultProgress` — the two threads get through

What is left to do when the client does nothing more: the callback takes the events
that are in the queue, and the main loop goes on to where it waits for the client
(`MainPc.settles`).  A step of one of them (`Serve`) leaves less to do
(`Serve.toDo_lt`), and either the callback has an event to take, or the main loop is
not waiting in vain: if it waits for the semaphore with nothing in the queue, the
semaphore was posted, which is the handshake of the `SIGTRAP`s (`Handshake.serves`).

So whatever the client did, and whatever the order in which the threads are run, they
settle after a number of steps that the queue and the channel bound, always at the
same place (`threads_settle`).
-/
import FlightRec.Lib.Completion
import FlightRec.Record.FaultProtocol

namespace FlightRec

open Completion Toggle

/-! ## Steps that are not the client's -/

/-- The client has raised an event, or has come to a stop or to its end. -/
def System.ClientActs (s s' : System) : Prop :=
  s.main.clientRuns ∧ (s'.main ≠ s.main ∨ s.queue.length < s'.queue.length)

/-- One action of the callback or of the main loop. -/
def Serve (c : Client) (s s' : System) : Prop := Step c s s' ∧ ¬ s.ClientActs s'

section
variable {c : Client} {s s' : System}

theorem Serve.callback (hstep : Step c s s') (main : s'.main = s.main)
    (queue : s'.queue.length ≤ s.queue.length) : Serve c s s' :=
  ⟨hstep, fun h => h.2.elim (fun hne => hne main) (Nat.not_lt.mpr queue)⟩

theorem Serve.main (hstep : Step c s s') {pc : MainPc} (at_ : s.main = pc)
    (hstop : pc ≠ .waitStop) (htrap : pc ≠ .waitTrap) : Serve c s s' := by
  refine ⟨hstep, fun h => ?_⟩
  rcases h.1 with hmain | hmain
  · exact hstop (at_.symm.trans hmain)
  · exact htrap (at_.symm.trans hmain)

end

/-! ## What is left to do -/

/-- The actions of the callback on an event, and of the main loop on its address. -/
def BpfEvent.toDo (e : BpfEvent) : Nat :=
  match e.fault? with
  | some _ => 3
  | none => if e.isTrap then 2 else 1

/-- What the callback has still to do with the event it has taken. -/
def BpfPc.toDo : BpfPc → Nat
  | .idle => 0
  | .written => 1
  | .posted => 1

/-- The actions of the main loop until it waits for the client, but for the reads. -/
def MainPc.toDo : MainPc → Nat
  | .waitSem _ => 6
  | .enter _ => 5
  | .decide _ => 4
  | .drain _ => 3
  | .reset _ => 2
  | .resume _ => 1
  | .cont => 1
  | .leave => 1
  | .waitStop | .waitTrap | .finished | .failed => 0

/-- What the events in the queue still take. -/
def queueToDo : List BpfEvent → Nat
  | [] => 0
  | e :: rest => e.toDo + queueToDo rest

def System.toDo (s : System) : Nat :=
  queueToDo s.queue + s.callback.toDo + s.bpf.procMemCh.length + s.main.toDo

/-- Where the main loop comes to wait for the client, or to its end. -/
def MainPc.settles (tracer : Tracer) : MainPc → MainPc × Tracer
  | .waitSem line | .enter line => (.waitTrap, (tracer.arrive line).depart line)
  | .decide line | .drain line | .reset line | .resume line => (.waitTrap, tracer.depart line)
  | .cont => (.waitStop, tracer)
  | .leave => (.finished, tracer)
  | pc => (pc, tracer)

def System.settles (s : System) : MainPc × Tracer := s.main.settles s.tracer

section
variable {c : Client} {s s' : System}

theorem BpfEvent.toDo_pos (e : BpfEvent) : 0 < e.toDo := by
  unfold BpfEvent.toDo
  split
  · exact Nat.succ_pos 2
  · split <;> exact Nat.succ_pos _

theorem BpfEvent.toDo_le (e : BpfEvent) : e.toDo ≤ 3 := by
  unfold BpfEvent.toDo
  split
  · exact Nat.le_refl 3
  · split
    · exact Nat.le_succ 2
    · exact Nat.le_add_left 1 2

theorem queueToDo_le (queue : List BpfEvent) : queueToDo queue ≤ 3 * queue.length := by
  induction queue with
  | nil => exact Nat.le_refl 0
  | cons e rest ih =>
      have hle := e.toDo_le
      rw [queueToDo, List.length_cons]
      omega

theorem System.toDo_le (s : System) :
    s.toDo ≤ 3 * s.queue.length + s.bpf.procMemCh.length + 7 := by
  have hqueue := queueToDo_le s.queue
  have hcallback : s.callback.toDo ≤ 1 := by cases s.callback <;> decide
  have hmain : s.main.toDo ≤ 6 := by cases s.main <;> simp [MainPc.toDo]
  unfold System.toDo
  omega

theorem Serve.toDo_lt (h : Serve c s s') : s'.toDo < s.toDo ∧ s'.settles = s.settles := by
  obtain ⟨hstep, hserve⟩ := h
  rcases s with ⟨queue, callback, main, tracer, bpf, hist⟩
  cases hstep with
  | occur runs he =>
      refine absurd ⟨runs, Or.inr ?_⟩ hserve
      simp
  | hit line at_ =>
      cases at_
      exact absurd ⟨Or.inl rfl, Or.inl (fun h => by cases h)⟩ hserve
  | trap at_ =>
      cases at_
      exact absurd ⟨Or.inr rfl, Or.inl (fun h => by cases h)⟩ hserve
  | exit at_ =>
      cases at_
      exact absurd ⟨Or.inl rfl, Or.inl (fun h => by cases h)⟩ hserve
  | killed at_ =>
      cases at_
      exact absurd ⟨Or.inr rfl, Or.inl (fun h => by cases h)⟩ hserve
  | @ignore e rest at_ head stopped =>
      cases head
      have hpos := e.toDo_pos
      refine ⟨?_, rfl⟩
      simp only [System.toDo, queueToDo]
      omega
  | @write address rest at_ head running =>
      cases at_
      cases head
      refine ⟨?_, rfl⟩
      simp only [System.toDo, queueToDo, BpfEvent.toDo, fault?_pagefault, BpfPc.toDo,
        List.length_append, List.length_singleton]
      omega
  | mark at_ =>
      cases at_
      refine ⟨?_, rfl⟩
      simp only [System.toDo, BpfPc.toDo]
      omega
  | @post rest at_ head running first =>
      cases at_
      cases head
      refine ⟨?_, rfl⟩
      simp only [System.toDo, queueToDo, BpfEvent.toDo, fault?_signal, isTrap_sigtrap,
        if_true, BpfPc.toDo]
      omega
  | setCount at_ =>
      cases at_
      refine ⟨?_, rfl⟩
      simp only [System.toDo, BpfPc.toDo]
      omega
  | @clearCount rest at_ head running second =>
      cases head
      have hpos := (BpfEvent.signal sigtrap).toDo_pos
      refine ⟨?_, rfl⟩
      simp only [System.toDo, queueToDo]
      omega
  | @other e rest at_ head running quiet =>
      cases head
      have hpos := e.toDo_pos
      have hch := (bpfCallback_quiet c tracer.stepId bpf quiet).2.2.2.1
      refine ⟨?_, rfl⟩
      simp only [System.toDo, queueToDo, hch]
      omega
  | continue_ at_ => cases at_; exact ⟨Nat.lt_succ_self _, rfl⟩
  | semWait at_ posted => cases at_; exact ⟨Nat.lt_succ_self _, rfl⟩
  | enter at_ => cases at_; exact ⟨Nat.lt_succ_self _, rfl⟩
  | skip at_ clean =>
      cases at_
      refine ⟨?_, rfl⟩
      simp only [System.toDo, MainPc.toDo]
      omega
  | dirty at_ dirty inner => cases at_; exact ⟨Nat.lt_succ_self _, rfl⟩
  | @read line address rest at_ head =>
      have hlength := congrArg List.length head
      simp only [List.length_cons] at hlength
      refine ⟨?_, rfl⟩
      simp only [System.toDo, hlength]
      omega
  | noData at_ empty => cases at_; exact ⟨Nat.lt_succ_self _, rfl⟩
  | clean at_ => cases at_; exact ⟨Nat.lt_succ_self _, rfl⟩
  | resume at_ => cases at_; exact ⟨Nat.lt_succ_self _, rfl⟩
  | stop at_ => cases at_; exact ⟨Nat.lt_succ_self _, rfl⟩

/-! ## Nobody waits in vain -/

theorem callback_serves (h : s.callback ≠ .idle ∨ s.queue ≠ []) : ∃ s', Serve c s s' := by
  cases hat : s.callback with
  | written => exact ⟨_, .callback (.mark hat) rfl (Nat.le_refl _)⟩
  | posted => exact ⟨_, .callback (.setCount hat) rfl (Nat.le_refl _)⟩
  | idle =>
      obtain ⟨e, rest, head⟩ := List.exists_cons_of_ne_nil (h.resolve_left fun hne => hne hat)
      have hle : rest.length ≤ s.queue.length := by
        rw [head]
        exact Nat.le_succ _
      cases hstop : s.bpf.stop with
      | true => exact ⟨_, .callback (.ignore hat head hstop) rfl hle⟩
      | false =>
          by_cases quiet : e.isQuiet = true
          · exact ⟨_, .callback (.other hat head hstop quiet) rfl hle⟩
          · -- a page fault, or a `SIGTRAP` that counts or does not
            cases e with
            | pagefault address => exact ⟨_, .callback (.write hat head hstop) rfl hle⟩
            | signal signum =>
                by_cases htrap : signum = sigtrap
                · subst htrap
                  cases hcount : s.bpf.count with
                  | false => exact ⟨_, .callback (.post hat head hstop hcount) rfl hle⟩
                  | true => exact ⟨_, .callback (.clearCount hat head hstop hcount) rfl hle⟩
                · exact absurd (by simp [BpfEvent.isQuiet, BpfEvent.isTrap, htrap]) quiet
            | mmapEntry size => exact absurd rfl quiet
            | mmapExit address => exact absurd rfl quiet
            | munmap address => exact absurd rfl quiet
            | brk address => exact absurd rfl quiet
            | unknown type => exact absurd rfl quiet

/-- The main loop waits for the client, or has come to its end. -/
def MainPc.AtRest (pc : MainPc) : Prop :=
  pc = .waitStop ∨ pc = .waitTrap ∨ pc = .finished ∨ pc = .failed

/-- With nothing left in the queue the main loop is at rest or goes on; the semaphore it
waits for has been posted. -/
theorem Handshake.serves (h : Handshake s) (hqueue : s.queue = []) :
    s.main.AtRest ∨ ∃ s', Serve c s s' := by
  cases hat : s.main with
  | cont => exact .inr ⟨_, .main (.continue_ hat) hat (by simp) (by simp)⟩
  | waitStop => exact .inl (.inl rfl)
  | waitSem line =>
      have hposts := h.posts (h.running hat (by simp))
      rw [hqueue, hat, rises_nil, Nat.zero_add] at hposts
      have posted : 0 < s.bpf.bpfSem := hposts ▸ Nat.one_pos
      exact .inr ⟨_, .main (.semWait hat posted) hat (by simp) (by simp)⟩
  | enter line => exact .inr ⟨_, .main (.enter hat) hat (by simp) (by simp)⟩
  | decide line =>
      by_cases hdirty : s.bpf.memDirty = true ∧ line.funcFlag ≠ funcFlagStart
      · exact .inr ⟨_, .main (.dirty hat hdirty.1 hdirty.2) hat (by simp) (by simp)⟩
      · exact .inr ⟨_, .main (.skip hat hdirty) hat (by simp) (by simp)⟩
  | drain line =>
      cases hch : s.bpf.procMemCh with
      | nil => exact .inr ⟨_, .main (.noData hat hch) hat (by simp) (by simp)⟩
      | cons address rest => exact .inr ⟨_, .main (.read hat hch) hat (by simp) (by simp)⟩
  | reset line => exact .inr ⟨_, .main (.clean hat) hat (by simp) (by simp)⟩
  | resume line => exact .inr ⟨_, .main (.resume hat) hat (by simp) (by simp)⟩
  | waitTrap => exact .inl (.inr (.inl rfl))
  | leave => exact .inr ⟨_, .main (.stop hat) hat (by simp) (by simp)⟩
  | finished => exact .inl (.inr (.inr (.inl rfl)))
  | failed => exact .inl (.inr (.inr (.inr rfl)))

/-- What is reached from `s` when the client does nothing more: the main loop is where
it was bound to come, all events were taken, and no post of the semaphore is left over. -/
structure Settled (s t : System) : Prop where
  place : (t.main, t.tracer) = s.settles
  queue : t.queue = []
  callback : t.callback = .idle
  sem : t.bpf.stop = false → t.bpf.bpfSem = 0

theorem Handshake.settled (h : Handshake s') (hplace : s'.settles = s.settles)
    (hstuck : ∀ u, ¬ Serve c s' u) : Settled s s' := by
  have hdone : ¬ (s'.callback ≠ .idle ∨ s'.queue ≠ []) := by
    intro hmore
    obtain ⟨u, hu⟩ := callback_serves (c := c) hmore
    exact hstuck u hu
  obtain ⟨hidle, hqueue⟩ := not_or.mp hdone
  have hidle := not_not.mp hidle
  have hqueue := not_not.mp hqueue
  have hrest : s'.main.AtRest := by
    rcases h.serves (c := c) hqueue with hrest | ⟨u, hu⟩
    · exact hrest
    · exact absurd hu (hstuck u)
  have hsettles : s'.settles = (s'.main, s'.tracer) := by
    unfold System.settles
    rcases hrest with hpc | hpc | hpc | hpc <;> rw [hpc] <;> rfl
  refine ⟨hsettles.symm.trans hplace, hqueue, hidle, fun hstop => ?_⟩
  have hposts := h.posts hstop
  have hawaits : s'.main.awaits = 0 := by
    rcases hrest with hpc | hpc | hpc | hpc <;> rw [hpc] <;> rfl
  rwa [hqueue, rises_nil, Nat.zero_add, hawaits] at hposts

theorem serve_winds (c : Client) (s : System) :
    Winds (Serve c) (fun t => Handshake t ∧ t.settles = s.settles) System.toDo where
  keeps := fun ⟨hand, hplace⟩ h => ⟨hand.step h.1, h.toDo_lt.2.trans hplace⟩
  uses := fun _ h => h.toDo_lt.1

end

theorem reachable_handshake {c : Client} {mem : MemState} {tracer : Tracer} {memDirty : Bool}
    {s : System} (h : Reachable c mem tracer memDirty s) : Handshake s := by
  induction h with
  | refl => exact handshake_start mem tracer memDirty
  | tail _ hstep ih => exact ih.step hstep

/-- **The threads settle.**  In every state that the client and the two threads reach,
the threads without the client take at most three steps for an event in the queue, one for
an address in the channel, and seven; wherever they have got, they can go on until they
settle, and they stop nowhere else: where the main loop waits for the client, or for its
single instruction, or is out of its loop.  So it never waits in vain for the semaphore, and
a stop of the client always becomes a step. -/
theorem threads_settle {c : Client} {mem : MemState} {tracer : Tracer} {memDirty : Bool}
    {s t : System} {n : Nat} (h : Reachable c mem tracer memDirty s)
    (run : Completion.Run (Serve c) s n t) :
    n ≤ 3 * s.queue.length + s.bpf.procMemCh.length + 7 ∧
      (∃ m u, Completion.Run (Serve c) t m u ∧ Settled s u) ∧
      ((∀ u, ¬ Serve c t u) → Settled s t) := by
  have hs : Handshake s ∧ s.settles = s.settles := ⟨reachable_handshake h, rfl⟩
  have winds := serve_winds c s
  obtain ⟨⟨hand, hplace⟩, -⟩ := winds.run hs run
  refine ⟨Nat.le_trans (winds.run_le hs run) s.toDo_le, ?_, hand.settled hplace⟩
  obtain ⟨m, u, hrun, ⟨hu, huplace⟩, hend⟩ := winds.completes ⟨hand, hplace⟩
  exact ⟨m, u, hrun, hu.settled huplace hend⟩

theorem threads_settle_stop :
    ∃ s, Reachable unreadableClient .init ⟨1, 1, 1⟩ true s ∧ s.main = .waitSem ⟨0x1004, 1, 0⟩ ∧
      ∃ m u, Completion.Run (Serve unreadableClient) s m u ∧ u.main = .waitTrap ∧
        u.tracer.stepId = 2 := by
  have run : Reachable unreadableClient .init ⟨1, 1, 1⟩ true _ :=
    .tail (.tail .refl (.continue_ rfl)) (.hit ⟨0x1004, 1, 0⟩ rfl)
  obtain ⟨-, ⟨m, u, hrun, hsettled⟩, -⟩ := threads_settle run .refl
  have htracer : u.tracer = (Tracer.arrive ⟨1, 1, 1⟩ ⟨0x1004, 1, 0⟩).depart ⟨0x1004, 1, 0⟩ :=
    congrArg Prod.snd hsettled.place
  refine ⟨_, run, rfl, m, u, hrun, congrArg Prod.fst hsettled.place, ?_⟩
  rw [htracer, Tracer.depart_stepId, Tracer.arrive_stepId]

end FlightRec
