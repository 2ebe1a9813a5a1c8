/-
# `FlightRec.Record.ResetDirty` — the thread that clears the soft-dirty flags

`process_breakpoint` triggers the thread as early as it can and waits for it before the
client goes on; in between the thread writes the command '4' to `clear_refs`.  The two
semaphores keep the threads in step over any number of pairs, whatever the scheduling
(`reachable_paired`).

The stream is not flushed behind the command but rewound before the next one.  So when a
wait returns, its own command is still in the buffer, and the kernel has received one
command less than there were waits (`wait_reset_dirty_late`).
-/
import FlightRec.Lib.OutStream
import Mathlib.Logic.Relation

namespace FlightRec

open Relation

/-- The recorder is outside of a pair, or between trigger and wait. -/
inductive TriggerPc where
  | between
  | triggered
  deriving DecidableEq, Repr

/-- Where the thread is in its loop: the call it makes next. -/
inductive ResetPc where
  | semWait
  | rewind
  | fwrite
  | semPost
  deriving DecidableEq, Repr

/-- Both threads, the semaphores and the stream; the last three fields count what has
happened and are read by none. -/
structure ResetSystem where
  main : TriggerPc
  thread : ResetPc
  startSem : Nat
  endSem : Nat
  clearRefs : OutStream Char
  triggers : Nat
  rounds : Nat
  waits : Nat
  deriving DecidableEq, Repr

/-- `start_reset_dirty`. -/
def ResetSystem.start : ResetSystem where
  main := .between
  thread := .semWait
  startSem := 0
  endSem := 0
  clearRefs := .empty
  triggers := 0
  rounds := 0
  waits := 0

/-- The command that resets soft-dirty bits. -/
def clearCommand : List Char := ['4']

/-- One action of the recorder or of the thread. -/
inductive ResetStep : ResetSystem → ResetSystem → Prop
  -- `trigger_reset_dirty` and `wait_reset_dirty`
  | trigger {s : ResetSystem} (at_ : s.main = .between) :
      ResetStep s { s with
        main := .triggered, startSem := s.startSem + 1, triggers := s.triggers + 1 }
  | wait {s : ResetSystem} (at_ : s.main = .triggered) (posted : 0 < s.endSem) :
      ResetStep s { s with main := .between, endSem := s.endSem - 1, waits := s.waits + 1 }
  -- `reset_dirty`
  | semWait {s : ResetSystem} (at_ : s.thread = .semWait) (posted : 0 < s.startSem) :
      ResetStep s { s with thread := .rewind, startSem := s.startSem - 1 }
  | rewind {s : ResetSystem} (at_ : s.thread = .rewind) :
      ResetStep s { s with thread := .fwrite, clearRefs := s.clearRefs.flush }
  | fwrite {s : ResetSystem} (at_ : s.thread = .fwrite) :
      ResetStep s { s with thread := .semPost, clearRefs := s.clearRefs.write clearCommand }
  | semPost {s : ResetSystem} (at_ : s.thread = .semPost) :
      ResetStep s { s with thread := .semWait, endSem := s.endSem + 1, rounds := s.rounds + 1 }

/-- What the two threads can reach, in any scheduling. -/
def ResetReachable (s : ResetSystem) : Prop := ReflTransGen ResetStep .start s

/-- The complete commands that the kernel has received through `clear_refs`. -/
def ResetSystem.commands (s : ResetSystem) : Nat := s.clearRefs.received.count clearCommand

/-! ## In step -/

/-- A trigger whose wait has not returned. -/
def TriggerPc.pending : TriggerPc → Nat
  | .between => 0
  | .triggered => 1

/-- A round that is started and not finished. -/
def ResetPc.busy : ResetPc → Nat
  | .semWait => 0
  | .rewind | .fwrite | .semPost => 1

/-- The stream when the thread has finished `n` rounds. -/
def ResetPc.stream (n : Nat) : ResetPc → OutStream Char
  | .semWait | .rewind => .late clearCommand n
  | .fwrite => (OutStream.late clearCommand n).flush
  | .semPost => .late clearCommand (n + 1)

/-- A trigger is on its way to the thread, or its round is running, or the end of the round
is on its way back; and there is at most one. -/
structure Paired (s : ResetSystem) : Prop where
  triggers : s.triggers = s.waits + s.main.pending
  single : s.startSem + s.thread.busy + s.endSem = s.main.pending
  rounds : s.rounds = s.waits + s.endSem
  stream : s.clearRefs = s.thread.stream s.rounds

theorem paired_start : Paired .start := ⟨rfl, rfl, rfl, rfl⟩

theorem Paired.step {s s' : ResetSystem} (h : Paired s) (hstep : ResetStep s s') : Paired s' := by
  obtain ⟨htriggers, hsingle, hrounds, hstream⟩ := h
  cases hstep with
  | trigger at_ =>
      rw [at_] at htriggers hsingle
      refine ⟨?_, ?_, hrounds, hstream⟩
      · show s.triggers + 1 = s.waits + 1
        rw [htriggers]
        rfl
      · show s.startSem + 1 + s.thread.busy + s.endSem = 1
        simp only [TriggerPc.pending] at hsingle
        omega
  | wait at_ posted =>
      rw [at_] at htriggers hsingle
      simp only [TriggerPc.pending] at htriggers hsingle
      refine ⟨?_, ?_, ?_, hstream⟩
      · show s.triggers = s.waits + 1 + 0
        omega
      · show s.startSem + s.thread.busy + (s.endSem - 1) = 0
        omega
      · show s.rounds = s.waits + 1 + (s.endSem - 1)
        omega
  | semWait at_ posted =>
      rw [at_] at hsingle hstream
      simp only [ResetPc.busy] at hsingle
      refine ⟨htriggers, ?_, hrounds, hstream⟩
      show s.startSem - 1 + 1 + s.endSem = s.main.pending
      omega
  | rewind at_ =>
      rw [at_] at hsingle hstream
      refine ⟨htriggers, hsingle, hrounds, ?_⟩
      show s.clearRefs.flush = _
      rw [hstream]
      rfl
  | fwrite at_ =>
      rw [at_] at hsingle hstream
      refine ⟨htriggers, hsingle, hrounds, ?_⟩
      show s.clearRefs.write clearCommand = _
      rw [hstream]
      rfl
  | semPost at_ =>
      rw [at_] at hsingle hstream
      simp only [ResetPc.busy] at hsingle
      refine ⟨htriggers, ?_, ?_, hstream⟩
      · show s.startSem + 0 + (s.endSem + 1) = s.main.pending
        omega
      · show s.rounds + 1 = s.waits + (s.endSem + 1)
        omega

/-- **In step**: in every state that any scheduling reaches. -/
theorem reachable_paired {s : ResetSystem} (h : ResetReachable s) : Paired s := by
  induction h with
  | refl => exact paired_start
  | tail _ hstep ih => exact ih.step hstep

theorem Paired.between {s : ResetSystem} (h : Paired s) (at_ : s.main = .between) :
    s.thread = .semWait ∧ s.startSem = 0 ∧ s.endSem = 0 ∧ s.rounds = s.waits ∧
      s.triggers = s.waits := by
  obtain ⟨htriggers, hsingle, hrounds, -⟩ := h
  rw [at_] at htriggers hsingle
  simp only [TriggerPc.pending] at htriggers hsingle
  have hthread : s.thread = .semWait := by
    cases hpc : s.thread with
    | semWait => rfl
    | rewind => rw [hpc, ResetPc.busy] at hsingle; omega
    | fwrite => rw [hpc, ResetPc.busy] at hsingle; omega
    | semPost => rw [hpc, ResetPc.busy] at hsingle; omega
  exact ⟨hthread, by omega, by omega, by omega, by omega⟩

/-- Every trigger is answered: the thread can finish the round and the wait return. -/
theorem ResetReachable.pair {s : ResetSystem} (h : ResetReachable s) (at_ : s.main = .between) :
    ∃ s₁ s₂, ResetReachable s₁ ∧ ResetStep s₁ s₂ ∧ s₂.main = .between ∧
      s₁.waits = s.waits ∧ s₂.waits = s.waits + 1 := by
  obtain ⟨hthread, hstart, hend, -⟩ := (reachable_paired h).between at_
  have h1 := h.tail (.trigger at_)
  have h2 := h1.tail (.semWait hthread (Nat.succ_pos _))
  have h3 := h2.tail (.rewind rfl)
  have h4 := h3.tail (.fwrite rfl)
  have h5 := h4.tail (.semPost rfl)
  exact ⟨_, _, h5, .wait rfl (Nat.succ_pos _), rfl, rfl, rfl⟩

/-! ## What the kernel has received -/

theorem count_late (n : Nat) :
    (OutStream.late clearCommand (n + 1)).received.count clearCommand = n := by
  have hcommand : clearCommand ≠ [] := List.cons_ne_nil _ _
  rw [OutStream.late_received hcommand, List.count_replicate_self]

/-- **One command behind.**  When a wait returns, the thread has finished one round for each
trigger, but the kernel has not received the command of the last one. -/
theorem wait_reset_dirty_late {s s' : ResetSystem} (h : ResetReachable s) (hstep : ResetStep s s')
    (returns : s'.waits = s.waits + 1) :
    ¬ s'.waits ≤ s'.commands ∧ s'.commands + 1 = s'.waits ∧ s'.rounds = s'.waits ∧
      s'.triggers = s'.waits := by
  have hpaired := (reachable_paired h).step hstep
  cases hstep with
  | wait at_ posted =>
      obtain ⟨hthread, -, -, hrounds, htriggers⟩ := hpaired.between rfl
      have hstream := hpaired.stream
      rw [hthread, hrounds] at hstream
      have hcommands : ResetSystem.commands
          { s with main := .between, endSem := s.endSem - 1, waits := s.waits + 1 } = s.waits := by
        unfold ResetSystem.commands
        rw [hstream]
        exact count_late s.waits
      exact ⟨by rw [hcommands]; exact Nat.not_succ_le_self _, by rw [hcommands], hrounds, htriggers⟩
  | _ => exact absurd returns (Nat.ne_of_lt (Nat.lt_succ_self _))

/-- The first wait. -/
theorem wait_reset_dirty_late_first :
    ∃ s, ResetReachable s ∧ s.main = .between ∧ s.waits = 1 ∧ s.commands + 1 = 1 := by
  obtain ⟨s₁, s₂, h, hstep, at_, h₁, h₂⟩ := ResetReachable.pair (s := .start) .refl rfl
  obtain ⟨-, hcommands, -⟩ := wait_reset_dirty_late h hstep (by rw [h₁, h₂])
  exact ⟨s₂, h.tail hstep, at_, h₂, by rw [hcommands, h₂]; rfl⟩

/-- One pair, the thread running through in between. -/
theorem reset_not_received : ¬ ∀ s s' : ResetSystem, ResetReachable s → ResetStep s s' →
    s'.waits = s.waits + 1 → s'.waits ≤ s'.commands := by
  intro h
  have h1 : ResetReachable _ := .single (ResetStep.trigger (s := .start) rfl)
  have h2 := h1.tail (.semWait rfl (by decide))
  have h3 := h2.tail (.rewind rfl)
  have h4 := h3.tail (.fwrite rfl)
  have h5 := h4.tail (.semPost rfl)
  exact absurd (h _ _ h5 (.wait rfl (by decide)) rfl) (by decide)

end FlightRec
