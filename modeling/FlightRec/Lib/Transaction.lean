/-
# `FlightRec.Lib.Transaction` — calls to a database, and transactions

A connection sees the committed contents of a database and, between `begin` and
`commit`, a working copy of its own; a statement that is executed outside of a
transaction is committed at once.  `begin` may be called in a transaction too, and does
nothing there; the end of a transaction must have one to end.  A call goes wrong where it
is out of place or the statement fails, and whenever the environment says so.  Every call
is kept in a log with how it went.

Code that goes on only after a call that went well is written with `orReturn`, or with
`orRollback` where it rolls back first.  If all calls in the log went well, such code
went on (`call_orReturn`, `call_orRollback`); and where the environment lets every call
through, it goes on after each that is in place (`call_quiet`).
-/
import Mathlib.Data.List.Basic

namespace FlightRec.Transaction

/-- The calls. -/
inductive Op where
  | begin
  | commit
  | rollback
  | execute
  deriving DecidableEq, Repr

/-- A connection to a database with contents `σ`. -/
structure Conn (σ : Type*) where
  /-- Nothing in the environment makes the `k`-th call go wrong. -/
  env : Nat → Bool
  committed : σ
  pending : Option σ
  log : List (Op × Bool)

variable {σ : Type*}

/-- A connection on which no call was made. -/
def Conn.open (env : Nat → Bool) (contents : σ) : Conn σ :=
  { env, committed := contents, pending := none, log := [] }

/-- All calls went well. -/
def Conn.Succeeded (c : Conn σ) : Prop := ∀ e ∈ c.log, e.2 = true

instance (c : Conn σ) : Decidable c.Succeeded := inferInstanceAs (Decidable (∀ e ∈ c.log, _))

/-- What a call returns, and the connection after it. -/
abbrev Called (σ : Type*) := Bool × Conn σ

/-- A call with its effect on the committed contents and on the working copy. -/
def Conn.call (c : Conn σ) (op : Op) (effect : Option (σ × Option σ)) : Called σ :=
  match c.env c.log.length, effect with
  | true, some (committed, pending) =>
      (true, { c with committed, pending, log := c.log ++ [(op, true)] })
  | _, _ => (false, { c with log := c.log ++ [(op, false)] })

/-- In a transaction nothing is left to do. -/
def Conn.begin (c : Conn σ) : Called σ :=
  c.call .begin (some (c.committed, some (c.pending.getD c.committed)))

def Conn.commit (c : Conn σ) : Called σ :=
  c.call .commit <| match c.pending with
    | some s => some (s, none)
    | none => none

def Conn.rollback (c : Conn σ) : Called σ :=
  c.call .rollback <| match c.pending with
    | some _ => some (c.committed, none)
    | none => none

/-- A statement, which fails where it has no result. -/
def Conn.execute (c : Conn σ) (f : σ → Option σ) : Called σ :=
  c.call .execute <| match c.pending with
    | some s => (f s).map fun s => (c.committed, some s)
    | none => (f c.committed).map fun s => (s, none)

/-- Goes on after a call that went well. -/
def Called.orReturn (r : Called σ) (next : Conn σ → Called σ) : Called σ :=
  if r.1 then next r.2 else r

/-- Goes on after a call that went well, and rolls back after another. -/
def Called.orRollback (r : Called σ) (next : Conn σ → Called σ) : Called σ :=
  if r.1 then next r.2 else (false, r.2.rollback.2)

/-- The beginnings and ends of transactions in a log. -/
def transactions (log : List (Op × Bool)) : List Op :=
  (log.map Prod.fst).filter fun op => op == .begin || op == .commit

/-! ## Calls that went well -/

variable {c : Conn σ} {op : Op} {effect : Option (σ × Option σ)} {next : Conn σ → Called σ}

@[simp] theorem transactions_concat (log : List (Op × Bool)) (op : Op) (b : Bool) :
    transactions (log ++ [(op, b)]) =
      transactions log ++ if op == .begin || op == .commit then [op] else [] := by
  unfold transactions
  rw [List.map_append, List.filter_append]
  cases op <;> rfl

/-- Later calls do not take a failed one back. -/
theorem call_log (c : Conn σ) (op : Op) (effect : Option (σ × Option σ)) :
    ∃ b, (c.call op effect).2.log = c.log ++ [(op, b)] := by
  unfold Conn.call
  split
  · exact ⟨true, rfl⟩
  · exact ⟨false, rfl⟩

theorem call_cases (c : Conn σ) (op : Op) (effect : Option (σ × Option σ)) :
    (∃ committed pending, effect = some (committed, pending) ∧ c.call op effect =
      (true, { c with committed, pending, log := c.log ++ [(op, true)] })) ∨
    (c.call op effect).1 = false ∧ (op, false) ∈ (c.call op effect).2.log := by
  unfold Conn.call
  split
  · exact Or.inl ⟨_, _, rfl, rfl⟩
  · exact Or.inr ⟨rfl, by simp⟩

theorem call_orReturn (h : ((c.call op effect).orReturn next).2.Succeeded) :
    ∃ committed pending, effect = some (committed, pending) ∧ (c.call op effect).orReturn next =
      next { c with committed, pending, log := c.log ++ [(op, true)] } := by
  unfold Called.orReturn at h ⊢
  rcases call_cases c op effect with ⟨committed, pending, heffect, hcall⟩ | ⟨hfail, hlog⟩
  · exact ⟨committed, pending, heffect, by rw [hcall]; rfl⟩
  · rw [hfail, if_neg (by simp)] at h
    cases h _ hlog

theorem call_orRollback (h : ((c.call op effect).orRollback next).2.Succeeded) :
    ∃ committed pending, effect = some (committed, pending) ∧
      (c.call op effect).orRollback next =
        next { c with committed, pending, log := c.log ++ [(op, true)] } := by
  unfold Called.orRollback at h ⊢
  rcases call_cases c op effect with ⟨committed, pending, heffect, hcall⟩ | ⟨hfail, hlog⟩
  · exact ⟨committed, pending, heffect, by rw [hcall]; rfl⟩
  · rw [hfail, if_neg (by simp)] at h
    have hmem : (op, false) ∈ ((c.call op effect).2.rollback).2.log := by
      obtain ⟨b, hrollback⟩ := call_log (c.call op effect).2 .rollback _
      rw [Conn.rollback, hrollback]
      exact List.mem_append_left _ hlog
    cases h _ hmem

theorem begin_orReturn (hout : c.pending = none) (h : (c.begin.orReturn next).2.Succeeded) :
    c.begin.orReturn next =
      next { c with pending := some c.committed, log := c.log ++ [(.begin, true)] } := by
  obtain ⟨_, _, heffect, hnext⟩ := call_orReturn h
  rw [hout] at heffect
  cases heffect
  exact hnext

theorem commit_orRollback {s : σ} (hin : c.pending = some s)
    (h : (c.commit.orRollback next).2.Succeeded) :
    c.commit.orRollback next =
      next { c with committed := s, pending := none, log := c.log ++ [(.commit, true)] } := by
  obtain ⟨_, _, heffect, hnext⟩ := call_orRollback h
  rw [hin] at heffect
  cases heffect
  exact hnext

theorem execute_orRollback {s : σ} {f : σ → Option σ} (hin : c.pending = some s)
    (h : ((c.execute f).orRollback next).2.Succeeded) :
    ∃ s', f s = some s' ∧ (c.execute f).orRollback next =
      next { c with pending := some s', log := c.log ++ [(.execute, true)] } := by
  obtain ⟨_, _, heffect, hnext⟩ := call_orRollback h
  rw [hin] at heffect
  obtain ⟨s', hf, hs⟩ := Option.map_eq_some_iff.mp heffect
  cases hs
  exact ⟨s', hf, hnext⟩

theorem execute_orReturn {f : σ → Option σ} (hout : c.pending = none)
    (h : ((c.execute f).orReturn next).2.Succeeded) :
    ∃ s', f c.committed = some s' ∧ (c.execute f).orReturn next =
      next { c with committed := s', pending := none, log := c.log ++ [(.execute, true)] } := by
  obtain ⟨_, _, heffect, hnext⟩ := call_orReturn h
  rw [hout] at heffect
  obtain ⟨_, hf, hs⟩ := Option.map_eq_some_iff.mp heffect
  cases hs
  exact ⟨_, hf, hnext⟩

/-! ## An environment that lets every call through -/

/-- Nothing in the environment goes wrong, and nothing went wrong so far. -/
structure Conn.Quiet (c : Conn σ) : Prop where
  env : ∀ k, c.env k = true
  succeeded : c.Succeeded

/-- A call that is in place has its effect, and was one more that went well. -/
theorem call_quiet {committed : σ} {pending : Option σ} (h : c.Quiet)
    (heffect : effect = some (committed, pending)) :
    c.call op effect =
        (true, { c with committed, pending, log := c.log ++ [(op, true)] }) ∧
      Conn.Quiet { c with committed, pending, log := c.log ++ [(op, true)] } := by
  refine ⟨?_, h.env, fun e he => ?_⟩
  · unfold Conn.call
    rw [h.env, heffect]
  · rcases List.mem_append.mp he with he | he
    · exact h.succeeded e he
    · rw [List.mem_singleton.mp he]

theorem begin_quiet (h : c.Quiet) :
    ∃ log, c.begin.orReturn next =
        next { c with pending := some (c.pending.getD c.committed), log } ∧
      Conn.Quiet { c with pending := some (c.pending.getD c.committed), log } := by
  obtain ⟨hcall, hquiet⟩ := @call_quiet _ c .begin _ c.committed _ h rfl
  exact ⟨_, by rw [Conn.begin, hcall]; rfl, hquiet⟩

theorem commit_quiet {s : σ} (hin : c.pending = some s) (h : c.Quiet) :
    ∃ log, c.commit.orRollback next = next { c with committed := s, pending := none, log } ∧
      Conn.Quiet { c with committed := s, pending := none, log } := by
  obtain ⟨hcall, hquiet⟩ := @call_quiet _ c .commit _ s none h rfl
  exact ⟨_, by rw [Conn.commit, hin, hcall]; rfl, hquiet⟩

theorem execute_quiet_in {s s' : σ} {f : σ → Option σ} (hin : c.pending = some s)
    (hf : f s = some s') (h : c.Quiet) :
    ∃ log, (c.execute f).orRollback next = next { c with pending := some s', log } ∧
      Conn.Quiet { c with pending := some s', log } := by
  obtain ⟨hcall, hquiet⟩ := @call_quiet _ c .execute _ c.committed (some s') h rfl
  refine ⟨_, ?_, hquiet⟩
  have heffect : c.execute f = c.call .execute (some (c.committed, some s')) := by
    rw [Conn.execute, hin]
    exact congrArg (c.call .execute ·) (congrArg (Option.map _) hf)
  rw [heffect, hcall]
  rfl

theorem execute_quiet_out {s' : σ} {f : σ → Option σ} (hout : c.pending = none)
    (hf : f c.committed = some s') (h : c.Quiet) :
    ∃ log, (c.execute f).orReturn next =
        next { c with committed := s', pending := none, log } ∧
      Conn.Quiet { c with committed := s', pending := none, log } := by
  obtain ⟨hcall, hquiet⟩ := @call_quiet _ c .execute _ s' none h rfl
  refine ⟨_, ?_, hquiet⟩
  have heffect : c.execute f = c.call .execute (some (s', none)) := by
    rw [Conn.execute, hout]
    exact congrArg (c.call .execute ·) (congrArg (Option.map _) hf)
  rw [heffect, hcall]
  rfl

end FlightRec.Transaction
