/-
# `FlightRec.Record.DbWorkers` — the threads that fill the database

Steps, heap events and memory segments are written to the database by three worker
threads, each from the messages of its channel (record/db_workers.c).  They differ in
what a message does to the table, and in that `heap` and `mem` are filled in databases
of their own and copied in the end.  The loop around it is the same (`insertWorker`):
a transaction is open all the time, is committed when `COMMIT_FREQ` messages were
written, and is opened again at once; the end of the stream commits the rest.

When all calls go well, the tables are what the messages say, whatever their number, and
transactions are begun and committed by turns.  `dab_begin` and `dab_commit` are never
called out of place: where nothing in the environment goes wrong, all calls go well but
for an `INSERT` or an index that meets a key twice (`workers_commit`).
-/
import FlightRec.Lib.Words
import FlightRec.Lib.Transaction
import FlightRec.Record.MemCache
import FlightRec.Schema

namespace FlightRec

open Transaction

/-! ## Messages and rows -/

/-- `struct insert_step_msg`, with the register file as its bytes. -/
structure StepMsg where
  stepId : Nat
  depth : Nat
  funcId : Nat
  address : Nat
  regs : List UInt8
  deriving DecidableEq, Repr

/-- `struct insert_heap_msg`; size 0 stands for a release. -/
structure HeapMsg where
  stepId : Nat
  address : Nat
  size : Nat
  deriving DecidableEq, Repr

/-- A row of `step` with its `regs`. -/
structure StepRecord extends StepRow where
  regs : List UInt8
  deriving DecidableEq, Repr

/-- `heap`: a block and when it was released, 0 for never. -/
structure HeapRow where
  address : Nat
  size : Nat
  allocatedAt : Nat
  freedAt : Nat
  deriving DecidableEq, Repr

/-- A table is its rows in the order they were inserted.  `main` is the table of the
worker's own database, `fr` its copy in that of the recording. -/
structure Copied (ρ : Type) where
  main : List ρ
  fr : Option (List ρ)
  deriving DecidableEq, Repr

def StepMsg.row (msg : StepMsg) : StepRecord :=
  { id := msg.stepId, address := msg.address, depth := toInt64 msg.depth,
    functionId := msg.funcId, regs := msg.regs }

/-! ## What a message does -/

/-- `INSERT INTO step`; `id` is the primary key. -/
def insertStep (msg : StepMsg) (rows : List StepRecord) : Option (List StepRecord) :=
  if msg.stepId ∈ rows.map (·.id) then none else some (rows ++ [msg.row])

/-- `INSERT INTO heap`, or `UPDATE heap` where the size is 0. -/
def applyHeap (rows : List HeapRow) (msg : HeapMsg) : List HeapRow :=
  if msg.size ≠ 0 then
    rows ++ [{ address := msg.address, size := msg.size, allocatedAt := msg.stepId, freedAt := 0 }]
  else
    rows.map fun r =>
      if r.address = msg.address ∧ r.freedAt = 0 then { r with freedAt := msg.stepId } else r

def execHeap (msg : HeapMsg) (t : Copied HeapRow) : Option (Copied HeapRow) :=
  some { t with main := applyHeap t.main msg }

/-- `INSERT INTO mem`. -/
def execMem (msg : MemMsg) (t : Copied MemMsg) : Option (Copied MemMsg) :=
  some { t with main := t.main ++ [msg] }

/-! ## The loop -/

/-- `COMMIT_FREQ` -/
def commitFreq : Nat := 4096

section
variable {σ μ : Type} (exec : μ → σ → Option σ)

/-- The message loop, with the messages up to the end of the stream, and the commit
behind it; `counter` is the number of messages in the open transaction. -/
def workerLoop (next : Conn σ → Called σ) : List μ → Nat → Conn σ → Called σ
  | [], _, c => c.commit.orRollback next
  | msg :: msgs, counter, c =>
      (c.execute (exec msg)).orRollback fun c =>
        if counter + 1 ≥ commitFreq then
          c.commit.orRollback fun c => c.begin.orReturn fun c => workerLoop next msgs 0 c
        else workerLoop next msgs (counter + 1) c

/-- Statements outside of a transaction, up to the first that fails. -/
def execAll : List (σ → Option σ) → Conn σ → (Conn σ → Called σ) → Called σ
  | [], c, next => next c
  | f :: fs, c, next => (c.execute f).orReturn fun c => execAll fs c next

/-- A worker: `setup` creates the table, and `copy` is done with it in the end. -/
def insertWorker (setup copy : List (σ → Option σ)) (msgs : List μ) (c : Conn σ) : Called σ :=
  execAll setup c fun c => c.begin.orReturn fun c =>
    workerLoop exec (fun c => execAll copy c fun c => (true, c)) msgs 0 c

end

/-- A statement without an effect on the rows. -/
def noEffect {σ : Type} (s : σ) : Option σ := some s

/-- `CREATE TABLE fr.… AS SELECT * FROM main.…` -/
def createCopy {ρ : Type} (t : Copied ρ) : Option (Copied ρ) := some { t with fr := some t.main }

/-- `CREATE UNIQUE INDEX fr.mem_by_address_and_step` -/
def createMemIndex (t : Copied MemMsg) : Option (Copied MemMsg) :=
  if ((t.fr.getD []).map fun r => (r.address, r.stepId)).Nodup then some t else none

/-! ## The workers -/

/-- Opening the database, two `PRAGMA`s, `CREATE TABLE` and the preparation of `INSERT`. -/
def wrkInsertStep (env : Nat → Bool) (msgs : List StepMsg) : Called (List StepRecord) :=
  insertWorker insertStep (List.replicate 5 noEffect) [] msgs (.open env [])

/-- As above, and the preparation of `UPDATE`; in the end `ATTACH` and the copy. -/
def wrkInsertHeap (env : Nat → Bool) (msgs : List HeapMsg) : Called (Copied HeapRow) :=
  insertWorker execHeap (List.replicate 6 noEffect) [noEffect, createCopy] msgs
    (.open env { main := [], fr := none })

def wrkInsertMem (env : Nat → Bool) (msgs : List MemMsg) : Called (Copied MemMsg) :=
  insertWorker execMem (List.replicate 5 noEffect) [noEffect, createCopy, createMemIndex] msgs
    (.open env { main := [], fr := none })

/-! ## The loop commits everything -/

/-- `n` commits in the middle of the stream, each followed by the next transaction. -/
def turnovers (n : Nat) : List Op := (List.replicate n [Op.commit, Op.begin]).flatten

theorem turnovers_succ (n : Nat) : turnovers (n + 1) = [.commit, .begin] ++ turnovers n := by
  rw [turnovers, List.replicate_succ, List.flatten_cons]
  rfl

theorem begin_turnovers_commit (n : Nat) :
    Op.begin :: turnovers n ++ [Op.commit] =
      (List.replicate (n + 1) [Op.begin, Op.commit]).flatten := by
  induction n with
  | zero => rfl
  | succ n ih =>
      rw [turnovers_succ, List.replicate_succ, List.flatten_cons, ← ih]
      rfl

section
variable {σ μ : Type} {exec : μ → σ → Option σ}

/-- In the loop a transaction is open with what the messages so far have done. -/
theorem workerLoop_succeeded {next : Conn σ → Called σ} {msgs : List μ} :
    ∀ {counter : Nat} {c : Conn σ} {s : σ}, c.pending = some s → counter < commitFreq →
      (workerLoop exec next msgs counter c).2.Succeeded →
        ∃ s' log, msgs.foldlM (fun s msg => exec msg s) s = some s' ∧
          workerLoop exec next msgs counter c =
            next { c with committed := s', pending := none, log } ∧
          transactions log = transactions c.log ++
            (turnovers ((counter + msgs.length) / commitFreq) ++ [.commit]) := by
  induction msgs with
  | nil =>
      intro counter c s hin hlt h
      refine ⟨s, _, rfl, commit_orRollback hin h, ?_⟩
      rw [transactions_concat, List.length_nil, Nat.add_zero, Nat.div_eq_of_lt hlt]
      rfl
  | cons msg msgs ih =>
      intro counter c s hin hlt h
      rw [workerLoop] at h ⊢
      obtain ⟨s₁, hexec, hstep⟩ := execute_orRollback hin h
      rw [hstep] at h ⊢
      have hfold : (msg :: msgs).foldlM (fun s msg => exec msg s) s =
          msgs.foldlM (fun s msg => exec msg s) s₁ := by
        rw [List.foldlM_cons, hexec]
        rfl
      rw [hfold, List.length_cons]
      by_cases hfull : counter + 1 ≥ commitFreq
      · -- the transaction is full: it is committed, and the next one begins
        rw [if_pos hfull] at h ⊢
        have hcommit := commit_orRollback rfl h
        rw [hcommit] at h ⊢
        have hbegin := begin_orReturn rfl h
        rw [hbegin] at h ⊢
        obtain ⟨s', log, hs', hloop, hlog⟩ := ih rfl (by decide) h
        refine ⟨s', log, hs', hloop, ?_⟩
        have hcount : counter + (msgs.length + 1) = msgs.length + commitFreq := by omega
        rw [hlog, hcount, Nat.add_div_right _ (by decide), turnovers_succ, Nat.zero_add,
          transactions_concat, transactions_concat, transactions_concat, List.append_assoc,
          List.append_assoc, List.append_assoc]
        rfl
      · rw [if_neg hfull] at h ⊢
        obtain ⟨s', log, hs', hloop, hlog⟩ := ih rfl (by omega) h
        refine ⟨s', log, hs', hloop, ?_⟩
        rw [hlog, transactions_concat, List.append_assoc, Nat.add_right_comm counter 1]
        rfl

theorem execAll_succeeded {fs : List (σ → Option σ)} {next : Conn σ → Called σ} :
    ∀ {c : Conn σ}, c.pending = none → (execAll fs c next).2.Succeeded →
      ∃ s log, fs.foldlM (fun s f => f s) c.committed = some s ∧
        transactions log = transactions c.log ∧
        execAll fs c next = next { c with committed := s, pending := none, log } := by
  induction fs with
  | nil =>
      intro c hout _
      refine ⟨c.committed, c.log, rfl, rfl, ?_⟩
      rw [execAll, ← hout]
  | cons f fs ih =>
      intro c hout h
      rw [execAll] at h ⊢
      obtain ⟨s₁, hf, hstep⟩ := execute_orReturn hout h
      rw [hstep] at h ⊢
      obtain ⟨s, log, hs, hlog, hnext⟩ := ih rfl h
      refine ⟨s, log, ?_, ?_, hnext⟩
      · rw [List.foldlM_cons, hf]
        exact hs
      · rw [hlog, transactions_concat]
        simp

/-- Everything is committed, in full transactions and one that may be smaller. -/
structure Batched (r : Called σ) (messages : Nat) : Prop where
  returned : r.1 = true
  noneOpen : r.2.pending = none
  alternate : transactions r.2.log =
    (List.replicate (messages / commitFreq + 1) [Op.begin, Op.commit]).flatten

theorem insertWorker_succeeded {setup copy : List (σ → Option σ)} {msgs : List μ} {s₀ : σ}
    {env : Nat → Bool} (hsetup : setup.foldlM (fun s f => f s) s₀ = some s₀)
    (h : (insertWorker exec setup copy msgs (.open env s₀)).2.Succeeded) :
    Batched (insertWorker exec setup copy msgs (.open env s₀)) msgs.length ∧
      ∃ s, msgs.foldlM (fun s msg => exec msg s) s₀ = some s ∧ copy.foldlM (fun s f => f s) s =
        some (insertWorker exec setup copy msgs (.open env s₀)).2.committed := by
  unfold insertWorker at h ⊢
  obtain ⟨s, log₁, hs, hlog₁, hready⟩ := execAll_succeeded rfl h
  cases hsetup.symm.trans hs
  rw [hready] at h ⊢
  have hbegin := begin_orReturn rfl h
  rw [hbegin] at h ⊢
  obtain ⟨s₁, log₂, hs₁, hloop, hlog₂⟩ := workerLoop_succeeded rfl (by decide) h
  rw [hloop] at h ⊢
  obtain ⟨s₂, log₃, hs₂, hlog₃, hcopy⟩ := execAll_succeeded rfl h
  rw [hcopy]
  refine ⟨{ returned := rfl, noneOpen := rfl, alternate := ?_ }, s₁, hs₁, hs₂⟩
  rw [hlog₃, hlog₂, transactions_concat, hlog₁, Nat.zero_add, ← begin_turnovers_commit]
  rfl

end

/-! ## The three tables -/

theorem foldlM_insertStep {msgs : List StepMsg} : ∀ {rows rows' : List StepRecord},
    msgs.foldlM (fun rows msg => insertStep msg rows) rows = some rows' →
      rows' = rows ++ msgs.map StepMsg.row := by
  induction msgs with
  | nil =>
      intro rows rows' h
      cases h
      simp
  | cons msg msgs ih =>
      intro rows rows' h
      rw [List.foldlM_cons] at h
      obtain ⟨rows₁, hinsert, hrest⟩ := Option.bind_eq_some_iff.mp h
      unfold insertStep at hinsert
      split at hinsert
      · cases hinsert
      · cases hinsert
        rw [ih hrest, List.map_cons, List.append_assoc]
        rfl

theorem foldlM_execHeap (msgs : List HeapMsg) : ∀ t : Copied HeapRow,
    msgs.foldlM (fun t msg => execHeap msg t) t =
      some { t with main := msgs.foldl applyHeap t.main } := by
  induction msgs with
  | nil =>
      intro t
      rfl
  | cons msg msgs ih =>
      intro t
      rw [List.foldlM_cons]
      exact ih { t with main := applyHeap t.main msg }

theorem foldlM_execMem (msgs : List MemMsg) : ∀ t : Copied MemMsg,
    msgs.foldlM (fun t msg => execMem msg t) t = some { t with main := t.main ++ msgs } := by
  induction msgs with
  | nil =>
      intro t
      rw [List.append_nil]
      rfl
  | cons msg msgs ih =>
      intro t
      rw [List.foldlM_cons]
      refine (ih { t with main := t.main ++ [msg] }).trans ?_
      rw [List.append_assoc]
      rfl

/-! ## Nothing is called out of place -/

section
variable {σ μ : Type} {exec : μ → σ → Option σ}

theorem workerLoop_quiet {next : Conn σ → Called σ} {msgs : List μ} {s' : σ} :
    ∀ {counter : Nat} {c : Conn σ} {s : σ}, c.pending = some s → c.Quiet →
      msgs.foldlM (fun s msg => exec msg s) s = some s' →
        ∃ log, workerLoop exec next msgs counter c =
            next { c with committed := s', pending := none, log } ∧
          Conn.Quiet { c with committed := s', pending := none, log } := by
  induction msgs with
  | nil =>
      intro counter c s hin hc hfold
      cases hfold
      exact commit_quiet hin hc
  | cons msg msgs ih =>
      intro counter c s hin hc hfold
      rw [List.foldlM_cons] at hfold
      obtain ⟨s₁, hexec, hrest⟩ := Option.bind_eq_some_iff.mp hfold
      rw [workerLoop]
      obtain ⟨log₁, hstep, hc₁⟩ := execute_quiet_in hin hexec hc
      rw [hstep]
      split
      · -- `COMMIT` ends the transaction that is open, and `dab_begin` opens the next one
        obtain ⟨log₂, hcommit, hc₂⟩ := commit_quiet rfl hc₁
        rw [hcommit]
        obtain ⟨log₃, hbegin, hc₃⟩ := begin_quiet hc₂
        rw [hbegin]
        exact ih rfl hc₃ hrest
      · exact ih rfl hc₁ hrest

theorem execAll_quiet {fs : List (σ → Option σ)} {next : Conn σ → Called σ} {s' : σ} :
    ∀ {c : Conn σ}, c.pending = none → c.Quiet →
      fs.foldlM (fun s f => f s) c.committed = some s' →
        ∃ log, execAll fs c next = next { c with committed := s', pending := none, log } ∧
          Conn.Quiet { c with committed := s', pending := none, log } := by
  induction fs with
  | nil =>
      intro c hout hc hfold
      cases hfold
      refine ⟨c.log, ?_, ?_⟩
      · rw [execAll, ← hout]
      · rw [← hout]
        exact hc
  | cons f fs ih =>
      intro c hout hc hfold
      rw [List.foldlM_cons] at hfold
      obtain ⟨s₁, hf, hrest⟩ := Option.bind_eq_some_iff.mp hfold
      rw [execAll]
      obtain ⟨log, hstep, hc₁⟩ := execute_quiet_out hout hf hc
      rw [hstep]
      exact ih rfl hc₁ hrest

/-- The calls of a worker all go well if the statements of the messages and of the copy do. -/
theorem insertWorker_quiet {setup copy : List (σ → Option σ)} {msgs : List μ} {s₀ s₁ s₂ : σ}
    {env : Nat → Bool} (henv : ∀ k, env k = true)
    (hsetup : setup.foldlM (fun s f => f s) s₀ = some s₀)
    (hmsgs : msgs.foldlM (fun s msg => exec msg s) s₀ = some s₁)
    (hcopy : copy.foldlM (fun s f => f s) s₁ = some s₂) :
    (insertWorker exec setup copy msgs (.open env s₀)).2.Succeeded := by
  have hopen : (Conn.open env s₀).Quiet := ⟨henv, fun _ he => nomatch he⟩
  unfold insertWorker
  obtain ⟨log₁, hready, hc₁⟩ := execAll_quiet rfl hopen hsetup
  rw [hready]
  obtain ⟨log₂, hbegin, hc₂⟩ := begin_quiet hc₁
  rw [hbegin]
  obtain ⟨log₃, hloop, hc₃⟩ := workerLoop_quiet rfl hc₂ hmsgs
  rw [hloop]
  obtain ⟨log₄, hend, hc₄⟩ := execAll_quiet rfl hc₃ hcopy
  rw [hend]
  exact hc₄.succeeded

end

theorem foldlM_insertStep_isSome {msgs : List StepMsg} : ∀ {rows : List StepRecord},
    (msgs.foldlM (fun rows msg => insertStep msg rows) rows).isSome ↔
      (msgs.map (·.stepId)).Nodup ∧ ∀ msg ∈ msgs, msg.stepId ∉ rows.map (·.id) := by
  induction msgs with
  | nil =>
      intro rows
      exact ⟨fun _ => ⟨List.nodup_nil, fun _ h => nomatch h⟩, fun _ => rfl⟩
  | cons msg msgs ih =>
      intro rows
      rw [List.foldlM_cons, List.map_cons, List.nodup_cons, List.forall_mem_cons]
      by_cases hmem : msg.stepId ∈ rows.map (·.id)
      · rw [insertStep, if_pos hmem]
        exact ⟨fun h => absurd h Bool.false_ne_true, fun h => absurd hmem h.2.1⟩
      · rw [insertStep, if_neg hmem]
        refine (@ih (rows ++ [msg.row])).trans ?_
        rw [List.map_append]
        constructor
        · rintro ⟨hnodup, hfresh⟩
          refine ⟨⟨fun hin => ?_, hnodup⟩, hmem, fun m hm => ?_⟩
          · obtain ⟨m, hm, heq⟩ := List.mem_map.mp hin
            exact hfresh m hm (List.mem_append_right _ (List.mem_singleton.mpr heq))
          · exact fun h => hfresh m hm (List.mem_append_left _ h)
        · rintro ⟨⟨hnot, hnodup⟩, -, hfresh⟩
          refine ⟨hnodup, fun m hm h => ?_⟩
          rcases List.mem_append.mp h with h | h
          · exact hfresh m hm h
          · exact hnot (List.mem_map.mpr ⟨m, hm, List.mem_singleton.mp h⟩)

section
variable {env : Nat → Bool}

/-- Only a step that is there already can go wrong of itself. -/
theorem wrkInsertStep_succeeds (henv : ∀ k, env k = true) {msgs : List StepMsg} :
    (wrkInsertStep env msgs).2.Succeeded ↔ (msgs.map (·.stepId)).Nodup := by
  constructor
  · intro h
    obtain ⟨-, s, hs, -⟩ := insertWorker_succeeded rfl h
    exact (foldlM_insertStep_isSome.mp (Option.isSome_iff_exists.mpr ⟨s, hs⟩)).1
  · intro h
    obtain ⟨s, hs⟩ := Option.isSome_iff_exists.mp
      ((@foldlM_insertStep_isSome msgs []).mpr ⟨h, fun _ _ => List.not_mem_nil⟩)
    exact insertWorker_quiet henv rfl hs rfl

theorem wrkInsertHeap_succeeds (henv : ∀ k, env k = true) (msgs : List HeapMsg) :
    (wrkInsertHeap env msgs).2.Succeeded :=
  insertWorker_quiet henv rfl (foldlM_execHeap msgs _) rfl

theorem wrkInsertMem_succeeds (henv : ∀ k, env k = true) {msgs : List MemMsg} :
    (wrkInsertMem env msgs).2.Succeeded ↔
      (msgs.map fun msg => (msg.address, msg.stepId)).Nodup := by
  have hcopy : ([noEffect, createCopy, createMemIndex].foldlM (fun s f => f s)
      { main := msgs, fr := none } : Option (Copied MemMsg)) =
        createMemIndex { main := msgs, fr := some msgs } := Option.bind_fun_some _
  constructor
  · intro h
    obtain ⟨-, s, hs, hindex⟩ := insertWorker_succeeded rfl h
    cases (foldlM_execMem msgs _).symm.trans hs
    have hindex := hcopy.symm.trans hindex
    unfold createMemIndex at hindex
    split at hindex
    · assumption
    · cases hindex
  · intro h
    exact insertWorker_quiet henv rfl (foldlM_execMem msgs _)
      (hcopy.trans (if_pos h))

end

section
variable {env : Nat → Bool}

theorem wrkInsertStep_commits {msgs : List StepMsg} (h : (wrkInsertStep env msgs).2.Succeeded) :
    Batched (wrkInsertStep env msgs) msgs.length ∧
      (wrkInsertStep env msgs).2.committed = msgs.map StepMsg.row := by
  obtain ⟨hbatched, s, hs, hcopy⟩ := insertWorker_succeeded rfl h
  refine ⟨hbatched, ?_⟩
  cases hcopy
  exact foldlM_insertStep hs

theorem wrkInsertHeap_commits {msgs : List HeapMsg} (h : (wrkInsertHeap env msgs).2.Succeeded) :
    Batched (wrkInsertHeap env msgs) msgs.length ∧
      (wrkInsertHeap env msgs).2.committed.fr = some (msgs.foldl applyHeap []) := by
  obtain ⟨hbatched, s, hs, hcopy⟩ := insertWorker_succeeded rfl h
  refine ⟨hbatched, ?_⟩
  cases (foldlM_execHeap msgs _).symm.trans hs
  rw [wrkInsertHeap, ← Option.some.inj hcopy]

theorem wrkInsertMem_commits {msgs : List MemMsg} (h : (wrkInsertMem env msgs).2.Succeeded) :
    Batched (wrkInsertMem env msgs) msgs.length ∧
      (wrkInsertMem env msgs).2.committed.fr = some msgs := by
  obtain ⟨hbatched, s, hs, hcopy⟩ := insertWorker_succeeded rfl h
  refine ⟨hbatched, ?_⟩
  cases (foldlM_execMem msgs _).symm.trans hs
  have hindex : (createMemIndex { main := msgs, fr := some msgs }).bind some =
      some (wrkInsertMem env msgs).2.committed := hcopy
  rw [Option.bind_fun_some, createMemIndex] at hindex
  split at hindex
  · rw [← Option.some.inj hindex]
  · cases hindex

end

/-- **The workers lose nothing.**  When all calls go well, a worker leaves no
transaction open and has begun and committed by turns, and the recording has every
step and every segment once, in order, and in `heap` what the events say.  If nothing in
the environment goes wrong, all calls go well unless a key comes twice. -/
theorem workers_commit (env : Nat → Bool) :
    (∀ msgs, ((wrkInsertStep env msgs).2.Succeeded →
      Batched (wrkInsertStep env msgs) msgs.length ∧
        (wrkInsertStep env msgs).2.committed = msgs.map StepMsg.row) ∧
      ((∀ k, env k = true) →
        ((wrkInsertStep env msgs).2.Succeeded ↔ (msgs.map (·.stepId)).Nodup))) ∧
    (∀ msgs, ((wrkInsertHeap env msgs).2.Succeeded →
      Batched (wrkInsertHeap env msgs) msgs.length ∧
        (wrkInsertHeap env msgs).2.committed.fr = some (msgs.foldl applyHeap [])) ∧
      ((∀ k, env k = true) → (wrkInsertHeap env msgs).2.Succeeded)) ∧
    ∀ msgs, ((wrkInsertMem env msgs).2.Succeeded →
      Batched (wrkInsertMem env msgs) msgs.length ∧
        (wrkInsertMem env msgs).2.committed.fr = some msgs) ∧
      ((∀ k, env k = true) → ((wrkInsertMem env msgs).2.Succeeded ↔
        (msgs.map fun msg => (msg.address, msg.stepId)).Nodup)) := by
  refine ⟨fun msgs => ⟨?_, ?_⟩, fun msgs => ⟨?_, ?_⟩, fun msgs => ⟨?_, ?_⟩⟩
  · exact wrkInsertStep_commits
  · exact fun henv => wrkInsertStep_succeeds henv
  · exact wrkInsertHeap_commits
  · exact fun henv => wrkInsertHeap_succeeds henv msgs
  · exact wrkInsertMem_commits
  · exact fun henv => wrkInsertMem_succeeds henv

theorem workers_commit_twoMessages :
    (wrkInsertStep (fun _ => true) [⟨1, 1, 7, 0x1000, []⟩, ⟨2, 1, 7, 0x1004, []⟩]).2.committed =
        [⟨⟨1, 0x1000, 1, 7⟩, []⟩, ⟨⟨2, 0x1004, 1, 7⟩, []⟩] ∧
      (wrkInsertHeap (fun _ => true) [⟨1, 0x5000, 16⟩, ⟨2, 0x5000, 0⟩]).2.committed.fr =
        some [⟨0x5000, 16, 1, 2⟩] ∧
      (wrkInsertMem (fun _ => true) [⟨0x6000, 1, []⟩, ⟨0x6000, 2, []⟩]).2.committed.fr =
        some [⟨0x6000, 1, []⟩, ⟨0x6000, 2, []⟩] := by
  obtain ⟨hstep, hheap, hmem⟩ := workers_commit fun _ => true
  refine ⟨((hstep _).1 ?_).2, ((hheap _).1 ?_).2, ((hmem _).1 ?_).2⟩
  · exact ((hstep _).2 fun _ => rfl).mpr (by decide)
  · exact (hheap _).2 fun _ => rfl
  · exact ((hmem _).2 fun _ => rfl).mpr (by decide)

end FlightRec
