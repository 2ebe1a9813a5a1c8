/-
# `FlightRec.Examine.Movement` — the requests that move the current step

`process_launch`, `process_next`, `process_stepin`, `process_stepout`,
`process_stepback`, `process_continue`, `process_revcontinue` and
`process_config_done` of examine/requests.c, with `set_first_step` and
`set_last_step`.  Each of them reads the globals (`cur_file`, `cur_step`,
`cur_line`, `cur_depth`, `signum`, `stop_on_entry`), runs one query over the
join of `FlightRec.Examine.Trace` and fetches its first row, or its rows one
after the other, straight into the globals.

The database is taken to be intact: a query on an open database delivers its
rows and then `DAB_NO_DATA`.  Without an open database, that is before a
`launch`, no cursor can be prepared.

For each handler one lemma lists everything it can do (`processNext_cases` …
`processRevcontinue_cases`), and `Outcome` collects them over all requests;
later modules use these and never unfold a handler.
-/
import FlightRec.Examine.Trace

namespace FlightRec

open Query

/-! ## Globals, replies and events -/

/-- `STOP_REASON_*`. -/
inductive StopReason where
  | step
  | breakpoint
  | entry
  | signal
  | exit
  deriving DecidableEq, Repr

/-- The events a movement request can send after its response. -/
inductive Event where
  | stopped (reason : StopReason)
  | terminated
  deriving DecidableEq, Repr

/-- A response (`success`, and the optional `message` of a failure) and the events after it. -/
structure Reply where
  success : Bool
  message : Option String
  events : List Event
  deriving DecidableEq, Repr

/-- A success followed by the given events. -/
def Reply.ok (events : List Event) : Reply :=
  { success := true, message := none, events }

/-- A failure; no event follows it. -/
def Reply.failure (error : Option String) : Reply :=
  { success := false, message := error, events := [] }

@[simp] theorem Reply.ok_success (es : List Event) : (Reply.ok es).success = true := rfl
@[simp] theorem Reply.failure_success (e : Option String) : (Reply.failure e).success = false := rfl

/-- The globals of examine/requests.c that movement uses, and whether the database is open. -/
structure Session where
  dbOpen : Bool
  curFile : Option String
  curStep : Nat
  curLine : Nat
  curDepth : Int32
  signum : Nat
  stopOnEntry : Bool
  deriving DecidableEq, Repr

/-- The globals as `process_init` resets them. -/
def Session.init : Session :=
  { dbOpen := false, curFile := none, curStep := 0, curLine := 0, curDepth := 0,
    signum := 0, stopOnEntry := false }

/-- `DAB_CURSOR_FETCH(…, &cur_file, &cur_line, &cur_step, &cur_depth)`.  The depth is fetched
into an `int`, which gets the lower half of the column. -/
def Session.fetch (s : Session) (r : StopRow) : Session :=
  { s with curFile := some r.file, curLine := r.line, curStep := r.step,
           curDepth := .ofInt r.depth }

section
variable (s : Session) (r : StopRow)

@[simp] theorem Session.fetch_dbOpen : (s.fetch r).dbOpen = s.dbOpen := rfl
@[simp] theorem Session.fetch_curFile : (s.fetch r).curFile = some r.file := rfl
@[simp] theorem Session.fetch_curLine : (s.fetch r).curLine = r.line := rfl
@[simp] theorem Session.fetch_curStep : (s.fetch r).curStep = r.step := rfl
@[simp] theorem Session.fetch_curDepth : (s.fetch r).curDepth = .ofInt r.depth := rfl
@[simp] theorem Session.fetch_signum : (s.fetch r).signum = s.signum := rfl
@[simp] theorem Session.fetch_stopOnEntry : (s.fetch r).stopOnEntry = s.stopOnEntry := rfl

end

/-- `NOT (f.name = ? AND st.line = ?)` with `cur_file` and `cur_line` bound.  A
`NULL` name makes the conjunction false on another line and unknown on this one. -/
def Session.offLine (s : Session) (r : StopRow) : Bool :=
  match s.curFile with
  | some file => !(r.file == file && r.line == s.curLine)
  | none => r.line != s.curLine

/-- `new_line == cur_line && !strcmp(cur_file, new_file)`. -/
def Session.onLine (s : Session) (r : StopRow) : Bool :=
  r.line == s.curLine && some r.file == s.curFile

/-- `local.breakpoint`: pairs of file id and line, unique by the index `br_by_line`. -/
structure Breakpoints where
  rows : List (Nat × Nat)
  unique : rows.Nodup

/-! ## First and last step -/

/-- `set_first_step`. -/
def setFirstStep (db : Db) (s : Session) : Except String Session :=
  match (db.stopRows.filter (fun r => r.step = 1)).head? with
  | none => .error "DB doesn't contain execution info"
  | some r =>
      .ok { s with curFile := some r.file, curLine := r.line, curStep := 1, curDepth := 1 }

/-- `SELECT MAX(id) FROM step`. -/
def Db.maxStep (db : Db) : Nat := (db.steps.map (·.id)).foldl max 0

/-- `set_last_step`. -/
def setLastStep (db : Db) (s : Session) : Except String Session :=
  match (db.stopRows.filter (fun r => r.step = db.maxStep)).head? with
  | none => .error "DB doesn't contain execution info"
  | some r =>
      .ok { s with curFile := some r.file, curLine := r.line, curStep := r.step, curDepth := 1 }

/-! ## The handlers -/

/-- The parameters of `launch` that `process_launch` reads before it opens the database. -/
structure LaunchArgs where
  program : Option String
  sourcePath : Option String
  stopOnEntry : Option Bool
  deriving DecidableEq, Repr

/-- `process_launch`, on a program with debug info and a database file that opens. -/
def processLaunch (db : Db) (arguments : Option LaunchArgs) (s : Session) : Session × Reply :=
  match arguments with
  | none => (s, .failure (some "Cannot get 'arguments' param in 'launch' request"))
  | some args =>
    match args.program, args.sourcePath with
    | none, _ => (s, .failure (some "Cannot get 'program' param in 'launch' request"))
    | some _, none => (s, .failure (some "Cannot get 'sourcePath' param in 'launch' request"))
    | some _, some _ =>
      let s := { s with stopOnEntry := args.stopOnEntry.getD false, dbOpen := true }
      match setFirstStep db s with
      | .error error => ({ s with signum := db.exitSignal.getD 0 }, .failure (some error))
      | .ok s =>
        let s := { s with signum := db.exitSignal.getD 0 }
        (s, .ok (if s.stopOnEntry then [.stopped .entry] else []))

/-- What `process_next`, `process_stepin` and `process_stepout` report when there is no row. -/
def noMoreSteps (s : Session) : Reply :=
  if s.signum ≠ 0 then .ok [.stopped .signal] else .ok [.terminated]

/-- `process_next`. -/
def processNext (db : Db) (s : Session) : Session × Reply :=
  if !s.dbOpen then (s, .failure (some "Cannot prepare statement")) else
  match (orderBy (·.step) (db.stopRows.filter fun r =>
      decide (s.curStep < r.step) && decide (r.depth ≤ s.curDepth.toInt) && s.offLine r)).head? with
  | none => (s, noMoreSteps s)
  | some r => (s.fetch r, .ok [.stopped .step])

/-- `process_stepin`. -/
def processStepin (db : Db) (s : Session) : Session × Reply :=
  if !s.dbOpen then (s, .failure (some "Cannot prepare statement")) else
  match (db.stopRows.filter fun r => r.step = s.curStep + 1).head? with
  | none => (s, noMoreSteps s)
  | some r => (s.fetch r, .ok [.stopped .step])

/-- `process_stepout`. -/
def processStepout (db : Db) (s : Session) : Session × Reply :=
  if s.curDepth.toInt ≤ 1 then (s, .ok []) else     -- do nothing - already at top level
  if !s.dbOpen then (s, .failure (some "Cannot prepare statement")) else
  match (orderBy (·.step) (db.stopRows.filter fun r =>
      decide (s.curStep < r.step) && decide (r.depth < s.curDepth.toInt))).head? with
  | none => (s, noMoreSteps s)
  | some r => (s.fetch r, .ok [.stopped .step])

/-- `process_stepback`: no row is a failure here, without a message. -/
def processStepback (db : Db) (s : Session) : Session × Reply :=
  if s.curStep ≤ 1 then (s, .ok [.terminated]) else     -- already at first step
  if !s.dbOpen then (s, .failure (some "Cannot prepare statement")) else
  match (orderByDesc (·.step) (db.stopRows.filter fun r =>
      decide (r.step < s.curStep) && decide (r.depth ≤ s.curDepth.toInt) && s.offLine r)).head? with
  | none => (s, .failure none)
  | some r => (s.fetch r, .ok [.stopped .step])

/-- The join with `local.breakpoint br ON br.file_id = f.id AND br.line = st.line`. -/
def Db.breakpointRows (db : Db) (bps : Breakpoints) : List StopRow :=
  db.stopRows.flatMap fun r =>
    (bps.rows.filter (fun br => br.1 = r.fileId ∧ br.2 = r.line)).map fun _ => r

/-- The fetch loop of `process_continue`; `true` if it was left by `break`.
`adjacent` tells whether a row is the next step in the direction of travel. -/
def continueLoop (adjacent : Session → StopRow → Bool) :
    List StopRow → Session → Session × Bool
  | [], s => (s, false)
  | r :: rest, s =>
      let s := { s with curDepth := .ofInt r.depth }
      if adjacent s r && s.onLine r then
        continueLoop adjacent rest { s with curStep := r.step }
      else
        (s.fetch r, true)

/-- `new_step == cur_step+1`. -/
def Session.isNext (s : Session) (r : StopRow) : Bool := r.step == s.curStep + 1

/-- `new_step == cur_step-1`. -/
def Session.isPrev (s : Session) (r : StopRow) : Bool := r.step + 1 == s.curStep

/-- `process_continue`. -/
def processContinue (db : Db) (bps : Breakpoints) (s : Session) : Session × Reply :=
  if !s.dbOpen then (s, .failure (some "Cannot prepare statement")) else
  match continueLoop Session.isNext (orderBy (·.step)
      ((db.breakpointRows bps).filter fun r => s.curStep < r.step)) s with
  | (s', true) => (s', .ok [.stopped .breakpoint])
  | (s', false) =>
    match setLastStep db s' with
    | .error error => (s', .failure (some error))
    | .ok s'' => (s'', .ok [.stopped (if s.signum ≠ 0 then .signal else .exit)])

/-- `process_revcontinue`. -/
def processRevcontinue (db : Db) (bps : Breakpoints) (s : Session) : Session × Reply :=
  if !s.dbOpen then (s, .failure (some "Cannot prepare statement")) else
  match continueLoop Session.isPrev (orderByDesc (·.step)
      ((db.breakpointRows bps).filter fun r => r.step < s.curStep)) s with
  | (s', true) => (s', .ok [.stopped .breakpoint])
  | (s', false) =>
    match setFirstStep db s' with
    | .error error => (s', .failure (some error))
    | .ok s'' => (s'', .ok [.stopped .entry])

/-- `process_config_done`: acknowledge, or start the run that `launch` deferred. -/
def processConfigDone (db : Db) (bps : Breakpoints) (s : Session) : Session × Reply :=
  if !s.stopOnEntry then processContinue db bps s else (s, .ok [])

/-- The movement requests. -/
inductive Request where
  | launch (arguments : Option LaunchArgs)
  | next
  | stepIn
  | stepOut
  | stepBack
  | continue_
  | reverseContinue
  | configurationDone
  deriving DecidableEq, Repr

/-- The movement cases of `process_request`. -/
def processRequest (db : Db) (bps : Breakpoints) (s : Session) : Request → Session × Reply
  | .launch arguments => processLaunch db arguments s
  | .next => processNext db s
  | .stepIn => processStepin db s
  | .stepOut => processStepout db s
  | .stepBack => processStepback db s
  | .continue_ => processContinue db bps s
  | .reverseContinue => processRevcontinue db bps s
  | .configurationDone => processConfigDone db bps s

/-! ## What the first and the last step are -/

/-- The assignments of `set_first_step` and `set_last_step`: the row, but depth 1. -/
def Session.land (s : Session) (r : StopRow) : Session :=
  { s.fetch r with curDepth := 1 }

section
variable {db : Db} (rec : Traced db)
include rec

theorem Traced.maxStep_eq : db.maxStep = db.steps.length := by
  have bound : ∀ x ∈ db.steps.map (·.id), x ≤ db.steps.length := by
    intro x hx
    obtain ⟨s, hs, rfl⟩ := List.mem_map.mp hx
    exact (rec.id_bounds hs).2
  have hle : db.maxStep ≤ db.steps.length := by
    rcases foldl_max_mem (l := db.steps.map (·.id)) (a := 0) with h | h
    · unfold Db.maxStep
      omega
    · exact bound _ h
  refine Nat.le_antisymm hle ?_
  by_cases h0 : db.steps.length = 0
  · omega
  · obtain ⟨s, hs, hid⟩ := rec.exists_step (i := db.steps.length) (by omega) (Nat.le_refl _)
    exact hid ▸ le_foldl_max (Or.inr (List.mem_map.mpr ⟨s, hs, rfl⟩))

theorem setFirstStep_eq (hne : db.steps ≠ []) (s : Session) :
    ∃ r ∈ db.stopRows, r.step = 1 ∧ setFirstStep db s = .ok (s.land r) := by
  unfold setFirstStep
  rcases filter_head_cases (fun r : StopRow => r.step = 1) db.stopRows with
    ⟨r, hr, h1, hhead⟩ | ⟨none, _⟩
  · have h1 : r.step = 1 := by simpa using h1
    refine ⟨r, hr, h1, ?_⟩
    simp only [hhead, Session.land, Session.fetch, h1]
  · obtain ⟨r, hr, h1⟩ := rec.exists_stopRow_at (i := 1) (Nat.le_refl _)
      (List.length_pos_of_ne_nil hne)
    exact absurd (none r hr) (by simp [h1])

theorem setLastStep_eq (hne : db.steps ≠ []) (s : Session) :
    ∃ r ∈ db.stopRows, r.step = db.steps.length ∧ setLastStep db s = .ok (s.land r) := by
  unfold setLastStep
  rw [rec.maxStep_eq]
  rcases filter_head_cases (fun r : StopRow => r.step = db.steps.length) db.stopRows with
    ⟨r, hr, hn, hhead⟩ | ⟨none, _⟩
  · refine ⟨r, hr, by simpa using hn, ?_⟩
    simp only [hhead]
    rfl
  · obtain ⟨r, hr, hn⟩ := rec.exists_stopRow_at (i := db.steps.length)
      (List.length_pos_of_ne_nil hne) (Nat.le_refl _)
    exact absurd (none r hr) (by simp [hn])

end

/-! ## What each handler can do -/

section
variable {db : Db} {bps : Breakpoints} {s : Session}

theorem processLaunch_cases (rec : Traced db) (hne : db.steps ≠ []) (s : Session)
    (arguments : Option LaunchArgs) :
    (∃ error, processLaunch db arguments s = (s, .failure error)) ∨
      ∃ r ∈ db.stopRows, r.step = 1 ∧ ∃ entry : Bool, processLaunch db arguments s =
        ({ s.land r with
            dbOpen := true, stopOnEntry := entry, signum := db.exitSignal.getD 0 },
          .ok (if entry then [.stopped .entry] else [])) := by
  match arguments with
  | none => exact Or.inl ⟨_, rfl⟩
  | some ⟨none, _, _⟩ => exact Or.inl ⟨_, rfl⟩
  | some ⟨some _, none, _⟩ => exact Or.inl ⟨_, rfl⟩
  | some ⟨some _, some _, entry⟩ =>
      obtain ⟨r, hr, h1, hset⟩ := setFirstStep_eq rec hne
        { s with stopOnEntry := entry.getD false, dbOpen := true }
      refine Or.inr ⟨r, hr, h1, entry.getD false, ?_⟩
      simp only [processLaunch, hset]
      rfl

theorem processNext_cases (hopen : s.dbOpen = true) :
    (∃ r ∈ db.stopRows, (s.curStep < r.step ∧ r.depth ≤ s.curDepth.toInt ∧ s.offLine r = true) ∧
      (∀ q ∈ db.stopRows, s.curStep < q.step → q.depth ≤ s.curDepth.toInt → s.offLine q = true →
        r.step ≤ q.step) ∧
      processNext db s = (s.fetch r, .ok [.stopped .step])) ∨
    ((∀ q ∈ db.stopRows, s.curStep < q.step → q.depth ≤ s.curDepth.toInt → s.offLine q = false) ∧
      processNext db s = (s, noMoreSteps s)) := by
  unfold processNext
  rw [if_neg (by simp [hopen])]
  rcases orderBy_filter_cases (·.step) (fun r => decide (s.curStep < r.step) &&
      decide (r.depth ≤ s.curDepth.toInt) && s.offLine r) db.stopRows with
    ⟨r, hr, hp, least, hhead⟩ | ⟨none, hhead⟩
  · simp only [Bool.and_eq_true, decide_eq_true_eq] at hp least
    exact Or.inl ⟨r, hr, ⟨hp.1.1, hp.1.2, hp.2⟩,
      fun q hq h1 h2 h3 => least q hq ⟨⟨h1, h2⟩, h3⟩, by rw [hhead]⟩
  · refine Or.inr ⟨fun q hq h1 h2 => ?_, by rw [hhead]⟩
    simpa [h1, h2] using none q hq

theorem processStepin_cases (hopen : s.dbOpen = true) :
    (∃ r ∈ db.stopRows, r.step = s.curStep + 1 ∧
      processStepin db s = (s.fetch r, .ok [.stopped .step])) ∨
    ((∀ q ∈ db.stopRows, q.step ≠ s.curStep + 1) ∧
      processStepin db s = (s, noMoreSteps s)) := by
  unfold processStepin
  rw [if_neg (by simp [hopen])]
  rcases filter_head_cases (fun r : StopRow => r.step = s.curStep + 1) db.stopRows with
    ⟨r, hr, hp, hhead⟩ | ⟨none, hhead⟩
  · exact Or.inl ⟨r, hr, by simpa using hp, by rw [hhead]⟩
  · exact Or.inr ⟨fun q hq => by simpa using none q hq, by rw [hhead]⟩

theorem processStepout_top (h : s.curDepth.toInt ≤ 1) : processStepout db s = (s, .ok []) := by
  unfold processStepout
  rw [if_pos h]

theorem processStepout_cases (hopen : s.dbOpen = true) (hd : 1 < s.curDepth.toInt) :
    (∃ r ∈ db.stopRows, (s.curStep < r.step ∧ r.depth < s.curDepth.toInt) ∧
      (∀ q ∈ db.stopRows, s.curStep < q.step → q.depth < s.curDepth.toInt → r.step ≤ q.step) ∧
      processStepout db s = (s.fetch r, .ok [.stopped .step])) ∨
    ((∀ q ∈ db.stopRows, s.curStep < q.step → s.curDepth.toInt ≤ q.depth) ∧
      processStepout db s = (s, noMoreSteps s)) := by
  unfold processStepout
  rw [if_neg (by omega), if_neg (by simp [hopen])]
  rcases orderBy_filter_cases (·.step) (fun r => decide (s.curStep < r.step) &&
      decide (r.depth < s.curDepth.toInt)) db.stopRows with
    ⟨r, hr, hp, least, hhead⟩ | ⟨none, hhead⟩
  · simp only [Bool.and_eq_true, decide_eq_true_eq] at hp least
    exact Or.inl ⟨r, hr, hp, fun q hq h1 h2 => least q hq ⟨h1, h2⟩, by rw [hhead]⟩
  · refine Or.inr ⟨fun q hq h1 => ?_, by rw [hhead]⟩
    simpa [h1] using none q hq

theorem processStepback_first (h : s.curStep ≤ 1) :
    processStepback db s = (s, .ok [.terminated]) := by
  unfold processStepback
  rw [if_pos h]

theorem processStepback_cases (hopen : s.dbOpen = true) (hs : 1 < s.curStep) :
    (∃ r ∈ db.stopRows, (r.step < s.curStep ∧ r.depth ≤ s.curDepth.toInt ∧ s.offLine r = true) ∧
      (∀ q ∈ db.stopRows, q.step < s.curStep → q.depth ≤ s.curDepth.toInt → s.offLine q = true →
        q.step ≤ r.step) ∧
      processStepback db s = (s.fetch r, .ok [.stopped .step])) ∨
    ((∀ q ∈ db.stopRows, q.step < s.curStep → q.depth ≤ s.curDepth.toInt → s.offLine q = false) ∧
      processStepback db s = (s, .failure none)) := by
  unfold processStepback
  rw [if_neg (by omega), if_neg (by simp [hopen])]
  rcases orderByDesc_filter_cases (·.step) (fun r => decide (r.step < s.curStep) &&
      decide (r.depth ≤ s.curDepth.toInt) && s.offLine r) db.stopRows with
    ⟨r, hr, hp, greatest, hhead⟩ | ⟨none, hhead⟩
  · simp only [Bool.and_eq_true, decide_eq_true_eq] at hp greatest
    exact Or.inl ⟨r, hr, ⟨hp.1.1, hp.1.2, hp.2⟩,
      fun q hq h1 h2 h3 => greatest q hq ⟨⟨h1, h2⟩, h3⟩, by rw [hhead]⟩
  · refine Or.inr ⟨fun q hq h1 h2 => ?_, by rw [hhead]⟩
    simpa [h1, h2] using none q hq

end

/-! ## The fetch loop

The loop skips the steps that follow the current one without a gap as long as
they are breakpoint rows of the current line; everything it skips is overwritten
by the row it stops at, or by `set_last_step` / `set_first_step`. -/

/-- The loop stops at one of its rows, or it has only moved `cur_step` and `cur_depth`. -/
theorem continueLoop_cases (adjacent : Session → StopRow → Bool) :
    ∀ (rows : List StopRow) (s : Session),
      (∃ r ∈ rows, continueLoop adjacent rows s = (s.fetch r, true)) ∨
        ∃ c d, continueLoop adjacent rows s = ({ s with curStep := c, curDepth := d }, false)
  | [], s => Or.inr ⟨s.curStep, s.curDepth, rfl⟩
  | r :: rest, s => by
      simp only [continueLoop]
      split
      · rcases continueLoop_cases adjacent rest
            { s with curDepth := .ofInt r.depth, curStep := r.step } with ⟨q, hq, h⟩ | ⟨c, d, h⟩
        · exact Or.inl ⟨q, by simp [hq], h⟩
        · exact Or.inr ⟨c, d, h⟩
      · exact Or.inl ⟨r, by simp, rfl⟩

theorem mem_breakpointRows {db : Db} {bps : Breakpoints} {r : StopRow} :
    r ∈ db.breakpointRows bps ↔ r ∈ db.stopRows ∧ (r.fileId, r.line) ∈ bps.rows := by
  simp only [Db.breakpointRows, List.mem_flatMap, List.mem_map, List.mem_filter,
    decide_eq_true_eq]
  constructor
  · rintro ⟨q, hq, br, ⟨hbr, hf, hl⟩, rfl⟩
    exact ⟨hq, by rwa [← hf, ← hl]⟩
  · rintro ⟨hr, hbr⟩
    exact ⟨r, hr, _, ⟨hbr, rfl, rfl⟩, rfl⟩

/-- As the breakpoint table is unique, the join keeps a row once or not at all. -/
theorem breakpointRows_eq (db : Db) (bps : Breakpoints) :
    db.breakpointRows bps = db.stopRows.filter (fun r => (r.fileId, r.line) ∈ bps.rows) := by
  have one : ∀ r : StopRow, ((bps.rows.filter (fun br => br.1 = r.fileId ∧ br.2 = r.line)).map
      fun _ => r) = if (r.fileId, r.line) ∈ bps.rows then [r] else [] := by
    intro r
    have same : bps.rows.filter (fun br => br.1 = r.fileId ∧ br.2 = r.line) =
        bps.rows.filter (fun br => br == (r.fileId, r.line)) := by
      refine List.filter_congr fun br _ => ?_
      rw [Bool.eq_iff_iff]
      simp [Prod.ext_iff]
    rw [same, List.filter_beq, List.map_replicate]
    by_cases h : (r.fileId, r.line) ∈ bps.rows
    · simp [List.count_eq_one_of_mem bps.unique h, h]
    · simp [List.count_eq_zero.mpr h, h]
  simp only [Db.breakpointRows, one]
  induction db.stopRows with
  | nil => rfl
  | cons r rest ih =>
      rw [List.flatMap_cons, ih, List.filter_cons]
      by_cases h : (r.fileId, r.line) ∈ bps.rows <;> simp [h]

theorem Located.place {db : Db} (rec : Located db) {s : StepRow} (hs : s ∈ db.steps) :
    ∃ st f, db.statements.filter (fun st => st.address = s.address) = [st] ∧
      db.files.filter (fun f => f.id = st.fileId) = [f] := by
  obtain ⟨st, hst⟩ := (rec.statement s hs).eq_singleton
  have hmem : st ∈ db.statements :=
    (List.mem_filter.mp (by rw [hst]; simp : st ∈ db.statements.filter _)).1
  obtain ⟨f, hf⟩ := (rec.file st hmem).eq_singleton
  exact ⟨st, f, hst, hf⟩

/-- The join of `step`, `statement` and `file` has one row for each step, in order. -/
theorem Located.stopRows_steps {db : Db} (rec : Located db) :
    db.stopRows.map (·.step) = db.steps.map (·.id) := by
  have one : ∀ s ∈ db.steps, ((db.statements.filter (fun st => st.address = s.address)).flatMap
      fun st => (db.files.filter (fun f => f.id = st.fileId)).map fun f =>
        (StopRow.mk f.id f.name st.line s.id s.depth)).map (·.step) = [s.id] := by
    intro s hs
    obtain ⟨st, f, hst, hf⟩ := rec.place hs
    rw [hst]
    simp [hf]
  have all : ∀ l : List StepRow, (∀ s ∈ l, s ∈ db.steps) →
      (l.flatMap fun s => (db.statements.filter (fun st => st.address = s.address)).flatMap
        fun st => (db.files.filter (fun f => f.id = st.fileId)).map fun f =>
          (StopRow.mk f.id f.name st.line s.id s.depth)).map (·.step) = l.map (·.id) := by
    intro l
    induction l with
    | nil => intro _; rfl
    | cons s l ih =>
        intro h
        rw [List.flatMap_cons, List.map_append, one s (h s (by simp)),
          ih (fun t ht => h t (by simp [ht]))]
        rfl
  exact all db.steps fun _ h => h

theorem Located.breakpointRows_nodup {db : Db} (rec : Located db) (bps : Breakpoints)
    (p : StopRow → Bool) : (((db.breakpointRows bps).filter p).map (·.step)).Nodup := by
  have all : (db.stopRows.map (·.step)).Nodup := by
    rw [rec.stopRows_steps, rec.ids]
    exact List.nodup_range'
  rw [breakpointRows_eq]
  exact all.sublist ((List.filter_sublist.trans List.filter_sublist).map _)

/-- A breakpoint lies ahead that is not just the rest of the current line: some
step up to it is no breakpoint row of the line the session stands on. -/
def ReachesBreakpoint (db : Db) (bps : Breakpoints) (s : Session) : Prop :=
  ∃ r ∈ db.breakpointRows bps, s.curStep < r.step ∧
    ∃ j, s.curStep < j ∧ j ≤ r.step ∧
      ∀ q ∈ db.breakpointRows bps, q.step = j → s.onLine q = false

/-- The breakpoint row lies in the direction `lt`, and is not just the rest of the current
line. -/
def Session.Reaches (db : Db) (bps : Breakpoints) (lt : Nat → Nat → Prop) (s : Session)
    (r : StopRow) : Prop :=
  r ∈ db.breakpointRows bps ∧ lt s.curStep r.step ∧
    ∃ j, lt s.curStep j ∧ ¬ lt r.step j ∧
      ∀ q ∈ db.breakpointRows bps, q.step = j → s.onLine q = false

theorem reachesBreakpoint_iff {db : Db} {bps : Breakpoints} {s : Session} :
    ReachesBreakpoint db bps s ↔ ∃ r, s.Reaches db bps (· < ·) r := by
  constructor
  · rintro ⟨r, hr, hlt, j, hj, hjr, hoff⟩
    exact ⟨r, hr, hlt, j, hj, Nat.not_lt.mpr hjr, hoff⟩
  · rintro ⟨r, hr, hlt, j, hj, hjr, hoff⟩
    exact ⟨r, hr, hlt, j, hj, Nat.not_lt.mp hjr, hoff⟩

/-- The row is the first one, in the order of `lt`, that has the property. -/
def Db.First (db : Db) (lt : Nat → Nat → Prop) (p : StopRow → Prop) (r : StopRow) : Prop :=
  r ∈ db.stopRows ∧ p r ∧ ∀ q ∈ db.stopRows, p q → ¬ lt q.step r.step

/-- A direction of travel, with a test for neighbours. -/
structure Direction (lt : Nat → Nat → Prop) (adjacent : Session → StopRow → Bool) : Prop where
  irrefl : ∀ a, ¬ lt a a
  trans : ∀ {a b c}, lt a b → lt b c → lt a c
  total : ∀ a b, lt a b ∨ a = b ∨ lt b a
  next : ∀ s r, adjacent s r = true ↔
    lt s.curStep r.step ∧ ∀ j, lt s.curStep j → ¬ lt j r.step

theorem direction_isNext : Direction (· < ·) Session.isNext where
  irrefl := Nat.lt_irrefl
  trans := Nat.lt_trans
  total := Nat.lt_trichotomy
  next s r := by
    rw [Session.isNext, beq_iff_eq]
    constructor
    · intro h
      exact ⟨by omega, fun j hj => by omega⟩
    · rintro ⟨hlt, hnone⟩
      have := hnone (s.curStep + 1) (Nat.lt_succ_self _)
      omega

theorem direction_isPrev : Direction (· > ·) Session.isPrev where
  irrefl := Nat.lt_irrefl
  trans hab hbc := Nat.lt_trans hbc hab
  total a b := Nat.lt_trichotomy b a |>.imp id (.imp Eq.symm id)
  next s r := by
    rw [Session.isPrev, beq_iff_eq]
    constructor
    · intro h
      exact ⟨by omega, fun j hj => by omega⟩
    · rintro ⟨hlt, hnone⟩
      have := hnone (s.curStep - 1) (by omega)
      omega

section
variable {db : Db} (rec : Located db) {bps : Breakpoints} {lt : Nat → Nat → Prop}
  {adjacent : Session → StopRow → Bool} (dir : Direction lt adjacent)
include dir

theorem Direction.reaches_iff {s s' : Session} {r q : StopRow} (hr : r ∈ db.breakpointRows bps)
    (hadj : adjacent s r = true) (hline : s.onLine r = true) (hfile : s'.curFile = s.curFile)
    (hcur : s'.curLine = s.curLine) (hstep : s'.curStep = r.step) :
    s'.Reaches db bps lt q ↔ s.Reaches db bps lt q := by
  obtain ⟨hlt, hnone⟩ := (dir.next s r).mp hadj
  have hon : ∀ x, s'.onLine x = s.onLine x := fun x => by
    rw [Session.onLine, Session.onLine, hfile, hcur]
  unfold Session.Reaches
  simp only [hon, hstep]
  constructor
  · rintro ⟨hq, hrq, j, hj, hjq, hoff⟩
    exact ⟨hq, dir.trans hlt hrq, j, dir.trans hlt hj, hjq, hoff⟩
  · rintro ⟨hq, hsq, j, hj, hjq, hoff⟩
    have hrj : lt r.step j := by
      rcases dir.total r.step j with h | h | h
      · exact h
      · have := hoff r hr h
        rw [hline] at this
        cases this
      · exact absurd h (hnone j hj)
    refine ⟨hq, ?_, j, hrj, hjq, hoff⟩
    rcases dir.total r.step q.step with h | h | h
    · exact h
    · exact absurd (h ▸ hrj) hjq
    · exact absurd (dir.trans h hrj) hjq

include rec

theorem continueLoop_first : ∀ {rows : List StopRow} {s : Session},
    rows.Pairwise (fun q r => lt q.step r.step) →
    (∀ q, q ∈ rows ↔ q ∈ db.breakpointRows bps ∧ lt s.curStep q.step) →
    (∃ r, db.First lt (s.Reaches db bps lt) r ∧ continueLoop adjacent rows s = (s.fetch r, true)) ∨
      (∀ r, ¬ s.Reaches db bps lt r) ∧ (continueLoop adjacent rows s).2 = false := by
  intro rows
  induction rows with
  | nil =>
      intro s _ hmem
      exact .inr ⟨fun r ⟨hr, hlt, _⟩ => List.not_mem_nil ((hmem r).mpr ⟨hr, hlt⟩), rfl⟩
  | cons r rest ih =>
      intro s strict hmem
      obtain ⟨hfirst, hrest⟩ := List.pairwise_cons.mp strict
      obtain ⟨hr, hlt⟩ := (hmem r).mp List.mem_cons_self
      have hcases : ∀ q ∈ db.breakpointRows bps, lt s.curStep q.step →
          q = r ∨ lt r.step q.step := by
        intro q hq hsq
        rcases List.mem_cons.mp ((hmem q).mpr ⟨hq, hsq⟩) with h | h
        · exact .inl h
        · exact .inr (hfirst q h)
      rw [continueLoop]
      dsimp only
      split
      next hskip =>
        obtain ⟨hadj, hline⟩ := Bool.and_eq_true_iff.mp hskip
        have hnext := (dir.next _ r).mp hadj
        have hadj : adjacent s r = true := (dir.next s r).mpr hnext
        have hsame : ∀ q,
            Session.Reaches db bps lt { s with curDepth := .ofInt r.depth, curStep := r.step } q ↔
              s.Reaches db bps lt q := fun _ =>
          dir.reaches_iff hr hadj hline rfl rfl rfl
        have hmem' : ∀ q, q ∈ rest ↔ q ∈ db.breakpointRows bps ∧ lt r.step q.step := by
          intro q
          constructor
          · exact fun hq => ⟨((hmem q).mp (List.mem_cons_of_mem _ hq)).1, hfirst q hq⟩
          · rintro ⟨hq, hrq⟩
            rcases List.mem_cons.mp ((hmem q).mpr ⟨hq, dir.trans hlt hrq⟩) with rfl | h
            · exact absurd hrq (dir.irrefl _)
            · exact h
        rcases @ih { s with curDepth := .ofInt r.depth, curStep := r.step } hrest hmem' with
          ⟨t, ⟨ht, hreach, hleast⟩, hloop⟩ | ⟨hnone, hloop⟩
        · exact .inl ⟨t, ⟨ht, (hsame t).mp hreach, fun q hq h => hleast q hq ((hsame q).mpr h)⟩,
            hloop⟩
        · exact .inr ⟨fun q h => hnone q ((hsame q).mpr h), hloop⟩
      next hstop =>
        refine .inl ⟨r, ⟨(mem_breakpointRows.mp hr).1, ⟨hr, hlt, ?_⟩, ?_⟩, rfl⟩
        · by_cases hline : s.onLine r = true
          · -- there is a gap before the row
            have hgap : ¬ ∀ j, lt s.curStep j → ¬ lt j r.step := fun h =>
              hstop (Bool.and_eq_true_iff.mpr ⟨(dir.next _ r).mpr ⟨hlt, h⟩, hline⟩)
            obtain ⟨j, hj, hjr⟩ : ∃ j, lt s.curStep j ∧ lt j r.step := by
              simpa only [not_forall, not_not, exists_prop] using hgap
            refine ⟨j, hj, fun h => dir.irrefl _ (dir.trans h hjr), fun q hq hqj => ?_⟩
            rcases hcases q hq (hqj ▸ hj) with rfl | h
            · exact absurd (hqj ▸ hjr) (dir.irrefl _)
            · exact absurd (dir.trans (hqj ▸ h) hjr) (dir.irrefl _)
          · refine ⟨r.step, hlt, dir.irrefl _, fun q hq hqr => ?_⟩
            rw [rec.stopRow_unique (mem_breakpointRows.mp hq).1 (mem_breakpointRows.mp hr).1 hqr]
            exact eq_false_of_ne_true hline
        · rintro q _ ⟨hq, hsq, _⟩ hqr
          rcases hcases q hq hsq with rfl | h
          · exact dir.irrefl _ hqr
          · exact dir.irrefl _ (dir.trans h hqr)

end

theorem processContinue_ends {db : Db} (rec : Traced db) (hne : db.steps ≠ []) {s : Session}
    (hopen : s.dbOpen = true) (bps : Breakpoints) {rows : List StopRow}
    (hrows : orderBy (·.step) ((db.breakpointRows bps).filter fun r => s.curStep < r.step) = rows) :
    (∃ r ∈ rows, continueLoop Session.isNext rows s = (s.fetch r, true) ∧
      processContinue db bps s = (s.fetch r, .ok [.stopped .breakpoint])) ∨
    ((continueLoop Session.isNext rows s).2 = false ∧ ∃ r ∈ db.stopRows,
      r.step = db.steps.length ∧ processContinue db bps s =
        (s.land r, .ok [.stopped (if s.signum ≠ 0 then .signal else .exit)])) := by
  unfold processContinue
  rw [if_neg (by simp [hopen]), hrows]
  rcases continueLoop_cases Session.isNext rows s with ⟨r, hr, hloop⟩ | ⟨c, d, hloop⟩
  · rw [hloop]
    exact Or.inl ⟨r, hr, rfl, rfl⟩
  · obtain ⟨r, hr, hn, hset⟩ := setLastStep_eq rec hne { s with curStep := c, curDepth := d }
    rw [hloop]
    refine Or.inr ⟨rfl, r, hr, hn, ?_⟩
    simp only [hset]
    rfl

section
variable {db : Db} (rec : Located db) (hne : db.steps ≠ []) {s : Session}
  (hopen : s.dbOpen = true)
include rec hne hopen

/-- `continue` stops at the first row that it reaches, or goes to the last step with depth 1. -/
theorem processContinue_cases (bps : Breakpoints) :
    (∃ r, db.First (· < ·) (s.Reaches db bps (· < ·)) r ∧
      processContinue db bps s = (s.fetch r, .ok [.stopped .breakpoint])) ∨
    (¬ ReachesBreakpoint db bps s ∧ ∃ r ∈ db.stopRows, r.step = db.steps.length ∧
      processContinue db bps s =
        (s.land r, .ok [.stopped (if s.signum ≠ 0 then .signal else .exit)])) := by
  have strict : (orderBy (·.step) ((db.breakpointRows bps).filter fun r =>
      s.curStep < r.step)).Pairwise (fun q r => q.step < r.step) :=
    orderBy_strict (rec.breakpointRows_nodup bps fun r => s.curStep < r.step)
  have hfirst := continueLoop_first rec direction_isNext strict fun q => by
    rw [mem_orderBy, List.mem_filter, decide_eq_true_eq]
  rcases processContinue_ends rec.traced hne hopen bps rfl with
    ⟨r, hr, hloop, hrun⟩ | ⟨hloop, r, hr, hn, hrun⟩
  · rcases hfirst with ⟨t, ht, hstop⟩ | ⟨-, hout⟩
    · rw [hloop] at hstop
      rw [(Prod.mk.inj hstop).1] at hrun
      exact .inl ⟨t, ht, hrun⟩
    · rw [hloop] at hout
      cases hout
  · rcases hfirst with ⟨t, ht, hstop⟩ | ⟨hnone, -⟩
    · rw [hstop] at hloop
      cases hloop
    · exact .inr ⟨fun h => (reachesBreakpoint_iff.mp h).elim hnone, r, hr, hn, hrun⟩

theorem processRevcontinue_cases (bps : Breakpoints) :
    (∃ r, db.First (· > ·) (s.Reaches db bps (· > ·)) r ∧
      processRevcontinue db bps s = (s.fetch r, .ok [.stopped .breakpoint])) ∨
    ((∀ r, ¬ s.Reaches db bps (· > ·) r) ∧ ∃ r ∈ db.stopRows, r.step = 1 ∧
      processRevcontinue db bps s = (s.land r, .ok [.stopped .entry])) := by
  have strict : (orderByDesc (·.step) ((db.breakpointRows bps).filter fun r =>
      r.step < s.curStep)).Pairwise (fun q r => r.step < q.step) :=
    orderByDesc_strict (rec.breakpointRows_nodup bps fun r => r.step < s.curStep)
  have hfirst := continueLoop_first rec direction_isPrev strict fun q => by
    rw [mem_orderByDesc, List.mem_filter, decide_eq_true_eq]
  unfold processRevcontinue
  rw [if_neg (by simp [hopen])]
  rcases hfirst with ⟨r, hr, hloop⟩ | ⟨hnone, hout⟩
  · rw [hloop]
    exact .inl ⟨r, hr, rfl⟩
  · rcases continueLoop_cases Session.isPrev (orderByDesc (·.step)
        ((db.breakpointRows bps).filter fun r => r.step < s.curStep)) s with
      ⟨r, hr, hloop⟩ | ⟨c, d, hloop⟩
    · rw [hloop] at hout
      cases hout
    · obtain ⟨r, hr, h1, hset⟩ :=
        setFirstStep_eq rec.traced hne { s with curStep := c, curDepth := d }
      rw [hloop]
      refine .inr ⟨hnone, r, hr, h1, ?_⟩
      simp only [hset]
      rfl

end

/-! ## All outcomes of a request -/

/-- The request runs `process_continue`. -/
def Session.Continues (s : Session) : Request → Prop
  | .continue_ => True
  | .configurationDone => s.stopOnEntry = false
  | _ => False

/-- The request runs a query on the database that `launch` opened. -/
def Session.Queries (s : Session) : Request → Prop
  | .next | .stepIn | .continue_ | .reverseContinue => True
  | .stepOut => 1 < s.curDepth.toInt
  | .stepBack => 1 < s.curStep
  | .configurationDone => s.stopOnEntry = false
  | .launch _ => False

/-- A row at or above the depth of the current step, on another line. -/
def Session.Over (s : Session) (r : StopRow) : Prop :=
  r.depth ≤ s.curDepth.toInt ∧ s.offLine r = true

/-- The row that a request moves to: the first one of its query, or the one its loop stops
at. -/
def Session.Target (db : Db) (bps : Breakpoints) (s : Session) : Request → StopRow → Prop
  | .next => db.First (· < ·) fun r => s.curStep < r.step ∧ s.Over r
  | .stepIn => db.First (· < ·) fun r => r.step = s.curStep + 1
  | .stepOut => db.First (· < ·) fun r =>
      1 < s.curDepth.toInt ∧ s.curStep < r.step ∧ r.depth < s.curDepth.toInt
  | .stepBack => db.First (· > ·) fun r => 1 < s.curStep ∧ r.step < s.curStep ∧ s.Over r
  | .continue_ => db.First (· < ·) (s.Reaches db bps (· < ·))
  | .configurationDone => db.First (· < ·) fun r =>
      s.stopOnEntry = false ∧ s.Reaches db bps (· < ·) r
  | .reverseContinue => db.First (· > ·) (s.Reaches db bps (· > ·))
  | .launch _ => fun _ => False

theorem Db.First.unique {db : Db} (rec : Located db) {lt : Nat → Nat → Prop}
    (total : ∀ a b, lt a b ∨ a = b ∨ lt b a) {p : StopRow → Prop} {q r : StopRow}
    (hq : db.First lt p q) (hr : db.First lt p r) : q = r := by
  refine rec.stopRow_unique hq.1 hr.1 ?_
  rcases total q.step r.step with h | h | h
  · exact absurd h (hr.2.2 q hq.1 hq.2.1)
  · exact h
  · exact absurd h (hq.2.2 r hr.1 hr.2.1)

section
variable {db : Db} {bps : Breakpoints} {s : Session} {request : Request} {q r : StopRow}

theorem Session.Target.mem (h : s.Target db bps request r) : r ∈ db.stopRows := by
  cases request with
  | launch arguments => exact h.elim
  | _ => exact h.1

theorem Session.Target.unique (rec : Located db) (hq : s.Target db bps request q)
    (hr : s.Target db bps request r) : q = r := by
  cases request <;> dsimp only [Session.Target] at hq hr
  case stepBack => exact Db.First.unique rec direction_isPrev.total hq hr
  case reverseContinue => exact Db.First.unique rec direction_isPrev.total hq hr
  all_goals exact Db.First.unique rec direction_isNext.total hq hr

theorem Session.Target.reachesBreakpoint (h : s.Target db bps request r)
    (hc : s.Continues request) : ReachesBreakpoint db bps s := by
  cases request with
  | continue_ => exact reachesBreakpoint_iff.mpr ⟨r, h.2.1⟩
  | configurationDone => exact reachesBreakpoint_iff.mpr ⟨r, h.2.1.2⟩
  | _ => exact hc.elim

end

/-- Everything `process_request` can do with a movement request: the globals
after it and the reply. -/
inductive Outcome (db : Db) (bps : Breakpoints) (s : Session) :
    Request → Session → Reply → Prop where
  | launchRefused {arguments} (error : Option String) :
      Outcome db bps s (.launch arguments) s (.failure error)
  | launched {arguments} (r : StopRow) (entry : Bool) : r ∈ db.stopRows → r.step = 1 →
      Outcome db bps s (.launch arguments)
        { s.land r with dbOpen := true, stopOnEntry := entry, signum := db.exitSignal.getD 0 }
        (.ok (if entry then [.stopped .entry] else []))
  | closed {request} : s.dbOpen = false → s.Queries request →
      Outcome db bps s request s (.failure (some "Cannot prepare statement"))
  | next (r : StopRow) : s.dbOpen = true → s.Target db bps .next r →
      Outcome db bps s .next (s.fetch r) (.ok [.stopped .step])
  | nextEnd : s.dbOpen = true → (∀ r ∈ db.stopRows, s.curStep < r.step → ¬ s.Over r) →
      Outcome db bps s .next s (noMoreSteps s)
  | stepIn (r : StopRow) : s.dbOpen = true → s.Target db bps .stepIn r →
      Outcome db bps s .stepIn (s.fetch r) (.ok [.stopped .step])
  | stepInEnd : s.dbOpen = true → (∀ r ∈ db.stopRows, r.step ≠ s.curStep + 1) →
      Outcome db bps s .stepIn s (noMoreSteps s)
  | topLevel : s.curDepth.toInt ≤ 1 → Outcome db bps s .stepOut s (.ok [])
  | stepOut (r : StopRow) : s.dbOpen = true → s.Target db bps .stepOut r →
      Outcome db bps s .stepOut (s.fetch r) (.ok [.stopped .step])
  | stepOutEnd : s.dbOpen = true → 1 < s.curDepth.toInt →
      (∀ r ∈ db.stopRows, s.curStep < r.step → s.curDepth.toInt ≤ r.depth) →
      Outcome db bps s .stepOut s (noMoreSteps s)
  | firstStep : s.curStep ≤ 1 → Outcome db bps s .stepBack s (.ok [.terminated])
  | stepBack (r : StopRow) : s.dbOpen = true → s.Target db bps .stepBack r →
      Outcome db bps s .stepBack (s.fetch r) (.ok [.stopped .step])
  | stepBackNone : s.dbOpen = true → 1 < s.curStep →
      (∀ r ∈ db.stopRows, r.step < s.curStep → ¬ s.Over r) →
      Outcome db bps s .stepBack s (.failure none)
  | breakpoint {request} (r : StopRow) : s.dbOpen = true → s.Continues request →
      s.Target db bps request r →
      Outcome db bps s request (s.fetch r) (.ok [.stopped .breakpoint])
  | ranOff {request} (r : StopRow) : s.dbOpen = true → s.Continues request →
      ¬ ReachesBreakpoint db bps s → r ∈ db.stopRows → r.step = db.steps.length →
      Outcome db bps s request (s.land r)
        (.ok [.stopped (if s.signum ≠ 0 then .signal else .exit)])
  | backBreakpoint (r : StopRow) : s.dbOpen = true → s.Target db bps .reverseContinue r →
      Outcome db bps s .reverseContinue (s.fetch r) (.ok [.stopped .breakpoint])
  | backFirst (r : StopRow) : s.dbOpen = true → (∀ r, ¬ s.Reaches db bps (· > ·) r) →
      r ∈ db.stopRows → r.step = 1 →
      Outcome db bps s .reverseContinue (s.land r) (.ok [.stopped .entry])
  | acknowledged : s.stopOnEntry = true → Outcome db bps s .configurationDone s (.ok [])

section
variable {db : Db} (rec : Located db) (hne : db.steps ≠ [])
include rec hne

theorem processContinue_outcome (bps : Breakpoints) {s : Session} (hopen : s.dbOpen = true)
    {request : Request} (hc : s.Continues request) :
    Outcome db bps s request (processContinue db bps s).1 (processContinue db bps s).2 := by
  rcases processContinue_cases rec hne hopen bps with ⟨r, hr, h⟩ | ⟨hno, r, hr, hn, h⟩
  · rw [h]
    refine .breakpoint r hopen hc ?_
    cases request with
    | continue_ => exact hr
    | configurationDone =>
        obtain ⟨hmem, hreach, hleast⟩ := hr
        exact ⟨hmem, ⟨hc, hreach⟩, fun q hq hqr => hleast q hq hqr.2⟩
    | _ => exact hc.elim
  · rw [h]
    exact .ranOff r hopen hc hno hr hn

theorem processLaunch_outcome (bps : Breakpoints) (s : Session) (arguments : Option LaunchArgs) :
    Outcome db bps s (.launch arguments) (processLaunch db arguments s).1
      (processLaunch db arguments s).2 := by
  rcases processLaunch_cases rec.traced hne s arguments with ⟨e, h⟩ | ⟨r, hr, h1, entry, h⟩
  · rw [h]; exact .launchRefused _
  · rw [h]; exact .launched r entry hr h1

theorem processRequest_open (bps : Breakpoints) {s : Session} (hopen : s.dbOpen = true)
    (request : Request) :
    Outcome db bps s request (processRequest db bps s request).1
      (processRequest db bps s request).2 := by
  cases request with
  | launch arguments => exact processLaunch_outcome rec hne bps s arguments
  | next =>
      rw [processRequest]
      rcases processNext_cases hopen with ⟨r, hr, ⟨hlt, hd, hoff⟩, least, h⟩ | ⟨none, h⟩
      · rw [h]
        exact .next r hopen ⟨hr, ⟨hlt, hd, hoff⟩, fun q hq ⟨hqlt, hqd, hqoff⟩ =>
          Nat.not_lt.mpr (least q hq hqlt hqd hqoff)⟩
      · rw [h]
        exact .nextEnd hopen fun q hq hlt ⟨hd, hoff⟩ => by simp [none q hq hlt hd] at hoff
  | stepIn =>
      rw [processRequest]
      rcases processStepin_cases hopen with ⟨r, hr, hstep, h⟩ | ⟨none, h⟩
      · rw [h]
        exact .stepIn r hopen ⟨hr, hstep, fun q _ hq => by omega⟩
      · rw [h]; exact .stepInEnd hopen none
  | stepOut =>
      rw [processRequest]
      by_cases hd : s.curDepth.toInt ≤ 1
      · rw [processStepout_top hd]; exact .topLevel hd
      · have hd : 1 < s.curDepth.toInt := by omega
        rcases processStepout_cases hopen hd with ⟨r, hr, ⟨hlt, hlow⟩, least, h⟩ | ⟨none, h⟩
        · rw [h]
          exact .stepOut r hopen ⟨hr, ⟨hd, hlt, hlow⟩, fun q hq ⟨_, hqlt, hqlow⟩ =>
            Nat.not_lt.mpr (least q hq hqlt hqlow)⟩
        · rw [h]; exact .stepOutEnd hopen hd none
  | stepBack =>
      rw [processRequest]
      by_cases h1 : s.curStep ≤ 1
      · rw [processStepback_first h1]; exact .firstStep h1
      · have h1 : 1 < s.curStep := by omega
        rcases processStepback_cases hopen h1 with
          ⟨r, hr, ⟨hlt, hd, hoff⟩, greatest, h⟩ | ⟨none, h⟩
        · rw [h]
          exact .stepBack r hopen ⟨hr, ⟨h1, hlt, hd, hoff⟩, fun q hq ⟨_, hqlt, hqd, hqoff⟩ =>
            Nat.not_lt.mpr (greatest q hq hqlt hqd hqoff)⟩
        · rw [h]
          exact .stepBackNone hopen h1 fun q hq hlt ⟨hd, hoff⟩ => by
            simp [none q hq hlt hd] at hoff
  | continue_ =>
      rw [processRequest]
      exact processContinue_outcome rec hne bps hopen trivial
  | reverseContinue =>
      rw [processRequest]
      rcases processRevcontinue_cases rec hne hopen bps with ⟨r, hr, h⟩ | ⟨hnone, r, hr, h1, h⟩
      · rw [h]; exact .backBreakpoint r hopen hr
      · rw [h]; exact .backFirst r hopen hnone hr h1
  | configurationDone =>
      rw [processRequest, processConfigDone]
      by_cases hentry : s.stopOnEntry = true
      · rw [if_neg (by simp [hentry])]; exact .acknowledged hentry
      · rw [if_pos (by simp [hentry])]
        exact processContinue_outcome rec hne bps hopen (eq_false_of_ne_true hentry)

theorem processRequest_closed (bps : Breakpoints) {s : Session} (hclosed : s.dbOpen = false)
    (request : Request) :
    Outcome db bps s request (processRequest db bps s request).1
      (processRequest db bps s request).2 := by
  cases request with
  | launch arguments => exact processLaunch_outcome rec hne bps s arguments
  | next =>
      rw [processRequest, processNext, if_pos (by simp [hclosed])]
      exact .closed hclosed trivial
  | stepIn =>
      rw [processRequest, processStepin, if_pos (by simp [hclosed])]
      exact .closed hclosed trivial
  | stepOut =>
      rw [processRequest]
      by_cases hd : s.curDepth.toInt ≤ 1
      · rw [processStepout_top hd]; exact .topLevel hd
      · rw [processStepout, if_neg hd, if_pos (by simp [hclosed])]
        exact .closed hclosed (Int.lt_of_not_ge hd)
  | stepBack =>
      rw [processRequest]
      by_cases h1 : s.curStep ≤ 1
      · rw [processStepback_first h1]; exact .firstStep h1
      · rw [processStepback, if_neg h1, if_pos (by simp [hclosed])]
        exact .closed hclosed (Nat.lt_of_not_le h1)
  | continue_ =>
      rw [processRequest, processContinue, if_pos (by simp [hclosed])]
      exact .closed hclosed trivial
  | reverseContinue =>
      rw [processRequest, processRevcontinue, if_pos (by simp [hclosed])]
      exact .closed hclosed trivial
  | configurationDone =>
      rw [processRequest, processConfigDone]
      by_cases hentry : s.stopOnEntry = true
      · rw [if_neg (by simp [hentry])]; exact .acknowledged hentry
      · rw [if_pos (by simp [hentry]), processContinue, if_pos (by simp [hclosed])]
        exact .closed hclosed (eq_false_of_ne_true hentry)

theorem processRequest_outcome (bps : Breakpoints) (s : Session) (request : Request) :
    Outcome db bps s request (processRequest db bps s request).1
      (processRequest db bps s request).2 := by
  cases hopen : s.dbOpen with
  | true => exact processRequest_open rec hne bps hopen request
  | false => exact processRequest_closed rec hne bps hopen request

end

end FlightRec
