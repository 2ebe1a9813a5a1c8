/-
# `FlightRec.Record.Pipeline` — the main loop and the database threads

`record` starts a thread for each of the tables `step`, `heap` and `mem`, hands them
messages over channels while the client runs, and in the end sends each the end of its
stream and joins it (`START_DB_WORKER`, `WAIT_DB_WORKER` of record/db_workers.h).  The
threads read until the end (the loops of record/db_workers.c).

`Step` is one atomic step of one of the four threads; what it does to a channel is a
step of `FlightRec.Record.Channel` (`Step.channel`).  Whatever the order of the steps:

  * no run is longer than six steps for a message and 21 for the end, and no run
    stops before the main loop has joined all threads
  * then every thread has read what was written for it, in order, and the channels
    are empty                                                (`recording_completes`)

Here the main loop is the only one that writes to the channels, and a thread reads to the
end of its stream: the segments that the BPF thread adds to the channel of `mem`, and the
threads that return after a failed call, are left out.
-/
import FlightRec.Lib.Completion
import FlightRec.Record.Channel
import FlightRec.Record.DbWorkers
import Mathlib.Algebra.GroupWithZero.Nat
import Mathlib.Data.List.Infix

namespace FlightRec.Channel.Pipeline

open Completion

/-! ## The threads -/

/-- The threads that write to the database. -/
inductive Worker where
  | step
  | heap
  | mem
  deriving DecidableEq, Repr

/-- The size of a message of the thread, which is what it expects. -/
def Worker.size : Worker → Nat
  | .step => 248
  | .heap => 24
  | .mem => 48

/-- What the main loop does with a channel or a thread. -/
inductive Action where
  /-- `ch_write` of a block. -/
  | write (w : Worker) (buf : Nat)
  /-- `ch_finish` -/
  | finish (w : Worker)
  /-- `pthread_join` -/
  | join (w : Worker)
  deriving DecidableEq, Repr

/-- The channel that is written to, and the message. -/
def Action.message? : Action → Option (Worker × Message)
  | .write w buf => some (w, { payload := some buf, size := w.size })
  | .finish w => some (w, { payload := none, size := 0 })
  | .join _ => none

/-- `WAIT_DB_WORKER` -/
def waitDbWorker (w : Worker) : List Action := [.finish w, .join w]

/-- What `record` does, with all writes of the main loop. -/
def record (writes : List (Worker × Nat)) : List Action :=
  writes.map (fun x => .write x.1 x.2) ++
    (waitDbWorker .step ++ waitDbWorker .heap ++ waitDbWorker .mem)

/-- The main loop with what it has still to do, the channels (with the main loop as
thread 0 and the reader as thread 1), what each reader has got and whether it ended. -/
structure State where
  program : List Action
  chan : Worker → Channel.System
  received : Worker → List Nat
  ended : Worker → Bool

/-- The threads are started. -/
def State.start (program : List Action) : State where
  program := program
  chan := fun _ => .start 2
  received := fun _ => []
  ended := fun _ => false

/-- The block that a read has returned. -/
def block : ReadReturn → List Nat
  | .channelOk buf _ => [buf]
  | _ => []

/-- The condition of the loop fails. -/
def ends : ReadReturn → Bool
  | .channelOk _ _ => false
  | _ => true

section
variable (c : Channel.System)

/-- The critical section of `ch_write`. -/
def linked (a : Nat) (msg : Message) : Channel.System :=
  { c.goto 0 .post with
    queue := c.queue.enqueue a { number := c.hist.linked.length, message := msg }
    hist := { c.hist with linked := c.hist.linked ++
      [{ number := c.hist.linked.length, message := msg }] } }

/-- The end of `ch_write`. -/
def posted : Channel.System :=
  { c.goto 0 .idle with sem := c.sem + 1, hist := { c.hist with writes := c.hist.writes + 1 } }

/-- A reader passes the semaphore. -/
def passed (bufsize : Nat) : Channel.System :=
  { c.goto 1 (.take bufsize) with sem := c.sem - 1 }

/-- The critical section of `ch_read`. -/
def taken (bufsize : Nat) (m : Linked) (rest : LinkedQueue.Queue Nat Linked) : Channel.System :=
  { c.goto 1 .idle with
    queue := rest
    hist := { c.hist with reads := c.hist.reads ++
      [{ thread := 1, bufsize, linked := m, returned := readReturn bufsize m.message }] } }

end

/-- One step of one thread. -/
inductive Step : State → State → Prop
  -- the main loop
  | enter {s : State} {a : Action} {rest : List Action} {w : Worker} {msg : Message}
      (head : s.program = a :: rest) (writes : a.message? = some (w, msg))
      (at_ : (s.chan w).threads[0]? = some .idle) :
      Step s { s with chan := Function.update s.chan w ((s.chan w).goto 0 (.link msg)) }
  | link {s : State} {w : Worker} {a : Nat} {msg : Message}
      (at_ : (s.chan w).threads[0]? = some (.link msg)) (fresh : (s.chan w).queue.nodes a = none) :
      Step s { s with chan := Function.update s.chan w (linked (s.chan w) a msg) }
  | post {s : State} {a : Action} {rest : List Action} {w : Worker} (head : s.program = a :: rest)
      (at_ : (s.chan w).threads[0]? = some .post) :
      Step s { s with
        program := rest
        chan := Function.update s.chan w (posted (s.chan w)) }
  | join {s : State} {w : Worker} {rest : List Action} (head : s.program = .join w :: rest)
      (ended : s.ended w = true) : Step s { s with program := rest }
  -- a thread that writes to the database
  | read {s : State} {w : Worker} (running : s.ended w = false)
      (at_ : (s.chan w).threads[1]? = some .idle) :
      Step s { s with
        chan := Function.update s.chan w ((s.chan w).goto 1 (.wait .readBlock w.size)) }
  | wait {s : State} {w : Worker} {bufsize : Nat}
      (at_ : (s.chan w).threads[1]? = some (.wait .readBlock bufsize))
      (value : 0 < (s.chan w).sem) :
      Step s { s with chan := Function.update s.chan w (passed (s.chan w) bufsize) }
  | take {s : State} {w : Worker} {bufsize : Nat} {m : Linked}
      {rest : LinkedQueue.Queue Nat Linked}
      (at_ : (s.chan w).threads[1]? = some (.take bufsize))
      (head : (s.chan w).queue.dequeue = some (m, rest)) :
      Step s { s with
        chan := Function.update s.chan w (taken (s.chan w) bufsize m rest)
        received := Function.update s.received w
          (s.received w ++ block (readReturn bufsize m.message))
        ended := Function.update s.ended w (ends (readReturn bufsize m.message)) }

theorem Step.channel {s t : State} (h : Step s t) (w : Worker) :
    t.chan w = s.chan w ∨ Channel.Step (s.chan w) (t.chan w) := by
  have update : ∀ {v : Worker} {c : Channel.System}, Channel.Step (s.chan v) c →
      Function.update s.chan v c w = s.chan w ∨
        Channel.Step (s.chan w) (Function.update s.chan v c w) := by
    intro v c hc
    by_cases hv : w = v
    · subst hv
      rw [Function.update_self]
      exact .inr hc
    · exact .inl (Function.update_of_ne hv ..)
  cases h with
  | @enter a _ v msg _ _ at_ => exact update (.call (.chWrite msg.payload msg.size) at_)
  | link at_ fresh => exact update (.link at_ fresh)
  | post _ at_ => exact update (.semPost at_)
  | join _ _ => exact .inl rfl
  | @read v _ at_ => exact update (.call (.chRead .readBlock v.size) at_)
  | wait at_ value => exact update (.semWait at_ value)
  | take at_ head => exact update (.take at_ head)

/-! ## What a channel has seen of the program -/

/-- What an action writes to the channel of `w`. -/
def Action.payload? (w : Worker) (a : Action) : Option (Option Nat) :=
  (a.message?.filter fun x => x.1 = w).map fun x => x.2.payload

/-- What a program writes to the channel of `w`. -/
def payloads (w : Worker) (program : List Action) : List (Option Nat) :=
  program.filterMap (Action.payload? w)

/-- The program without what the main loop, at `pc` in the channel, has linked already. -/
def toLink (program : List Action) (pc : Pc) : List Action :=
  if pc = .post then program.tail else program

@[simp] theorem toLink_idle (program : List Action) : toLink program .idle = program := rfl

@[simp] theorem toLink_link (program : List Action) (msg : Message) :
    toLink program (.link msg) = program := rfl

/-- The channel `c` of `w`, in which the main loop is at `pc` and the reader at `qc`,
while `all` is what the program as a whole writes to it. -/
structure Tracks (all : List (Option Nat)) (program : List Action) (w : Worker)
    (c : Channel.System) (received : List Nat) (ended : Bool) (pc qc : Pc) : Prop where
  threads : c.threads = [pc, qc]
  accounted : ∃ nodes, Accounted c nodes
  room : ∃ n, ∀ a, n ≤ a → c.queue.nodes a = none
  written : c.hist.linked.map (·.message.payload) ++ payloads w (toLink program pc) = all
  writer : pc = .idle ∨ ∃ a rest msg, program = a :: rest ∧ a.message? = some (w, msg) ∧
    (pc = .link msg ∨ pc = .post)
  reader : qc = .idle ∨ ended = false ∧ (qc = .wait .readBlock w.size ∨ qc = .take w.size)
  read : c.hist.reads.map (·.linked.message.payload) =
    received.map some ++ if ended then [none] else []
  sizes : ∀ m ∈ c.hist.linked, m.message.payload = none ∨ m.message.size = w.size

theorem tracks_start (program : List Action) (w : Worker) :
    Tracks (payloads w program) program w (.start 2) [] false .idle .idle where
  threads := rfl
  accounted := ⟨[], accounted_start 2⟩
  room := ⟨0, fun _ _ => rfl⟩
  written := rfl
  writer := .inl rfl
  reader := .inl rfl
  read := rfl
  sizes := fun m hm => by cases hm

section
variable {all : List (Option Nat)} {program : List Action} {w : Worker} {c : Channel.System}
variable {received : List Nat} {ended : Bool} {pc qc : Pc}

theorem Tracks.pop {a : Action} {rest : List Action}
    (h : Tracks all (a :: rest) w c received ended pc qc) (ha : a.payload? w = none) :
    pc = .idle ∧ Tracks all rest w c received ended pc qc := by
  have hidle : pc = .idle := by
    rcases h.writer with hpc | ⟨_, _, msg, heq, hmsg, _⟩
    · exact hpc
    · cases heq
      rw [Action.payload?, hmsg] at ha
      simp at ha
  subst hidle
  refine ⟨rfl, { h with written := ?_, writer := .inl rfl }⟩
  have hwritten := h.written
  have hsame : payloads w (a :: rest) = payloads w rest := List.filterMap_cons_none ha
  rwa [toLink_idle, hsame] at hwritten

theorem Tracks.enter {a : Action} {rest : List Action} {msg : Message}
    (h : Tracks all program w c received ended .idle qc) (head : program = a :: rest)
    (writes : a.message? = some (w, msg)) :
    Tracks all program w (c.goto 0 (.link msg)) received ended (.link msg) qc := by
  obtain ⟨nodes, hnodes⟩ := h.accounted
  have hat : c.threads[0]? = some .idle := by rw [h.threads]; rfl
  refine { h with threads := ?_, accounted := ⟨nodes, hnodes.goto hat rfl rfl⟩, writer := ?_ }
  · rw [System.goto, h.threads]
    rfl
  · exact .inr ⟨a, rest, msg, head, writes, .inl rfl⟩

theorem size_of_message? {a : Action} {msg : Message} (h : a.message? = some (w, msg)) :
    msg.payload = none ∨ msg.size = w.size := by
  cases a with
  | write v buf =>
      cases h
      exact .inr rfl
  | finish v =>
      cases h
      exact .inl rfl
  | join v => cases h

theorem payloads_cons {a : Action} {rest : List Action} {msg : Message}
    (h : a.message? = some (w, msg)) : payloads w (a :: rest) = msg.payload :: payloads w rest := by
  refine List.filterMap_cons_some ?_
  rw [Action.payload?, h]
  simp

theorem Tracks.link {a : Nat} {msg : Message}
    (h : Tracks all program w c received ended (.link msg) qc) (fresh : c.queue.nodes a = none) :
    Tracks all program w (linked c a msg) received ended .post qc := by
  obtain ⟨nodes, hnodes⟩ := h.accounted
  have hat : c.threads[0]? = some (.link msg) := by rw [h.threads]; rfl
  obtain ⟨n, hn⟩ := h.room
  obtain ⟨b, rest, hprogram, hmsg⟩ :
      ∃ b rest, program = b :: rest ∧ b.message? = some (w, msg) := by
    rcases h.writer with hpc | ⟨b, rest, msg', hprogram, hmsg, hpc | hpc⟩
    · cases hpc
    · cases hpc
      exact ⟨b, rest, hprogram, hmsg⟩
    · cases hpc
  have hwritten := h.written
  rw [toLink_link, hprogram, payloads_cons hmsg] at hwritten
  exact
    { threads := by
        show (c.goto 0 .post).threads = _
        rw [System.goto, h.threads]
        rfl
      accounted := hnodes.step (.link hat fresh)
      room := ⟨max n (a + 1), fun b hb => LinkedQueue.nodes_enqueue (by omega) (hn b (by omega))⟩
      written := by
        rw [toLink, if_pos rfl, hprogram, List.tail_cons]
        show (c.hist.linked ++ _).map _ ++ _ = all
        rw [List.map_append, List.append_assoc]
        exact hwritten
      writer := .inr ⟨b, rest, msg, hprogram, hmsg, .inr rfl⟩
      reader := h.reader
      read := h.read
      sizes := by
        intro m hm
        rcases List.mem_append.mp hm with hm | hm
        · exact h.sizes m hm
        · cases List.mem_singleton.mp hm
          exact size_of_message? hmsg }

theorem Tracks.post {a : Action} {rest : List Action}
    (h : Tracks all (a :: rest) w c received ended .post qc) :
    Tracks all rest w (posted c) received ended .idle qc := by
  obtain ⟨nodes, hnodes⟩ := h.accounted
  have hat : c.threads[0]? = some .post := by rw [h.threads]; rfl
  exact
    { threads := by
        show (c.goto 0 .idle).threads = _
        rw [System.goto, h.threads]
        rfl
      accounted := hnodes.step (.semPost hat)
      room := h.room
      written := h.written
      writer := .inl rfl
      reader := h.reader
      read := h.read
      sizes := h.sizes }

theorem Tracks.call (h : Tracks all program w c received false pc .idle) :
    Tracks all program w (c.goto 1 (.wait .readBlock w.size)) received false pc
      (.wait .readBlock w.size) := by
  obtain ⟨nodes, hnodes⟩ := h.accounted
  have hat : c.threads[1]? = some .idle := by rw [h.threads]; rfl
  refine { h with threads := ?_, accounted := ⟨nodes, hnodes.goto hat rfl rfl⟩, reader := ?_ }
  · rw [System.goto, h.threads]
    rfl
  · exact .inr ⟨rfl, .inl rfl⟩

theorem Tracks.wait {bufsize : Nat}
    (h : Tracks all program w c received ended pc (.wait .readBlock bufsize))
    (value : 0 < c.sem) :
    Tracks all program w (passed c bufsize) received ended pc (.take bufsize) := by
  obtain ⟨nodes, hnodes⟩ := h.accounted
  have hat : c.threads[1]? = some (.wait .readBlock bufsize) := by rw [h.threads]; rfl
  exact
    { threads := by
        show (c.goto 1 (.take bufsize)).threads = _
        rw [System.goto, h.threads]
        rfl
      accounted := hnodes.step (.semWait hat value)
      room := h.room
      written := h.written
      writer := h.writer
      reader := by
        rcases h.reader with hqc | ⟨hended, hqc | hqc⟩
        · cases hqc
        · cases hqc
          exact .inr ⟨hended, .inr rfl⟩
        · cases hqc
      read := h.read
      sizes := h.sizes }

/-- What was read, what is in the channel and what has still to be written are all there is. -/
theorem Tracks.conserved (h : Tracks all program w c received ended pc qc) :
    ∃ nodes, Accounted c nodes ∧
      c.hist.reads.length = received.length + (if ended then [(none : Option Nat)] else []).length ∧
      (received.map some ++ if ended then [none] else []) ++
        (nodes.map (·.2.message.payload) ++ payloads w (toLink program pc)) = all := by
  obtain ⟨nodes, hnodes⟩ := h.accounted
  have hlength := congrArg List.length h.read
  rw [List.length_map, List.length_append, List.length_map] at hlength
  refine ⟨nodes, hnodes, hlength, ?_⟩
  rw [← h.read, ← h.written, hnodes.order, List.map_append, List.map_map, List.map_map,
    List.append_assoc]
  rfl

theorem readReturn_of_size {msg : Message} (h : msg.payload = none ∨ msg.size = w.size) :
    (msg.payload = none ∧ block (readReturn w.size msg) = [] ∧
      ends (readReturn w.size msg) = true) ∨
    ∃ buf, msg.payload = some buf ∧ block (readReturn w.size msg) = [buf] ∧
      ends (readReturn w.size msg) = false := by
  cases hpayload : msg.payload with
  | none =>
      have hreturn : readReturn w.size msg = .channelEnd := by rw [readReturn, hpayload]
      rw [hreturn]
      exact .inl ⟨rfl, rfl, rfl⟩
  | some buf =>
      have hsize := h.resolve_left (by rw [hpayload]; nofun)
      have hreturn := readReturn_expected (.inr hsize.symm)
      rw [hpayload] at hreturn
      rw [hreturn]
      exact .inr ⟨buf, rfl, rfl, rfl⟩

theorem Tracks.take {bufsize : Nat} {m : Linked} {rest : LinkedQueue.Queue Nat Linked}
    (h : Tracks all program w c received ended pc (.take bufsize))
    (head : c.queue.dequeue = some (m, rest)) :
    Tracks all program w (taken c bufsize m rest)
      (received ++ block (readReturn bufsize m.message)) (ends (readReturn bufsize m.message))
      pc .idle := by
  obtain ⟨nodes, hnodes⟩ := h.accounted
  have hat : c.threads[1]? = some (.take bufsize) := by rw [h.threads]; rfl
  obtain ⟨nodes', hnodes'⟩ := hnodes.step (.take hat head)
  obtain ⟨rfl, rfl⟩ : ended = false ∧ bufsize = w.size := by
    rcases h.reader with hqc | ⟨hended, hqc | hqc⟩
    · cases hqc
    · cases hqc
    · cases hqc
      exact ⟨hended, rfl⟩
  -- the message is one of those that were linked
  have hmem : m ∈ c.hist.linked := by
    have horder : c.hist.linked = (c.hist.reads ++ _).map (·.linked) ++ nodes'.map Prod.snd :=
      hnodes'.order
    rw [horder]
    simp
  obtain ⟨n, hn⟩ := h.room
  have hread := h.read
  exact
    { threads := by
        show (c.goto 1 .idle).threads = _
        rw [System.goto, h.threads]
        rfl
      accounted := ⟨nodes', hnodes'⟩
      room := ⟨n, fun b hb => LinkedQueue.nodes_dequeue head (hn b hb)⟩
      written := h.written
      writer := h.writer
      reader := .inl rfl
      read := by
        show (c.hist.reads ++ _).map _ = _
        rw [List.map_append, hread]
        rcases readReturn_of_size (h.sizes m hmem) with
          ⟨hnone, hblock, hends⟩ | ⟨buf, hbuf, hblock, hends⟩
        · rw [hblock, hends]
          simp [hnone]
        · rw [hblock, hends]
          simp [hbuf]
      sizes := h.sizes }

end

/-! ## All threads -/

/-- A program that ends every stream once, with nothing behind the end, and joins a
thread only behind that. -/
structure WellFormed (sent : Worker → List Nat) (whole : List Action) : Prop where
  payloads : ∀ w, payloads w whole = (sent w).map some ++ [none]
  joins : ∀ {w rest}, .join w :: rest <:+ whole → Pipeline.payloads w rest = []

/-- Where a run of the program `whole` can be. -/
structure Running (whole : List Action) (s : State) : Prop where
  behind : s.program <:+ whole
  tracks : ∀ w, ∃ pc qc, Tracks (payloads w whole) s.program w (s.chan w) (s.received w)
    (s.ended w) pc qc
  /-- A thread that was joined has ended. -/
  joined : ∀ w, .join w ∈ whole → .join w ∉ s.program → s.ended w = true

theorem running_start (whole : List Action) : Running whole (.start whole) where
  behind := List.suffix_refl _
  tracks := fun w => ⟨.idle, .idle, tracks_start whole w⟩
  joined := fun _ hmem hnot => absurd hmem hnot

section
variable {whole : List Action} {s t : State}

theorem Running.update (h : Running whole s) {program : List Action} {w : Worker}
    {c : Channel.System} {received : List Nat} {ended : Bool}
    (behind : program <:+ whole)
    (joined : ∀ v, .join v ∈ whole → .join v ∉ program →
      Function.update s.ended w ended v = true)
    (here : ∃ pc qc, Tracks (payloads w whole) program w c received ended pc qc)
    (others : ∀ v pc qc, v ≠ w →
      Tracks (payloads v whole) s.program v (s.chan v) (s.received v) (s.ended v) pc qc →
      Tracks (payloads v whole) program v (s.chan v) (s.received v) (s.ended v) pc qc) :
    Running whole
      { program, chan := Function.update s.chan w c,
        received := Function.update s.received w received,
        ended := Function.update s.ended w ended } := by
  refine ⟨behind, fun v => ?_, joined⟩
  by_cases hv : v = w
  · subst hv
    simpa only [Function.update_self] using here
  · obtain ⟨pc, qc, htracks⟩ := h.tracks v
    refine ⟨pc, qc, ?_⟩
    simpa only [Function.update_of_ne hv] using others v pc qc hv htracks

theorem Running.updateChan (h : Running whole s) {w : Worker} {c : Channel.System}
    (here : ∃ pc qc, Tracks (payloads w whole) s.program w c (s.received w) (s.ended w) pc qc) :
    Running whole { s with chan := Function.update s.chan w c } := by
  have hjoined : ∀ v, .join v ∈ whole → .join v ∉ s.program →
      Function.update s.ended w (s.ended w) v = true := by
    rw [Function.update_eq_self]
    exact h.joined
  have hall := h.update h.behind hjoined here fun _ _ _ _ => id
  simpa only [Function.update_eq_self] using hall

theorem Running.step (h : Running whole s) (hstep : Step s t) : Running whole t := by
  cases hstep with
  | @enter a rest w msg head writes at_ =>
      obtain ⟨pc, qc, htracks⟩ := h.tracks w
      rw [htracks.threads] at at_
      cases at_
      exact h.updateChan ⟨_, _, htracks.enter head writes⟩
  | @link w a msg at_ fresh =>
      obtain ⟨pc, qc, htracks⟩ := h.tracks w
      rw [htracks.threads] at at_
      cases at_
      exact h.updateChan ⟨_, _, htracks.link fresh⟩
  | @post a rest w head at_ =>
      obtain ⟨pc, qc, htracks⟩ := h.tracks w
      rw [htracks.threads] at at_
      cases at_
      obtain ⟨msg, hmsg⟩ : ∃ msg, a.message? = some (w, msg) := by
        rcases htracks.writer with hpc | ⟨b, rest', msg, heq, hmsg, _⟩
        · cases hpc
        · cases head.symm.trans heq
          exact ⟨msg, hmsg⟩
      rw [head] at htracks
      have hjoined : ∀ v, .join v ∈ whole → .join v ∉ rest →
          Function.update s.ended w (s.ended w) v = true := by
        rw [Function.update_eq_self]
        intro v hmem hnot
        refine h.joined v hmem ?_
        rw [head, List.mem_cons, not_or]
        refine ⟨?_, hnot⟩
        rintro rfl
        cases hmsg
      have hall := h.update (List.IsSuffix.trans (List.suffix_cons a rest) (head ▸ h.behind))
        hjoined ⟨_, _, htracks.post⟩ ?_
      · simpa only [Function.update_eq_self] using hall
      · intro v pc qc hv hother
        rw [head] at hother
        refine (hother.pop ?_).2
        rw [Action.payload?, hmsg]
        simp [Ne.symm hv]
  | @join w rest head ended =>
      refine ⟨List.IsSuffix.trans (List.suffix_cons _ rest) (head ▸ h.behind), fun v => ?_, ?_⟩
      · obtain ⟨pc, qc, htracks⟩ := h.tracks v
        rw [head] at htracks
        exact ⟨pc, qc, (htracks.pop rfl).2⟩
      · intro v hmem hnot
        by_cases hv : v = w
        · rw [hv]
          exact ended
        · refine h.joined v hmem ?_
          rw [head, List.mem_cons, not_or]
          exact ⟨fun heq => hv (Action.join.inj heq), hnot⟩
  | @read w running at_ =>
      obtain ⟨pc, qc, htracks⟩ := h.tracks w
      rw [htracks.threads] at at_
      cases at_
      rw [running] at htracks
      refine h.updateChan ⟨pc, .wait .readBlock w.size, ?_⟩
      rw [running]
      exact htracks.call
  | @wait w bufsize at_ value =>
      obtain ⟨pc, qc, htracks⟩ := h.tracks w
      rw [htracks.threads] at at_
      cases at_
      exact h.updateChan ⟨_, _, htracks.wait value⟩
  | @take w bufsize m rest at_ head =>
      obtain ⟨pc, qc, htracks⟩ := h.tracks w
      rw [htracks.threads] at at_
      cases at_
      have running := (htracks.reader.resolve_left nofun).1
      refine h.update h.behind ?_ ⟨_, _, htracks.take head⟩ fun _ _ _ _ => id
      intro v hmem hnot
      have hended := h.joined v hmem hnot
      by_cases hv : v = w
      · rw [hv, running] at hended
        cases hended
      · rw [Function.update_of_ne hv]
        exact hended

/-! ### Something can be done -/

/-- A reader that has not ended finds a message, or is on its way to one, when all that is
meant for it was written. -/
theorem Running.reader_moves (h : Running whole s) {sent : Worker → List Nat}
    (hwhole : WellFormed sent whole) {w : Worker} (running : s.ended w = false)
    (hwritten : payloads w s.program = []) : ∃ t, Step s t := by
  obtain ⟨pc, qc, htracks⟩ := h.tracks w
  obtain ⟨nodes, hnodes, -, hall⟩ := htracks.conserved
  have hpc : pc = .idle := by
    rcases htracks.writer with hpc | ⟨a, rest, msg, hprogram, hmsg, _⟩
    · exact hpc
    · rw [hprogram, payloads_cons hmsg] at hwritten
      cases hwritten
  subst hpc
  have hat : (s.chan w).threads[1]? = some qc := by rw [htracks.threads]; rfl
  rcases htracks.reader with rfl | ⟨_, rfl | rfl⟩
  · exact ⟨_, .read running hat⟩
  · -- the end was written and not read, so the semaphore counts it
    refine ⟨_, .wait hat ?_⟩
    have hne : nodes ≠ [] := by
      rintro rfl
      have hnone : none ∈ (s.received w).map some := by
        have hmem : none ∈ payloads w whole := by
          rw [hwhole.payloads]
          exact List.mem_append_right _ (List.mem_singleton_self none)
        rw [← hall, running, toLink_idle, hwritten] at hmem
        simpa only [List.append_nil, List.map_nil, if_neg Bool.false_ne_true] using hmem
      simp at hnone
    have hcount := hnodes.count
    have hpos := List.length_pos_of_ne_nil hne
    rw [htracks.threads] at hcount
    simp [Pc.toTake, Pc.toPost] at hcount
    omega
  · obtain ⟨⟨a, m⟩, rest, hcons⟩ := List.exists_cons_of_ne_nil (hnodes.nonempty hat)
    obtain ⟨q, hq, _⟩ := (hcons ▸ hnodes.holds : LinkedQueue.Holds _ ((a, m) :: rest)).dequeue
    exact ⟨_, .take hat hq⟩

theorem Running.writer_moves (h : Running whole s) {a : Action} {rest : List Action} {w : Worker}
    {msg : Message} (head : s.program = a :: rest) (hmsg : a.message? = some (w, msg)) :
    ∃ t, Step s t := by
  obtain ⟨pc, qc, htracks⟩ := h.tracks w
  have hat : (s.chan w).threads[0]? = some pc := by rw [htracks.threads]; rfl
  rcases htracks.writer with rfl | ⟨_, _, msg', _, _, rfl | rfl⟩
  · exact ⟨_, .enter head hmsg hat⟩
  · obtain ⟨n, hn⟩ := htracks.room
    exact ⟨_, .link hat (hn n (Nat.le_refl n))⟩
  · exact ⟨_, .post head hat⟩

/-- Nothing is left to do for the main loop or for a reader. -/
def State.Ended (s : State) : Prop := s.program = [] ∧ ∀ w, s.ended w = true

/-- No thread waits for another in vain. -/
theorem Running.moves (h : Running whole s) {sent : Worker → List Nat}
    (hwhole : WellFormed sent whole) (hgoes : ¬ s.Ended) : ∃ t, Step s t := by
  cases hprogram : s.program with
  | nil =>
      obtain ⟨w, hw⟩ : ∃ w, s.ended w ≠ true := by
        by_contra hall
        exact hgoes ⟨hprogram, fun w => by_contra fun hw => hall ⟨w, hw⟩⟩
      refine h.reader_moves hwhole (eq_false_of_ne_true hw) ?_
      rw [hprogram]
      rfl
  | cons a rest =>
      cases hmsg : a.message? with
      | some x => exact h.writer_moves hprogram hmsg
      | none =>
          cases a with
          | write w buf => cases hmsg
          | finish w => cases hmsg
          | join w =>
              cases hended : s.ended w with
              | true => exact ⟨_, .join hprogram hended⟩
              | false =>
                  refine h.reader_moves hwhole hended ?_
                  have hbehind := h.behind
                  rw [hprogram] at hbehind ⊢
                  exact (List.filterMap_cons_none rfl).trans (hwhole.joins hbehind)

/-! ### What is left to do -/

/-- The steps of a call that the main loop is in, or will enter. -/
def writerLeft : Option Pc → Nat
  | some (.link _) => 2
  | some .post => 1
  | _ => 3

/-- The steps of a call that a reader has made. -/
def readerDone : Option Pc → Nat
  | some (.wait _ _) => 1
  | some (.take _) => 2
  | _ => 0

def Action.cost : Action → Nat
  | .join _ => 1
  | _ => 3

/-- The steps that the next action still takes. -/
def headLeft (chan : Worker → Channel.System) (a : Action) : Nat :=
  match a.message? with
  | some (w, _) => writerLeft (chan w).threads[0]?
  | none => 1

/-- The steps of the main loop. -/
def mainLeft (chan : Worker → Channel.System) : List Action → Nat
  | [] => 0
  | a :: rest => headLeft chan a + (rest.map Action.cost).sum

/-- The steps of a reader, if `n` messages are meant for it. -/
def readerLeft (n : Nat) (c : Channel.System) (ended : Bool) : Nat :=
  if ended then 0 else 3 * (n - c.hist.reads.length) - readerDone c.threads[1]?

def left (whole : List Action) (s : State) : Nat :=
  mainLeft s.chan s.program +
    (readerLeft (payloads .step whole).length (s.chan .step) (s.ended .step) +
      readerLeft (payloads .heap whole).length (s.chan .heap) (s.ended .heap) +
      readerLeft (payloads .mem whole).length (s.chan .mem) (s.ended .mem))

theorem left_lt_of_main (hmain : mainLeft t.chan t.program < mainLeft s.chan s.program)
    (hreaders : ∀ w n, readerLeft n (t.chan w) (t.ended w) = readerLeft n (s.chan w) (s.ended w)) :
    left whole t < left whole s := by
  unfold left
  rw [hreaders, hreaders, hreaders]
  omega

theorem left_lt_of_reader (hmain : mainLeft t.chan t.program = mainLeft s.chan s.program)
    (w : Worker)
    (hreader : readerLeft (payloads w whole).length (t.chan w) (t.ended w) <
      readerLeft (payloads w whole).length (s.chan w) (s.ended w))
    (hothers : ∀ v, v ≠ w → t.chan v = s.chan v ∧ t.ended v = s.ended v) :
    left whole t < left whole s := by
  have hle : ∀ v, readerLeft (payloads v whole).length (t.chan v) (t.ended v) ≤
      readerLeft (payloads v whole).length (s.chan v) (s.ended v) := by
    intro v
    by_cases hv : v = w
    · rw [hv]
      exact Nat.le_of_lt hreader
    · obtain ⟨hchan, hended⟩ := hothers v hv
      rw [hchan, hended]
  have hstep := hle .step
  have hheap := hle .heap
  have hmem := hle .mem
  unfold left
  rw [hmain]
  cases w <;> omega

theorem Tracks.reads_lt {all : List (Option Nat)} {program : List Action} {w : Worker}
    {c : Channel.System} {received : List Nat} {pc qc : Pc}
    (h : Tracks all program w c received false pc qc) (hnone : none ∈ all) :
    c.hist.reads.length < all.length := by
  obtain ⟨nodes, _, hlength, hall⟩ := h.conserved
  rw [← hall, List.mem_append] at hnone
  have hrest := List.length_pos_of_mem (hnone.resolve_left (by simp))
  have hsum := congrArg List.length hall
  simp only [List.length_append, List.length_map, if_neg Bool.false_ne_true, List.length_nil]
    at hlength hsum hrest
  omega

section
variable (c : Channel.System)

/-- The reader does not see the difference between two states of its channel. -/
def SameReader (c' : Channel.System) : Prop :=
  c'.hist.reads = c.hist.reads ∧ c'.threads[1]? = c.threads[1]?

theorem sameReader_goto (pc : Pc) : SameReader c (c.goto 0 pc) :=
  ⟨rfl, List.getElem?_set_ne (by decide)⟩

theorem writer_goto (pc : Pc) : (c.goto 1 pc).threads[0]? = c.threads[0]? :=
  List.getElem?_set_ne (by decide)

theorem sameReader_linked (a : Nat) (msg : Message) : SameReader c (linked c a msg) :=
  sameReader_goto c .post

theorem sameReader_posted : SameReader c (posted c) := sameReader_goto c .idle

theorem writer_passed (bufsize : Nat) : (passed c bufsize).threads[0]? = c.threads[0]? :=
  writer_goto c (.take bufsize)

theorem writer_taken (bufsize : Nat) (m : Linked) (rest : LinkedQueue.Queue Nat Linked) :
    (taken c bufsize m rest).threads[0]? = c.threads[0]? := writer_goto c .idle

end

theorem getElem?_goto_self {c : Channel.System} {i : Nat} {pc pc' : Pc}
    (h : c.threads[i]? = some pc) : (c.goto i pc').threads[i]? = some pc' := by
  rw [System.goto, List.getElem?_set_self]
  exact (List.getElem?_eq_some_iff.mp h).1

theorem readerLeft_update {c : Channel.System} {w : Worker} (h : SameReader (s.chan w) c)
    (v : Worker) (n : Nat) :
    readerLeft n (Function.update s.chan w c v) (s.ended v) =
      readerLeft n (s.chan v) (s.ended v) := by
  by_cases hv : v = w
  · subst hv
    rw [Function.update_self, readerLeft, readerLeft, h.1, h.2]
  · rw [Function.update_of_ne hv]

theorem mainLeft_update {c : Channel.System} {w : Worker}
    (hthread : c.threads[0]? = (s.chan w).threads[0]?) (program : List Action) :
    mainLeft (Function.update s.chan w c) program = mainLeft s.chan program := by
  cases program with
  | nil => rfl
  | cons a rest =>
      have hhead : headLeft (Function.update s.chan w c) a = headLeft s.chan a := by
        unfold headLeft
        split
        · next v _ _ =>
            by_cases hv : v = w
            · rw [hv, Function.update_self, hthread]
            · rw [Function.update_of_ne hv]
        · rfl
      rw [mainLeft, hhead, mainLeft]

theorem mainLeft_cons {chan : Worker → Channel.System} {a : Action} {rest : List Action}
    {w : Worker} {msg : Message} (writes : a.message? = some (w, msg)) :
    mainLeft chan (a :: rest) =
      writerLeft (chan w).threads[0]? + (rest.map Action.cost).sum := by
  rw [mainLeft, headLeft, writes]

/-- No action takes more steps than it costs. -/
theorem mainLeft_le (chan : Worker → Channel.System) (program : List Action) :
    mainLeft chan program ≤ (program.map Action.cost).sum := by
  have hwriter : ∀ pc, writerLeft pc ≤ 3 := by
    intro pc
    unfold writerLeft
    split <;> decide
  cases program with
  | nil => exact Nat.le_refl 0
  | cons a rest =>
      rw [mainLeft, List.map_cons, List.sum_cons]
      refine Nat.add_le_add_right ?_ _
      cases a with
      | join w => exact Nat.le_refl 1
      | write w buf => exact hwriter _
      | finish w => exact hwriter _

theorem Running.left_lt (h : Running whole s) (hfinish : ∀ w, none ∈ payloads w whole)
    (hstep : Step s t) : left whole t < left whole s := by
  cases hstep with
  | @enter a rest w msg head writes at_ =>
      refine left_lt_of_main ?_ (readerLeft_update (sameReader_goto _ _))
      show mainLeft (Function.update s.chan w _) s.program < _
      rw [head, mainLeft_cons writes, mainLeft_cons writes, at_, Function.update_self,
        getElem?_goto_self at_]
      exact Nat.add_lt_add_right (Nat.lt_succ_self 2) _
  | @link w a msg at_ fresh =>
      refine left_lt_of_main ?_ (readerLeft_update (sameReader_linked _ a msg))
      obtain ⟨pc, qc, htracks⟩ := h.tracks w
      rw [htracks.threads] at at_
      cases at_
      obtain ⟨b, rest, msg', head, writes, _⟩ := htracks.writer.resolve_left nofun
      have hat : (s.chan w).threads[0]? = some (.link msg) := by rw [htracks.threads]; rfl
      have hpost : (linked (s.chan w) a msg).threads[0]? = some .post := getElem?_goto_self hat
      show mainLeft (Function.update s.chan w _) s.program < _
      rw [head, mainLeft_cons writes, mainLeft_cons writes, hat, Function.update_self, hpost]
      exact Nat.add_lt_add_right (Nat.lt_succ_self 1) _
  | @post a rest w head at_ =>
      refine left_lt_of_main ?_ (readerLeft_update (sameReader_posted _))
      obtain ⟨pc, qc, htracks⟩ := h.tracks w
      have hat : (s.chan w).threads[0]? = some pc := by rw [htracks.threads]; rfl
      cases hat.symm.trans at_
      obtain ⟨b, rest', msg, head', writes, _⟩ := htracks.writer.resolve_left nofun
      cases head.symm.trans head'
      rw [head, mainLeft_cons writes, hat]
      have hle := mainLeft_le (Function.update s.chan w (posted (s.chan w))) rest
      exact Nat.lt_of_le_of_lt hle (Nat.lt_add_of_pos_left (by decide))
  | @join w rest head ended =>
      refine left_lt_of_main ?_ fun v n => rfl
      rw [head]
      exact Nat.lt_of_le_of_lt (mainLeft_le s.chan rest) (Nat.lt_add_of_pos_left Nat.one_pos)
  | @read w running at_ =>
      obtain ⟨pc, qc, htracks⟩ := h.tracks w
      rw [running] at htracks
      have hlt := htracks.reads_lt (hfinish w)
      refine left_lt_of_reader (mainLeft_update (writer_goto _ _) _) w ?_ fun v hv =>
        ⟨Function.update_of_ne hv .., rfl⟩
      show readerLeft _ (Function.update s.chan w _ w) (s.ended w) < _
      rw [Function.update_self, readerLeft, readerLeft, running, getElem?_goto_self at_, at_]
      simp only [System.goto, readerDone, Bool.false_eq_true, if_false]
      omega
  | @wait w bufsize at_ value =>
      obtain ⟨pc, qc, htracks⟩ := h.tracks w
      have hat : (s.chan w).threads[1]? = some qc := by rw [htracks.threads]; rfl
      cases hat.symm.trans at_
      have running := (htracks.reader.resolve_left nofun).1
      rw [running] at htracks
      have hlt := htracks.reads_lt (hfinish w)
      have htake : (passed (s.chan w) bufsize).threads[1]? = some (.take bufsize) :=
        getElem?_goto_self hat
      refine left_lt_of_reader (mainLeft_update (writer_passed _ bufsize) _) w ?_ fun v hv =>
        ⟨Function.update_of_ne hv .., rfl⟩
      show readerLeft _ (Function.update s.chan w _ w) (s.ended w) < _
      rw [Function.update_self, readerLeft, readerLeft, running, htake, hat]
      simp only [passed, System.goto, readerDone, Bool.false_eq_true, if_false]
      omega
  | @take w bufsize m rest at_ head =>
      obtain ⟨pc, qc, htracks⟩ := h.tracks w
      have hat : (s.chan w).threads[1]? = some qc := by rw [htracks.threads]; rfl
      cases hat.symm.trans at_
      have running := (htracks.reader.resolve_left nofun).1
      rw [running] at htracks
      have hlt := htracks.reads_lt (hfinish w)
      have hidle : (taken (s.chan w) bufsize m rest).threads[1]? = some .idle :=
        getElem?_goto_self hat
      refine left_lt_of_reader (mainLeft_update (writer_taken _ bufsize m rest) _) w ?_ fun v hv =>
        ⟨Function.update_of_ne hv .., Function.update_of_ne hv ..⟩
      show readerLeft _ (Function.update s.chan w _ w) (Function.update s.ended w _ w) < _
      rw [Function.update_self, Function.update_self, readerLeft, readerLeft, running, hidle, hat]
      simp only [taken, System.goto, readerDone, Bool.false_eq_true, if_false, List.length_append,
        List.length_singleton]
      split <;> omega

/-! ### The end -/

/-- All threads have ended, each with what was meant for it, and the channels are empty. -/
structure Finished (sent : Worker → List Nat) (s : State) : Prop where
  program : s.program = []
  ended : ∀ w, s.ended w = true
  received : ∀ w, s.received w = sent w
  empty : ∀ w, (s.chan w).queue.head = none

theorem eq_of_end_prefix {received sent : List Nat} {rest : List (Option Nat)}
    (h : (received.map some ++ [none]) ++ rest = sent.map some ++ [none]) :
    received = sent ∧ rest = [] := by
  induction received generalizing sent with
  | nil =>
      cases sent with
      | nil => exact ⟨rfl, (List.cons.inj h).2⟩
      | cons b sent => cases (List.cons.inj h).1
  | cons a received ih =>
      cases sent with
      | nil => cases (List.cons.inj h).1
      | cons b sent =>
          obtain ⟨hab, hrest⟩ := List.cons.inj h
          obtain ⟨hsame, hnil⟩ := ih hrest
          exact ⟨by rw [Option.some.inj hab, hsame], hnil⟩

/-- A thread that has ended has read everything, and `ch_destroy` finds no message. -/
theorem Running.received_eq (h : Running whole s) {sent : Worker → List Nat}
    (hwhole : WellFormed sent whole) {w : Worker} (hended : s.ended w = true) :
    s.received w = sent w ∧ (s.chan w).queue.head = none := by
  obtain ⟨pc, qc, htracks⟩ := h.tracks w
  obtain ⟨nodes, hnodes, -, hall⟩ := htracks.conserved
  rw [hended, if_pos rfl, hwhole.payloads] at hall
  obtain ⟨hsame, hrest⟩ := eq_of_end_prefix hall
  obtain ⟨hnil, -⟩ := List.append_eq_nil_iff.mp hrest
  have hholds := hnodes.holds
  rw [List.map_eq_nil_iff.mp hnil] at hholds
  exact ⟨hsame, hholds.chain⟩

theorem Running.finished (h : Running whole s) {sent : Worker → List Nat}
    (hwhole : WellFormed sent whole) (hstuck : ∀ t, ¬ Step s t) : Finished sent s := by
  obtain ⟨hprogram, hended⟩ : s.Ended := by
    by_contra hgoes
    obtain ⟨t, ht⟩ := h.moves hwhole hgoes
    exact hstuck t ht
  exact ⟨hprogram, hended, fun w => (h.received_eq hwhole (hended w)).1,
    fun w => (h.received_eq hwhole (hended w)).2⟩

theorem WellFormed.winds {sent : Worker → List Nat} (hwhole : WellFormed sent whole) :
    Winds Step (Running whole) (left whole) where
  keeps := fun h hstep => h.step hstep
  uses := fun h hstep => h.left_lt
    (fun w => hwhole.payloads w ▸ List.mem_append_right _ (List.mem_singleton_self none)) hstep

end

/-! ## The recording -/

/-- What is written for a thread. -/
def sent (writes : List (Worker × Nat)) (w : Worker) : List Nat :=
  (writes.filter fun x => x.1 = w).map Prod.snd

theorem payloads_record (writes : List (Worker × Nat)) (w : Worker) :
    payloads w (record writes) = (sent writes w).map some ++ [none] := by
  induction writes with
  | nil => cases w <;> rfl
  | cons x writes ih =>
      obtain ⟨v, buf⟩ := x
      by_cases hv : v = w
      · subst hv
        have hcons : payloads v (record ((v, buf) :: writes)) =
            some buf :: payloads v (record writes) :=
          @payloads_cons v (.write v buf) (record writes)
            { payload := some buf, size := v.size } rfl
        rw [hcons, ih, sent, sent, List.filter_cons_of_pos (by simp)]
        rfl
      · have hcons : payloads w (record ((v, buf) :: writes)) = payloads w (record writes) := by
          refine List.filterMap_cons_none ?_
          simp [Action.payload?, Action.message?, hv]
        rw [hcons, ih, sent, sent, List.filter_cons_of_neg (by simpa using hv)]

theorem joins_record (writes : List (Worker × Nat)) {w : Worker} {rest : List Action}
    (h : .join w :: rest <:+ record writes) : payloads w rest = [] := by
  induction writes with
  | nil =>
      have htails := (List.mem_tails _ _).mpr h
      simp [record, waitDbWorker] at htails
      rcases htails with ⟨rfl, rfl⟩ | ⟨rfl, rfl⟩ | ⟨rfl, rfl⟩ <;> rfl
  | cons x writes ih =>
      rcases List.suffix_cons_iff.mp h with heq | h
      · cases heq
      · exact ih h

theorem wellFormed_record (writes : List (Worker × Nat)) :
    WellFormed (sent writes) (record writes) where
  payloads := payloads_record writes
  joins := joins_record writes

theorem length_sent (writes : List (Worker × Nat)) :
    (sent writes .step).length + (sent writes .heap).length + (sent writes .mem).length =
      writes.length := by
  induction writes with
  | nil => rfl
  | cons x writes ih =>
      obtain ⟨v, buf⟩ := x
      simp only [sent, List.length_map, List.filter_cons, List.length_cons] at ih ⊢
      cases v <;> simp <;> omega

theorem left_record_le (writes : List (Worker × Nat)) :
    left (record writes) (.start (record writes)) ≤ 6 * writes.length + 21 := by
  have hmain : ((record writes).map Action.cost).sum = 3 * writes.length + 12 := by
    induction writes with
    | nil => rfl
    | cons x writes ih =>
        show 3 + ((record writes).map Action.cost).sum = _
        rw [ih, List.length_cons]
        omega
  have hle := mainLeft_le (State.start (record writes)).chan (record writes)
  have hlength := length_sent writes
  have hreader : ∀ w, readerLeft (payloads w (record writes)).length (.start 2) false =
      3 * ((sent writes w).length + 1) := by
    intro w
    rw [payloads_record, List.length_append, List.length_map]
    rfl
  unfold left
  simp only [State.start] at hle ⊢
  rw [hreader, hreader, hreader]
  omega

/-- **The recording comes to an end.**  Where the main loop alone writes and every thread reads
to the end of its stream, a run takes at most six steps for a message and 21 more, whatever
the order of the steps; it stops only when the main loop has joined all threads.  A thread
that was joined has read what was written for it, all of it and in order, and left its
channel empty. -/
theorem recording_completes {writes : List (Worker × Nat)} {n : Nat} {s : State}
    (run : Completion.Run Step (.start (record writes)) n s) :
    n ≤ 6 * writes.length + 21 ∧ (∃ m t, Completion.Run Step s m t ∧ Finished (sent writes) t) ∧
      ((∀ t, ¬ Step s t) → Finished (sent writes) s) ∧
      ∀ w, .join w ∉ s.program → s.received w = sent writes w ∧ (s.chan w).queue.head = none := by
  have hwhole := wellFormed_record writes
  have hstart := running_start (record writes)
  obtain ⟨hs, -⟩ := hwhole.winds.run hstart run
  refine ⟨Nat.le_trans (hwhole.winds.run_le hstart run) (left_record_le writes), ?_,
    hs.finished hwhole, fun w hw => ?_⟩
  · obtain ⟨m, t, hrun, ht, hend⟩ := hwhole.winds.completes hs
    exact ⟨m, t, hrun, ht.finished hwhole hend⟩
  · refine hs.received_eq hwhole (hs.joined w ?_ hw)
    cases w <;> simp [record, waitDbWorker]

theorem recording_completes_oneStep :
    ∃ s, Completion.Run Step (.start (record [(.step, 7)])) 1 s ∧ (1 ≤ 6 * 1 + 21 ∧
      ∃ m t, Completion.Run Step s m t ∧ Finished (sent [(.step, 7)]) t) := by
  have run : Completion.Run Step (.start (record [(.step, 7)])) 1 _ :=
    .tail .refl (.enter (w := .step) rfl rfl rfl)
  obtain ⟨hbound, hcompletes, _⟩ := recording_completes run
  exact ⟨_, run, hbound, hcompletes⟩

/-- What the messages are that the blocks hold. -/
structure Blocks where
  step : Nat → StepMsg
  heap : Nat → HeapMsg
  mem : Nat → MemMsg

/-- **What was handed over is in the database.**  When a run has come to its end and no
call to the database has failed, the three tables are what the main loop has written. -/
theorem recording_commits {writes : List (Worker × Nat)} {n : Nat} {s : State}
    (run : Completion.Run Step (.start (record writes)) n s) (done : ∀ t, ¬ Step s t)
    (blocks : Blocks) (env : Nat → Bool) :
    ((wrkInsertStep env ((s.received .step).map blocks.step)).2.Succeeded →
      (wrkInsertStep env ((s.received .step).map blocks.step)).2.committed =
        (sent writes .step).map fun buf => (blocks.step buf).row) ∧
    ((wrkInsertHeap env ((s.received .heap).map blocks.heap)).2.Succeeded →
      (wrkInsertHeap env ((s.received .heap).map blocks.heap)).2.committed.fr =
        some (((sent writes .heap).map blocks.heap).foldl applyHeap [])) ∧
    ((wrkInsertMem env ((s.received .mem).map blocks.mem)).2.Succeeded →
      (wrkInsertMem env ((s.received .mem).map blocks.mem)).2.committed.fr =
        some ((sent writes .mem).map blocks.mem)) := by
  have hwhole := wellFormed_record writes
  obtain ⟨hs, -⟩ := hwhole.winds.run (running_start (record writes)) run
  have hfinished := hs.finished hwhole done
  rw [hfinished.received, hfinished.received, hfinished.received]
  refine ⟨fun h => ?_, fun h => (wrkInsertHeap_commits h).2, fun h => (wrkInsertMem_commits h).2⟩
  rw [(wrkInsertStep_commits h).2, List.map_map]
  rfl

theorem recording_commits_oneStep :
    ∃ n s, Completion.Run Step (.start (record [(.step, 7)])) n s ∧
      (wrkInsertStep (fun _ => true) ((s.received .step).map fun _ => ⟨1, 1, 5, 0x1000, []⟩)
        ).2.committed = [⟨⟨1, 0x1000, 1, 5⟩, []⟩] := by
  have hwhole := wellFormed_record [(.step, 7)]
  obtain ⟨n, s, run, hs, done⟩ := hwhole.winds.completes (running_start (record [(.step, 7)]))
  have hreceived : s.received .step = [7] := (hs.finished hwhole done).received .step
  refine ⟨n, s, run, (recording_commits run done
    ⟨fun _ => ⟨1, 1, 5, 0x1000, []⟩, fun _ => ⟨1, 0, 0⟩, fun _ => ⟨0, 0, []⟩⟩ _).1 ?_⟩
  rw [hreceived]
  decide

end FlightRec.Channel.Pipeline
