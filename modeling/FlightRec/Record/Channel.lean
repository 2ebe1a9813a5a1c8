/-
# `FlightRec.Record.Channel` — channels between threads

A channel is a linked list of messages under a mutex, and a semaphore that counts
them (record/channel.c).  A writer links its message first and posts the semaphore
afterwards; a reader passes the semaphore first and takes the message afterwards.
So the messages in the list are those the semaphore counts, those promised to
readers which passed it, and those whose writers did not post yet (`Accounted.count`).

`Step` is one atomic step of one thread: a semaphore operation, or the critical
section of `ch_write` or `ch_read` as a whole.  No call to the semaphore or the mutex
fails.  Whatever the threads do (`Reachable`), messages are read in the order they
were linked, each once, and no reader finds the list empty (`reachable_delivers`).
-/
import FlightRec.Lib.LinkedQueue
import Mathlib.Logic.Relation

namespace FlightRec.Channel

open LinkedQueue

/-! ## The calls -/

/-- The payload and its size; `ch_finish` sends NULL. -/
structure Message where
  payload : Option Nat
  size : Nat
  deriving DecidableEq, Repr

/-- A message in the list.  No thread reads the number; it tells messages apart. -/
structure Linked where
  number : Nat
  message : Message
  deriving DecidableEq, Repr

/-- `flag` of `ch_read`. -/
inductive ReadFlag where
  | readBlock
  | readNonblock
  deriving DecidableEq, Repr

/-- A call with its arguments. -/
inductive Call where
  | chWrite (buf : Option Nat) (bufsize : Nat)
  | chRead (flag : ReadFlag) (bufsize : Nat)
  deriving DecidableEq, Repr

def Call.chFinish : Call := .chWrite none 0

/-- What `ch_read` returns, with the buffer and size it stores. -/
inductive ReadReturn where
  | channelOk (buf size : Nat)
  | channelMisread
  | channelEnd
  | channelNodata
  deriving DecidableEq, Repr

/-- The end of `ch_read`, behind the critical section. -/
def readReturn (bufsize : Nat) (msg : Message) : ReadReturn :=
  match msg.payload with
  | none => .channelEnd
  | some buf =>
      if bufsize ≠ 0 ∧ bufsize ≠ msg.size then .channelMisread else .channelOk buf msg.size

theorem readReturn_expected {bufsize : Nat} {msg : Message}
    (h : bufsize = 0 ∨ bufsize = msg.size) :
    readReturn bufsize msg = match msg.payload with
      | some buf => .channelOk buf msg.size
      | none => .channelEnd := by
  unfold readReturn
  cases msg.payload with
  | none => rfl
  | some buf => exact if_neg fun hbad => h.elim hbad.1 hbad.2

/-- Where a thread is. -/
inductive Pc where
  /-- Outside of the calls. -/
  | idle
  /-- Before the critical section of `ch_write`. -/
  | link (msg : Message)
  /-- Before `sem_post`. -/
  | post
  /-- Before `sem_wait` or `sem_trywait`. -/
  | wait (flag : ReadFlag) (bufsize : Nat)
  /-- Before the critical section of `ch_read`. -/
  | take (bufsize : Nat)
  deriving DecidableEq, Repr

/-- Where a call begins. -/
def Call.entry : Call → Pc
  | .chWrite buf bufsize => .link { payload := buf, size := bufsize }
  | .chRead flag bufsize => .wait flag bufsize

/-- The message is linked, and the semaphore was not posted for it. -/
def Pc.toPost : Pc → Bool
  | .post => true
  | _ => false

/-- The reader passed the semaphore and did not take its message. -/
def Pc.toTake : Pc → Bool
  | .take _ => true
  | _ => false

/-! ## The steps -/

/-- A read that took a message. -/
structure Read where
  thread : Nat
  bufsize : Nat
  linked : Linked
  returned : ReadReturn
  deriving DecidableEq, Repr

/-- What has happened so far; no thread reads it. -/
structure History where
  /-- The messages in the order they were linked. -/
  linked : List Linked
  /-- The calls of `ch_write` that returned. -/
  writes : Nat
  /-- The calls of `ch_read` that took a message, in the order they did. -/
  reads : List Read

/-- `struct channel` and the threads.  The address of a message is that of its node. -/
structure System where
  sem : Nat
  queue : Queue Nat Linked
  threads : List Pc
  /-- A reader went to a message that is not there. -/
  crashed : Bool
  hist : History

/-- `ch_create`, with `n` threads around. -/
def System.start (n : Nat) : System where
  sem := 0
  queue := .empty
  threads := List.replicate n .idle
  crashed := false
  hist := { linked := [], writes := 0, reads := [] }

/-- A thread moves on. -/
def System.goto (s : System) (i : Nat) (pc : Pc) : System :=
  { s with threads := s.threads.set i pc }

/-- One step of thread `i`. -/
inductive Step : System → System → Prop
  | call {s : System} {i : Nat} (call : Call) (at_ : s.threads[i]? = some .idle) :
      Step s (s.goto i call.entry)
  -- `malloc` returns an address that is not in use
  | link {s : System} {i a : Nat} {msg : Message} (at_ : s.threads[i]? = some (.link msg))
      (fresh : s.queue.nodes a = none) :
      Step s { s.goto i .post with
        queue := s.queue.enqueue a { number := s.hist.linked.length, message := msg }
        hist := { s.hist with linked := s.hist.linked ++
          [{ number := s.hist.linked.length, message := msg }] } }
  | semPost {s : System} {i : Nat} (at_ : s.threads[i]? = some .post) :
      Step s { s.goto i .idle with
        sem := s.sem + 1
        hist := { s.hist with writes := s.hist.writes + 1 } }
  -- `sem_wait` goes on when the value is positive
  | semWait {s : System} {i bufsize : Nat} {flag : ReadFlag}
      (at_ : s.threads[i]? = some (.wait flag bufsize)) (value : 0 < s.sem) :
      Step s { s.goto i (.take bufsize) with sem := s.sem - 1 }
  | nodata {s : System} {i bufsize : Nat}
      (at_ : s.threads[i]? = some (.wait .readNonblock bufsize)) (value : s.sem = 0) :
      Step s (s.goto i .idle)
  | take {s : System} {i bufsize : Nat} {m : Linked} {rest : Queue Nat Linked}
      (at_ : s.threads[i]? = some (.take bufsize)) (head : s.queue.dequeue = some (m, rest)) :
      Step s { s.goto i .idle with
        queue := rest
        hist := { s.hist with reads := s.hist.reads ++
          [{ thread := i, bufsize, linked := m, returned := readReturn bufsize m.message }] } }
  | crash {s : System} {i bufsize : Nat} (at_ : s.threads[i]? = some (.take bufsize))
      (head : s.queue.dequeue = none) : Step s { s with crashed := true }

/-- The threads can get there, however many there are and whatever they call. -/
def Reachable (s : System) : Prop := ∃ n, Relation.ReflTransGen Step (.start n) s

/-! ## The invariant -/

/-- The list holds the nodes `nodes`. -/
structure Accounted (s : System) (nodes : List (Nat × Linked)) : Prop where
  alive : s.crashed = false
  holds : Holds s.queue nodes
  order : s.hist.linked = s.hist.reads.map (·.linked) ++ nodes.map Prod.snd
  numbers : s.hist.linked.map (·.number) = List.range s.hist.linked.length
  count : nodes.length = s.sem + s.threads.countP Pc.toTake + s.threads.countP Pc.toPost
  writes : s.hist.linked.length = s.hist.writes + s.threads.countP Pc.toPost
  returns : ∀ r ∈ s.hist.reads, r.returned = readReturn r.bufsize r.linked.message

theorem accounted_start (n : Nat) : Accounted (.start n) [] where
  alive := rfl
  holds := holds_empty
  order := rfl
  numbers := rfl
  count := by simp [System.start, List.countP_replicate, Pc.toTake, Pc.toPost]
  writes := by simp [System.start, List.countP_replicate, Pc.toPost]
  returns := fun r hr => by cases hr

theorem countP_set_add {α : Type*} (p : α → Bool) {l : List α} {i : Nat} {a : α}
    (h : l[i]? = some a) (b : α) :
    (l.set i b).countP p + (p a).toNat = l.countP p + (p b).toNat := by
  induction l generalizing i with
  | nil => cases h
  | cons x l ih =>
      cases i with
      | zero =>
          cases h
          rw [List.set_cons_zero, List.countP_cons, List.countP_cons]
          cases p a <;> cases p b <;> simp
      | succ i =>
          have := ih h
          rw [List.set_cons_succ, List.countP_cons, List.countP_cons]
          omega

section
variable {s : System} {nodes : List (Nat × Linked)} {i : Nat} {pc pc' : Pc}

theorem goto_counts (h : s.threads[i]? = some pc) (pc' : Pc) :
    (s.goto i pc').threads.countP Pc.toTake + pc.toTake.toNat =
        s.threads.countP Pc.toTake + pc'.toTake.toNat ∧
      (s.goto i pc').threads.countP Pc.toPost + pc.toPost.toNat =
        s.threads.countP Pc.toPost + pc'.toPost.toNat :=
  ⟨countP_set_add Pc.toTake h pc', countP_set_add Pc.toPost h pc'⟩

theorem Accounted.goto (h : Accounted s nodes) (at_ : s.threads[i]? = some pc)
    (htake : pc.toTake = pc'.toTake) (hpost : pc.toPost = pc'.toPost) :
    Accounted (s.goto i pc') nodes := by
  obtain ⟨hcount, hcount'⟩ := goto_counts at_ pc'
  have := h.count
  have := h.writes
  rw [htake] at hcount
  rw [hpost] at hcount'
  refine { h with count := ?_, writes := ?_ }
  · show nodes.length = s.sem + (s.goto i pc').threads.countP _ + (s.goto i pc').threads.countP _
    omega
  · show s.hist.linked.length = s.hist.writes + (s.goto i pc').threads.countP _
    omega

/-- A reader that passed the semaphore finds a message. -/
theorem Accounted.nonempty (h : Accounted s nodes) {bufsize : Nat}
    (at_ : s.threads[i]? = some (.take bufsize)) : nodes ≠ [] := by
  intro hnil
  have hpos : 0 < s.threads.countP Pc.toTake :=
    List.countP_pos_iff.mpr ⟨.take bufsize, List.mem_of_getElem? at_, rfl⟩
  have hcount := h.count
  rw [hnil, List.length_nil] at hcount
  omega

theorem Accounted.step {s' : System} (h : Accounted s nodes) (hstep : Step s s') :
    ∃ nodes', Accounted s' nodes' := by
  cases hstep with
  | call call at_ => exact ⟨nodes, h.goto at_ (by cases call <;> rfl) (by cases call <;> rfl)⟩
  | @link i a msg at_ fresh =>
      obtain ⟨htake, hpost⟩ := goto_counts at_ .post
      simp only [Pc.toTake, Pc.toPost, Bool.toNat_false, Bool.toNat_true] at htake hpost
      have hcount := h.count
      have hwrites := h.writes
      refine ⟨nodes ++ [(a, { number := s.hist.linked.length, message := msg })], h.alive,
        h.holds.enqueue fresh _, ?_, ?_, ?_, ?_, h.returns⟩
      · show s.hist.linked ++ _ = _
        rw [h.order, List.append_assoc, List.map_append]
        rfl
      · show (s.hist.linked ++ _).map _ = List.range (s.hist.linked ++ _).length
        rw [List.map_append, h.numbers, List.length_append, List.length_singleton,
          List.range_succ]
        rfl
      · rw [List.length_append, List.length_singleton]
        show _ = s.sem + (s.goto i .post).threads.countP _ + (s.goto i .post).threads.countP _
        omega
      · show (s.hist.linked ++ _).length = s.hist.writes + (s.goto i .post).threads.countP _
        rw [List.length_append, List.length_singleton]
        omega
  | @semPost i at_ =>
      obtain ⟨htake, hpost⟩ := goto_counts at_ .idle
      simp only [Pc.toTake, Pc.toPost, Bool.toNat_false, Bool.toNat_true] at htake hpost
      have hcount := h.count
      have hwrites := h.writes
      refine ⟨nodes, h.alive, h.holds, h.order, h.numbers, ?_, ?_, h.returns⟩
      · show _ = s.sem + 1 + (s.goto i .idle).threads.countP _ +
          (s.goto i .idle).threads.countP _
        omega
      · show s.hist.linked.length = s.hist.writes + 1 + (s.goto i .idle).threads.countP _
        omega
  | @semWait i bufsize flag at_ value =>
      obtain ⟨htake, hpost⟩ := goto_counts at_ (.take bufsize)
      simp only [Pc.toTake, Pc.toPost, Bool.toNat_false, Bool.toNat_true] at htake hpost
      have hcount := h.count
      have hwrites := h.writes
      refine ⟨nodes, h.alive, h.holds, h.order, h.numbers, ?_, ?_, h.returns⟩
      · show _ = s.sem - 1 + (s.goto i (.take bufsize)).threads.countP _ +
          (s.goto i (.take bufsize)).threads.countP _
        omega
      · show s.hist.linked.length = s.hist.writes + (s.goto i (.take bufsize)).threads.countP _
        omega
  | nodata at_ value => exact ⟨nodes, h.goto at_ rfl rfl⟩
  | @take i bufsize m rest at_ head =>
      obtain ⟨htake, hpost⟩ := goto_counts at_ .idle
      simp only [Pc.toTake, Pc.toPost, Bool.toNat_false, Bool.toNat_true] at htake hpost
      have hcount := h.count
      have hwrites := h.writes
      cases nodes with
      | nil => exact absurd rfl (h.nonempty at_)
      | cons node nodes =>
          obtain ⟨a, v⟩ := node
          obtain ⟨q, hq, hrest⟩ := h.holds.dequeue
          cases head.symm.trans hq
          refine ⟨nodes, h.alive, hrest, ?_, h.numbers, ?_, ?_, ?_⟩
          · show s.hist.linked = _
            rw [h.order, List.map_append, List.append_assoc]
            rfl
          · show _ = s.sem + (s.goto i .idle).threads.countP _ +
              (s.goto i .idle).threads.countP _
            rw [List.length_cons] at hcount
            omega
          · show s.hist.linked.length = s.hist.writes + (s.goto i .idle).threads.countP _
            omega
          · intro r hr
            rcases List.mem_append.mp hr with hr | hr
            · exact h.returns r hr
            · cases List.mem_singleton.mp hr
              rfl
  | crash at_ head =>
      cases nodes with
      | nil => exact absurd rfl (h.nonempty at_)
      | cons node nodes =>
          obtain ⟨q, hq, _⟩ := h.holds.dequeue
          cases head.symm.trans hq

theorem reachable_accounted (h : Reachable s) : ∃ nodes, Accounted s nodes := by
  obtain ⟨n, hrun⟩ := h
  induction hrun with
  | refl => exact ⟨[], accounted_start n⟩
  | tail _ hstep ih =>
      obtain ⟨nodes, hnodes⟩ := ih
      exact hnodes.step hstep

theorem Accounted.linked_nodup (h : Accounted s nodes) : s.hist.linked.Nodup := by
  refine List.Nodup.of_map (·.number) ?_
  rw [h.numbers]
  exact List.nodup_range

/-- In any run, messages are read in the order they were linked. -/
theorem Accounted.reads_prefix (h : Accounted s nodes) :
    s.hist.reads.map (·.linked) <+: s.hist.linked :=
  ⟨nodes.map Prod.snd, h.order.symm⟩

theorem Accounted.reads_eq (h : Accounted s nodes)
    (hlen : s.hist.reads.length = s.hist.linked.length) :
    s.hist.reads.map (·.linked) = s.hist.linked :=
  h.reads_prefix.eq_of_length (by rw [List.length_map, hlen])

end

/-! ## What a channel guarantees -/

/-- The state is one in which the channel delivered as it should. -/
structure Delivers (s : System) : Prop where
  /-- No reader went to a message behind a NULL `head`. -/
  alive : s.crashed = false
  ends : s.queue.head = none ↔ s.queue.tail = none
  /-- There is a message for every reader that passed the semaphore or can pass it. -/
  length : ∃ nodes, Holds s.queue nodes ∧ s.sem + s.threads.countP Pc.toTake ≤ nodes.length
  order : s.hist.reads.map (·.linked) <+: s.hist.linked
  once : (s.hist.reads.map (·.linked)).Nodup
  /-- With a read for every message, posted or not, each was read. -/
  all : s.hist.reads.length = s.hist.linked.length →
    ∀ m ∈ s.hist.linked, ∃! r, r ∈ s.hist.reads ∧ r.linked = m
  /-- The messages are those of the calls that returned, and of those that did not post yet. -/
  writes : s.hist.linked.length = s.hist.writes + s.threads.countP Pc.toPost
  received : ∀ r ∈ s.hist.reads, r.bufsize = 0 ∨ r.bufsize = r.linked.message.size →
    r.returned = match r.linked.message.payload with
      | some buf => .channelOk buf r.linked.message.size
      | none => .channelEnd

theorem Accounted.delivers {s : System} {nodes : List (Nat × Linked)} (h : Accounted s nodes) :
    Delivers s := by
  have honce : (s.hist.reads.map (·.linked)).Nodup := h.linked_nodup.sublist h.reads_prefix.sublist
  refine
    { alive := h.alive, ends := h.holds.head_eq_none_iff, length := ⟨nodes, h.holds, ?_⟩,
      order := h.reads_prefix, once := honce, all := fun hlen m hm => ?_, writes := h.writes,
      received := fun r hr hsize => (h.returns r hr).trans (readReturn_expected hsize) }
  · have := h.count
    omega
  · rw [← h.reads_eq hlen] at hm
    obtain ⟨r, hr, hrm⟩ := List.mem_map.mp hm
    refine ⟨r, ⟨hr, hrm⟩, ?_⟩
    rintro r' ⟨hr', hrm'⟩
    exact List.inj_on_of_nodup_map honce hr' hr (hrm'.trans hrm.symm)

/-- **Channels deliver.**  Whatever threads call `ch_write`, `ch_read` and `ch_finish`,
however their steps are interleaved, messages are read in the order they were linked,
each by one reader, and no reader finds the list empty. -/
theorem reachable_delivers {s : System} (h : Reachable s) : Delivers s := by
  obtain ⟨nodes, hnodes⟩ := reachable_accounted h
  exact hnodes.delivers

/-- Two writers link before either posts, and a reader takes the first message and
the end. -/
theorem reachable_delivers_twoWriters :
    ∃ s, Reachable s ∧ Delivers s ∧ s.hist.linked.length = 2 ∧
      s.hist.reads.map (·.returned) = [.channelOk 7 8, .channelEnd] := by
  have run : Relation.ReflTransGen Step (.start 3) _ :=
    Relation.ReflTransGen.refl
      |>.tail (.call (i := 0) (.chWrite (some 7) 8) rfl)
      |>.tail (.call (i := 1) .chFinish rfl)
      |>.tail (.call (i := 2) (.chRead .readBlock 8) rfl)
      |>.tail (.link (i := 0) (a := 0x1000) rfl rfl)
      |>.tail (.link (i := 1) (a := 0x2000) rfl rfl)
      |>.tail (.semPost (i := 1) rfl)
      |>.tail (.semWait (i := 2) rfl (by decide))
      |>.tail (.take (i := 2) rfl rfl)
      |>.tail (.call (i := 2) (.chRead .readNonblock 0) rfl)
      |>.tail (.semPost (i := 0) rfl)
      |>.tail (.semWait (i := 2) rfl (by decide))
      |>.tail (.take (i := 2) rfl rfl)
  exact ⟨_, ⟨3, run⟩, reachable_delivers ⟨3, run⟩, rfl, rfl⟩

end FlightRec.Channel
