/-
# `FlightRec.Examine.Session` — sequences of movement requests

A session is a list of calls, each a request together with the breakpoint table
it finds.  `exchanges` runs them from the globals `process_init` leaves and lists
for every call the globals before it, the globals after it and the reply.

Two properties of whole sessions are settled here, and one of two calls in a row.

  * `cur_file`, `cur_line` and `cur_depth` describe the step `cur_step`
    (`AtStep`).  Every query fetches the depth of the row it moves to, if an `int` can
    hold it, but `set_last_step` assigns depth 1 whatever the last step is; so the
    property holds of a session exactly if no request moves to a step of a depth that
    does not fit, and no `continue` runs off the end of a recording that ends inside a
    call (`exchanges_atStep_iff`).
  * Requests answer, and move in their direction.  `process_stepback` alone takes it
    for a failure when there is no row to move to, as on the later steps of the first
    line; so the property holds of a session exactly if every `stepBack` finds one
    (`exchanges_directed_iff`).
  * After a `next` that stays at its depth, `stepBack` is on the old line again
    (`stepBack_undoes_next`).
-/
import FlightRec.Examine.Movement
import Mathlib.Algebra.Order.Ring.Int

namespace FlightRec

/-! ## Sessions -/

/-- A request and the breakpoints that are set when it arrives. -/
structure Call where
  bps : Breakpoints
  request : Request

/-- One processed call. -/
structure Exchange where
  before : Session
  call : Call
  after : Session
  reply : Reply

/-- The calls of a session, processed one after the other. -/
def exchanges (db : Db) : Session → List Call → List Exchange
  | _, [] => []
  | s, c :: rest =>
      let result := processRequest db c.bps s c.request
      { before := s, call := c, after := result.1, reply := result.2 } ::
        exchanges db result.1 rest

theorem mem_exchanges_cons {db : Db} {s : Session} {c : Call} {rest : List Call} {x : Exchange} :
    x ∈ exchanges db s (c :: rest) ↔
      x = { before := s, call := c, after := (processRequest db c.bps s c.request).1,
            reply := (processRequest db c.bps s c.request).2 } ∨
        x ∈ exchanges db (processRequest db c.bps s c.request).1 rest := by
  simp only [exchanges, List.mem_cons]

/-- An invariant of the globals that every call preserves holds before every call. -/
theorem exchanges_invariant {db : Db} (Inv : Session → Prop)
    (step : ∀ (s : Session) (c : Call), Inv s → Inv (processRequest db c.bps s c.request).1) :
    ∀ (calls : List Call) (s : Session), Inv s → ∀ x ∈ exchanges db s calls,
      Inv x.before ∧ (x.after, x.reply) = processRequest db x.call.bps x.before x.call.request
  | [], _, _, _, hx => by cases hx
  | c :: rest, s, hs, x, hx => by
      rcases mem_exchanges_cons.mp hx with rfl | hx
      · exact ⟨hs, rfl⟩
      · exact exchanges_invariant Inv step rest _ (step s c hs) x hx

/-- The globals are the columns of the step `cur_step`. -/
def AtStep (db : Db) (s : Session) : Prop :=
  ∃ r ∈ db.stopRows, r.step = s.curStep ∧ s.curFile = some r.file ∧ s.curLine = r.line ∧
    s.curDepth.toInt = r.depth

instance (db : Db) (s : Session) : Decidable (AtStep db s) :=
  inferInstanceAs (Decidable (∃ r ∈ db.stopRows, _))

/-- The first step is at depth 1. -/
def StartsAtTop (db : Db) : Prop := ∃ s ∈ db.steps, s.id = 1 ∧ s.depth = 1

instance (db : Db) : Decidable (StartsAtTop db) :=
  inferInstanceAs (Decidable (∃ s ∈ db.steps, _))

/-- The last step is at depth 1, as when `main` returns. -/
def EndsAtTop (db : Db) : Prop := ∃ s ∈ db.steps, s.id = db.steps.length ∧ s.depth = 1

instance (db : Db) : Decidable (EndsAtTop db) :=
  inferInstanceAs (Decidable (∃ s ∈ db.steps, _))

/-! ## The globals describe the current step -/

/-- The depth of the row is a number that an `int` can hold. -/
def StopRow.Fits (r : StopRow) : Prop := -2 ^ 31 ≤ r.depth ∧ r.depth < 2 ^ 31

instance (r : StopRow) : Decidable r.Fits := inferInstanceAs (Decidable (_ ∧ _))

theorem StopRow.fits_iff {r : StopRow} : (Int32.ofInt r.depth).toInt = r.depth ↔ r.Fits := by
  constructor
  · intro h
    rw [StopRow.Fits, ← h]
    exact ⟨Int32.le_toInt _, Int32.toInt_lt _⟩
  · rintro ⟨hlow, hhigh⟩
    exact Int32.toInt_ofInt_of_le hlow hhigh

theorem atStep_fetch {db : Db} {r : StopRow} (hr : r ∈ db.stopRows) (hfits : r.Fits)
    (s : Session) : AtStep db (s.fetch r) :=
  ⟨r, hr, rfl, rfl, rfl, StopRow.fits_iff.mpr hfits⟩

section
variable {db : Db} (rec : Located db)
include rec

theorem atStep_fetch_iff {r : StopRow} (hr : r ∈ db.stopRows) (s : Session) :
    AtStep db (s.fetch r) ↔ r.Fits := by
  refine ⟨?_, fun hfits => atStep_fetch hr hfits s⟩
  rintro ⟨q, hq, hstep, _, _, hdepth⟩
  cases rec.stopRow_unique hq hr hstep
  exact StopRow.fits_iff.mp hdepth

theorem atStep_land_iff {r : StopRow} (hr : r ∈ db.stopRows) (s : Session) :
    AtStep db (s.land r) ↔ r.depth = 1 := by
  constructor
  · rintro ⟨q, hq, hstep, _, _, hdepth⟩
    rw [← rec.stopRow_unique hq hr hstep]
    exact hdepth.symm
  · intro h
    exact ⟨r, hr, rfl, rfl, rfl, h.symm⟩

theorem StartsAtTop.depth (top : StartsAtTop db) {r : StopRow} (hr : r ∈ db.stopRows)
    (h1 : r.step = 1) : r.depth = 1 := by
  obtain ⟨s, hs, hid, hd⟩ := top
  rw [rec.stopRow_depth hr hs (h1.trans hid.symm), hd]

theorem endsAtTop_iff {r : StopRow} (hr : r ∈ db.stopRows) (hn : r.step = db.steps.length) :
    EndsAtTop db ↔ r.depth = 1 := by
  constructor
  · rintro ⟨s, hs, hid, hd⟩
    rw [rec.stopRow_depth hr hs (hn.trans hid.symm), hd]
  · intro h
    obtain ⟨s, hs, hid⟩ := rec.exists_step (i := r.step) (rec.stopRow_bounds hr).1
      (rec.stopRow_bounds hr).2
    exact ⟨s, hs, hid.trans hn, by rw [← rec.stopRow_depth hr hs hid.symm, h]⟩

end

/-- The calls after which the globals still describe the step: before a `launch`
there is no step for `stepOut` and `stepBack` to stay at, a `continue` (or the one
`configurationDone` starts) must reach a breakpoint, unless the recording ends at depth 1
anyway, and the depth of the row that is fetched fits. -/
structure Session.KeepsDepth (db : Db) (s : Session) (c : Call) : Prop where
  placed : c.request = .stepOut ∨ c.request = .stepBack → s.dbOpen = true
  ends : s.Continues c.request → s.dbOpen = true → ReachesBreakpoint db c.bps s ∨ EndsAtTop db
  fits : s.dbOpen = true → ∀ r, s.Target db c.bps c.request r → r.Fits

/-- Before the first `launch` the globals are reset; after it they describe a step. -/
structure Session.Valid (db : Db) (s : Session) : Prop where
  closed : s.dbOpen = false → s = .init
  opened : s.dbOpen = true → AtStep db s

theorem Session.valid_of_atStep {db : Db} {s : Session} (hopen : s.dbOpen = true)
    (hat : AtStep db s) : s.Valid db :=
  ⟨fun h => absurd hopen (by simp [h]), fun _ => hat⟩

theorem Session.valid_init (db : Db) : Session.Valid db .init :=
  ⟨fun _ => rfl, fun h => nomatch h⟩

theorem StartsAtTop.steps_ne_nil {db : Db} (top : StartsAtTop db) : db.steps ≠ [] := by
  obtain ⟨s, hs, _⟩ := top
  intro h
  rw [h] at hs
  cases hs

theorem keepsDepth_of_closed {db : Db} {s : Session} (hs : s.Valid db) (hclosed : s.dbOpen = false)
    {c : Call} (hq : s.Queries c.request) : s.KeepsDepth db c := by
  have hinit := hs.closed hclosed
  have hnever : s.dbOpen ≠ true := by
    rw [hclosed]
    exact Bool.false_ne_true
  refine ⟨?_, fun _ hopen => absurd hopen hnever, fun hopen => absurd hopen hnever⟩
  rintro (hout | hback)
  · rw [hout, hinit] at hq
    exact absurd hq (by decide : ¬ (1 : Int) < Session.init.curDepth.toInt)
  · rw [hback, hinit] at hq
    exact absurd hq (by decide : ¬ 1 < Session.init.curStep)

theorem keepsDepth_of_stays {db : Db} {s : Session} {c : Call}
    (hplaced : c.request = .stepOut ∨ c.request = .stepBack → s.dbOpen = true)
    (hends : ¬ s.Continues c.request) (hstays : ∀ r, ¬ s.Target db c.bps c.request r) :
    s.KeepsDepth db c :=
  ⟨hplaced, fun hc => absurd hc hends, fun _ r hr => absurd hr (hstays r)⟩

theorem keepsDepth_launch {db : Db} {s : Session} {bps : Breakpoints}
    {arguments : Option LaunchArgs} : s.KeepsDepth db ⟨bps, .launch arguments⟩ :=
  keepsDepth_of_stays (by rintro (h | h) <;> cases h) id fun _ h => h

section
variable {db : Db} (rec : Located db)
include rec

theorem not_atStep_init : ¬ AtStep db .init := by
  rintro ⟨r, hr, hstep, _⟩
  have h1 := (rec.stopRow_bounds hr).1
  have h0 : r.step = 0 := hstep
  omega

theorem Session.Valid.atStep_iff {s : Session} (hs : s.Valid db) :
    AtStep db s ↔ s.dbOpen = true := by
  refine ⟨fun hat => ?_, hs.opened⟩
  by_contra h
  rw [hs.closed (eq_false_of_ne_true h)] at hat
  exact not_atStep_init rec hat

theorem keepsDepth_moves_iff {s : Session} {c : Call} (hopen : s.dbOpen = true) {r : StopRow}
    (hr : s.Target db c.bps c.request r) : s.KeepsDepth db c ↔ r.Fits := by
  refine ⟨fun h => h.fits hopen r hr, fun hfits => ⟨fun _ => hopen, fun hc _ => ?_, ?_⟩⟩
  · exact .inl (hr.reachesBreakpoint hc)
  · intro _ q hq
    rwa [hq.unique rec hr]

/-- One call on valid globals: the depth is right after it exactly if the call
keeps it, and then the globals are valid again. -/
theorem Outcome.atStep_iff (top : StartsAtTop db) {s s' : Session} {c : Call} {reply : Reply}
    (hs : s.Valid db) (h : Outcome db c.bps s c.request s' reply) :
    ((reply.success = true → AtStep db s') ↔ s.KeepsDepth db c) ∧
      (s.KeepsDepth db c → s'.Valid db) := by
  have fetched : ∀ {r : StopRow}, s.dbOpen = true → s.Target db c.bps c.request r →
      (AtStep db (s.fetch r) ↔ s.KeepsDepth db c) ∧
        (s.KeepsDepth db c → (s.fetch r).Valid db) := by
    intro r hopen hr
    have hiff := (atStep_fetch_iff rec hr.mem s).trans (keepsDepth_moves_iff rec hopen hr).symm
    exact ⟨hiff, fun hk => Session.valid_of_atStep hopen (hiff.mpr hk)⟩
  have stayed : (reply.success = true → (AtStep db s ↔ s.KeepsDepth db c)) →
      (reply.success = false → s.KeepsDepth db c) →
      ((reply.success = true → AtStep db s) ↔ s.KeepsDepth db c) ∧
        (s.KeepsDepth db c → s.Valid db) := by
    intro hok hfail
    refine ⟨?_, fun _ => hs⟩
    cases hsucc : reply.success with
    | true => simpa using hok hsucc
    | false => simpa using hfail hsucc
  have kept : s.dbOpen = true → s.KeepsDepth db c →
      ((reply.success = true → AtStep db s) ↔ s.KeepsDepth db c) ∧
        (s.KeepsDepth db c → s.Valid db) := fun hopen hk =>
    stayed (fun _ => iff_of_true (hs.opened hopen) hk) (fun _ => hk)
  rcases c with ⟨bps, request⟩
  cases h with
  | launchRefused error => exact stayed (fun h => by cases h) (fun _ => keepsDepth_launch)
  | launched r entry hr h1 =>
      have at1 : AtStep db (s.land r) := (atStep_land_iff rec hr s).mpr (top.depth rec hr h1)
      exact ⟨⟨fun _ => keepsDepth_launch, fun _ _ => at1⟩,
        fun _ => Session.valid_of_atStep rfl at1⟩
  | closed hclosed hq =>
      exact stayed (fun h => by cases h) (fun _ => keepsDepth_of_closed hs hclosed hq)
  | next r hopen hr => simpa using fetched hopen hr
  | stepIn r hopen hr => simpa using fetched hopen hr
  | stepOut r hopen hr => simpa using fetched hopen hr
  | stepBack r hopen hr => simpa using fetched hopen hr
  | breakpoint r hopen hc hr => simpa using fetched hopen hr
  | backBreakpoint r hopen hr => simpa using fetched hopen hr
  | nextEnd hopen none =>
      have hk : s.KeepsDepth db ⟨bps, .next⟩ :=
        keepsDepth_of_stays (fun _ => hopen) id fun r ⟨hr, ⟨hlt, hover⟩, _⟩ => none r hr hlt hover
      exact kept hopen hk
  | stepInEnd hopen none =>
      have hk : s.KeepsDepth db ⟨bps, .stepIn⟩ :=
        keepsDepth_of_stays (fun _ => hopen) id fun r ⟨hr, hstep, _⟩ => none r hr hstep
      exact kept hopen hk
  | stepOutEnd hopen hd none =>
      have hk : s.KeepsDepth db ⟨bps, .stepOut⟩ :=
        keepsDepth_of_stays (fun _ => hopen) id fun r ⟨hr, ⟨_, hlt, hlow⟩, _⟩ =>
          absurd hlow (Int.not_lt.mpr (none r hr hlt))
      exact kept hopen hk
  | stepBackNone hopen _ none =>
      have hk : s.KeepsDepth db ⟨bps, .stepBack⟩ :=
        keepsDepth_of_stays (fun _ => hopen) id fun r ⟨hr, ⟨_, hlt, hover⟩, _⟩ =>
          none r hr hlt hover
      exact kept hopen hk
  | topLevel hd =>
      refine stayed (fun _ => (hs.atStep_iff rec).trans ⟨fun hopen => ?_, fun hk =>
        hk.placed (.inl rfl)⟩) (fun h => by cases h)
      exact keepsDepth_of_stays (fun _ => hopen) id fun r ⟨_, ⟨hdeep, _⟩, _⟩ => by omega
  | firstStep h1 =>
      refine stayed (fun _ => (hs.atStep_iff rec).trans ⟨fun hopen => ?_, fun hk =>
        hk.placed (.inr rfl)⟩) (fun h => by cases h)
      exact keepsDepth_of_stays (fun _ => hopen) id fun r ⟨_, ⟨hlater, _⟩, _⟩ => by omega
  | acknowledged hentry =>
      have hopen : s.dbOpen = true := by
        by_contra h
        rw [hs.closed (eq_false_of_ne_true h)] at hentry
        cases hentry
      have hnever : ¬ s.stopOnEntry = false := by
        rw [hentry]
        exact Bool.noConfusion
      have hk : s.KeepsDepth db ⟨bps, .configurationDone⟩ :=
        keepsDepth_of_stays (fun _ => hopen) hnever fun r ⟨_, ⟨hrun, _⟩, _⟩ => hnever hrun
      exact kept hopen hk
  | ranOff r hopen hc hno hr hn =>
      have hland : AtStep db (s.land r) ↔ s.KeepsDepth db ⟨bps, request⟩ := by
        rw [atStep_land_iff rec hr s, ← endsAtTop_iff rec hr hn]
        refine ⟨fun htop => ⟨fun _ => hopen, fun _ _ => .inr htop, ?_⟩, fun hk =>
          (hk.ends hc hopen).resolve_left hno⟩
        exact fun _ q hq => absurd (hq.reachesBreakpoint hc) hno
      exact ⟨by simpa using hland, fun hk => Session.valid_of_atStep hopen (hland.mpr hk)⟩
  | backFirst r hopen hnone hr h1 =>
      have at1 : AtStep db (s.land r) := (atStep_land_iff rec hr s).mpr (top.depth rec hr h1)
      have hk : s.KeepsDepth db ⟨bps, .reverseContinue⟩ :=
        keepsDepth_of_stays (fun _ => hopen) id fun q hq => hnone q hq.2.1
      exact ⟨⟨fun _ => hk, fun _ _ => at1⟩, fun _ => Session.valid_of_atStep hopen at1⟩

theorem exchanges_atStep_iff_from (top : StartsAtTop db) :
    ∀ (calls : List Call) {s : Session}, s.Valid db →
      ((∀ x ∈ exchanges db s calls, x.reply.success = true → AtStep db x.after) ↔
        ∀ x ∈ exchanges db s calls, x.before.KeepsDepth db x.call)
  | [], _, _ => by simp [exchanges]
  | c :: rest, s, hs => by
      obtain ⟨hiff, hnext⟩ := (processRequest_outcome rec top.steps_ne_nil c.bps s
        c.request).atStep_iff rec top hs
      have ih := fun hk => exchanges_atStep_iff_from top rest (hnext hk)
      simp only [exchanges, List.forall_mem_cons]
      constructor
      · rintro ⟨hhead, htail⟩
        exact ⟨hiff.mp hhead, (ih (hiff.mp hhead)).mp htail⟩
      · rintro ⟨hk, htail⟩
        exact ⟨hiff.mpr hk, (ih hk).mpr htail⟩

end

/-- **The globals describe the current step** after every successful request of
a session, exactly if every call of the session keeps the depth. -/
theorem exchanges_atStep_iff {db : Db} (rec : Located db) (top : StartsAtTop db)
    (calls : List Call) :
    (∀ x ∈ exchanges db .init calls, x.reply.success = true → AtStep db x.after) ↔
      ∀ x ∈ exchanges db .init calls, x.before.KeepsDepth db x.call :=
  exchanges_atStep_iff_from rec top calls (Session.valid_init db)

/-- A recording that ends in a call: `main` calls a function that crashes on its first line. -/
def crashedDb : Db where
  steps := [⟨1, 0x1000, 1, 1⟩, ⟨2, 0x1008, 1, 1⟩, ⟨3, 0x2000, 2, 2⟩]
  statements :=
    [⟨1, 10, 0x1000, some 1, some 1, some 1⟩, ⟨1, 11, 0x1008, some 1, some 1, some 2⟩,
     ⟨1, 5, 0x2000, some 2, some 2, some 1⟩]
  files := [⟨1, "crashed.c", "crashed.c"⟩]
  functions := [⟨1, "main", 1⟩, ⟨2, "crash", 2⟩]
  exitSignal := some 11

/-- A session that only steps. -/
def steppingCalls : List Call :=
  [⟨⟨[], List.nodup_nil⟩, .launch (some ⟨some "crashed", some ".", some true⟩)⟩,
   ⟨⟨[], List.nodup_nil⟩, .next⟩, ⟨⟨[], List.nodup_nil⟩, .stepIn⟩,
   ⟨⟨[], List.nodup_nil⟩, .reverseContinue⟩]

/-- A session that runs to the end. -/
def runningCalls : List Call :=
  [⟨⟨[], List.nodup_nil⟩, .launch (some ⟨some "crashed", some ".", some true⟩)⟩,
   ⟨⟨[], List.nodup_nil⟩, .continue_⟩]

theorem exchanges_atStep_stepping :
    Recorded crashedDb ∧ StartsAtTop crashedDb ∧
      ∀ x ∈ exchanges crashedDb .init steppingCalls, x.reply.success = true →
        AtStep crashedDb x.after :=
  ⟨by decide, by decide,
   (exchanges_atStep_iff (by decide) (by decide) steppingCalls).mpr fun x hx => by
     have hrequests : ∀ x ∈ exchanges crashedDb .init steppingCalls,
         x.call.request ≠ .stepOut ∧ x.call.request ≠ .stepBack ∧
           x.call.request ≠ .continue_ ∧ x.call.request ≠ .configurationDone := by decide
     have hfits : ∀ r ∈ crashedDb.stopRows, r.Fits := by decide
     obtain ⟨hout, hback, hcontinue, hdone⟩ := hrequests x hx
     refine ⟨fun h => h.elim (absurd · hout) (absurd · hback), fun hc => ?_,
       fun _ r hr => hfits r hr.mem⟩
     generalize x.call.request = request at hc hcontinue hdone
     cases request with
     | continue_ => exact absurd rfl hcontinue
     | configurationDone => exact absurd rfl hdone
     | _ => exact hc.elim⟩

/-- After `continue` the session stands on the step of depth 2 with `cur_depth` 1. -/
theorem continue_forgets_depth :
    Recorded crashedDb ∧ StartsAtTop crashedDb ∧
      ∃ x ∈ exchanges crashedDb .init runningCalls, x.call.request = .continue_ ∧
        x.reply.success = true ∧ x.after.curStep = 3 ∧ x.after.curDepth = 1 ∧
        ¬ AtStep crashedDb x.after := by
  decide

/-! ## Requests answer and move in their direction -/

/-- After a `launch` the current step is one of the recording. -/
def Session.InRange (db : Db) (s : Session) : Prop :=
  s.dbOpen = true → 1 ≤ s.curStep ∧ s.curStep ≤ db.steps.length

/-- What is expected of a call on an open database.  It is answered with success.
`next`, `stepIn` and `stepOut` move to a later row, or stay and report the end; `stepOut`
on the top level stays silently.  `continue` moves ahead to a breakpoint, or to the last
step with the reason the program ended for.  `stepBack` moves to an earlier row, or stays
and reports the beginning.  `reverseContinue` moves back to a breakpoint, or to the first
step as an entry. -/
def Directed (db : Db) (x : Exchange) : Prop :=
  let s := x.before
  match x.call.request with
  | .next | .stepIn =>
      x.reply.success = true ∧ s.curStep ≤ x.after.curStep ∧
        (s.curStep < x.after.curStep ∧ x.reply = .ok [.stopped .step] ∨
          x.after = s ∧ x.reply = .ok [if s.signum ≠ 0 then .stopped .signal else .terminated])
  | .stepOut =>
      x.reply.success = true ∧ s.curStep ≤ x.after.curStep ∧
        (s.curStep < x.after.curStep ∧ x.reply = .ok [.stopped .step] ∨
          x.after = s ∧ x.reply = .ok
            (if s.curDepth.toInt ≤ 1 then []
             else [if s.signum ≠ 0 then .stopped .signal else .terminated]))
  | .continue_ =>
      x.reply.success = true ∧ s.curStep ≤ x.after.curStep ∧
        (s.curStep < x.after.curStep ∧ x.reply = .ok [.stopped .breakpoint] ∨
          x.after.curStep = db.steps.length ∧
            x.reply = .ok [.stopped (if s.signum ≠ 0 then .signal else .exit)])
  | .stepBack =>
      x.reply.success = true ∧ x.after.curStep ≤ s.curStep ∧
        (x.after.curStep < s.curStep ∧ x.reply = .ok [.stopped .step] ∨
          x.after = s ∧ x.reply = .ok [.terminated])
  | .reverseContinue =>
      x.reply.success = true ∧ x.after.curStep ≤ s.curStep ∧
        (x.after.curStep < s.curStep ∧ x.reply = .ok [.stopped .breakpoint] ∨
          x.after.curStep = 1 ∧ x.reply = .ok [.stopped .entry])
  | .launch _ | .configurationDone => True

/-- A `stepBack` behind the first step has an earlier row to move to, of another line and
not deeper. -/
def Session.FindsBack (db : Db) (s : Session) (request : Request) : Prop :=
  request = .stepBack → 1 < s.curStep → ∃ r ∈ db.stopRows, r.step < s.curStep ∧ s.Over r

theorem noMoreSteps_eq (s : Session) :
    noMoreSteps s = .ok [if s.signum ≠ 0 then .stopped .signal else .terminated] := by
  unfold noMoreSteps
  split <;> rfl

theorem Outcome.inRange {db : Db} (rec : Located db) {bps : Breakpoints} {s s' : Session}
    {request : Request} {reply : Reply}
    (hs : s.InRange db) (h : Outcome db bps s request s' reply) : s'.InRange db := by
  cases h with
  | launchRefused _ => exact hs
  | launched r _ hr _ => exact fun _ => rec.stopRow_bounds hr
  | closed _ _ => exact hs
  | next r _ hr => exact fun _ => rec.stopRow_bounds hr.mem
  | nextEnd _ _ => exact hs
  | stepIn r _ hr => exact fun _ => rec.stopRow_bounds hr.mem
  | stepInEnd _ _ => exact hs
  | topLevel _ => exact hs
  | stepOut r _ hr => exact fun _ => rec.stopRow_bounds hr.mem
  | stepOutEnd _ _ _ => exact hs
  | firstStep _ => exact hs
  | stepBack r _ hr => exact fun _ => rec.stopRow_bounds hr.mem
  | stepBackNone _ _ _ => exact hs
  | breakpoint r _ _ hr => exact fun _ => rec.stopRow_bounds hr.mem
  | ranOff r _ _ _ hr _ => exact fun _ => rec.stopRow_bounds hr
  | backBreakpoint r _ hr => exact fun _ => rec.stopRow_bounds hr.mem
  | backFirst r _ _ hr _ => exact fun _ => rec.stopRow_bounds hr
  | acknowledged _ => exact hs

theorem Outcome.directed {db : Db} {s s' : Session} {c : Call} {reply : Reply} (hs : s.InRange db)
    (hopen : s.dbOpen = true) (hback : s.FindsBack db c.request)
    (h : Outcome db c.bps s c.request s' reply) :
    Directed db { before := s, call := c, after := s', reply := reply } := by
  obtain ⟨h1, hn⟩ := hs hopen
  rcases c with ⟨bps, request⟩
  cases h with
  | launchRefused _ => exact trivial
  | launched _ _ _ _ => exact trivial
  | closed hclosed _ => rw [hopen] at hclosed; cases hclosed
  | next r _ hr =>
      have hlt := hr.2.1.1
      exact ⟨rfl, Nat.le_of_lt hlt, Or.inl ⟨hlt, rfl⟩⟩
  | nextEnd _ _ =>
      rw [noMoreSteps_eq]
      exact ⟨rfl, Nat.le_refl _, Or.inr ⟨rfl, rfl⟩⟩
  | stepIn r _ hr =>
      have hstep : r.step = s.curStep + 1 := hr.2.1
      have hlt : s.curStep < r.step := by omega
      exact ⟨rfl, Nat.le_of_lt hlt, Or.inl ⟨hlt, rfl⟩⟩
  | stepInEnd _ _ =>
      rw [noMoreSteps_eq]
      exact ⟨rfl, Nat.le_refl _, Or.inr ⟨rfl, rfl⟩⟩
  | topLevel hd => exact ⟨rfl, Nat.le_refl _, Or.inr ⟨rfl, by simp only [if_pos hd]⟩⟩
  | stepOut r _ hr =>
      have hlt := hr.2.1.2.1
      exact ⟨rfl, Nat.le_of_lt hlt, Or.inl ⟨hlt, rfl⟩⟩
  | stepOutEnd _ hd _ =>
      rw [noMoreSteps_eq]
      exact ⟨rfl, Nat.le_refl _, Or.inr ⟨rfl, by simp only [if_neg (Int.not_le.mpr hd)]⟩⟩
  | firstStep hfirst => exact ⟨rfl, Nat.le_refl _, Or.inr ⟨rfl, rfl⟩⟩
  | stepBack r _ hr =>
      have hlt := hr.2.1.2.1
      exact ⟨rfl, Nat.le_of_lt hlt, Or.inl ⟨hlt, rfl⟩⟩
  | stepBackNone _ hlater none =>
      obtain ⟨r, hr, hlt, hover⟩ := hback rfl hlater
      exact absurd hover (none r hr hlt)
  | breakpoint r _ hc hr =>
      cases request with
      | continue_ =>
          have hlt := hr.2.1.2.1
          exact ⟨rfl, Nat.le_of_lt hlt, Or.inl ⟨hlt, rfl⟩⟩
      | configurationDone => exact trivial
      | _ => exact hc.elim
  | ranOff r _ hc _ _ hlast =>
      have hle : s.curStep ≤ r.step := by omega
      cases request with
      | continue_ => exact ⟨rfl, hle, Or.inr ⟨hlast, rfl⟩⟩
      | configurationDone => exact trivial
      | _ => exact hc.elim
  | backBreakpoint r _ hr =>
      have hlt : r.step < s.curStep := hr.2.1.2.1
      exact ⟨rfl, Nat.le_of_lt hlt, Or.inl ⟨hlt, rfl⟩⟩
  | backFirst r _ _ _ hfirst =>
      have hle : r.step ≤ s.curStep := by omega
      exact ⟨rfl, hle, Or.inr ⟨hfirst, rfl⟩⟩
  | acknowledged _ => exact trivial

theorem Directed.findsBack {db : Db} {x : Exchange} (h : Directed db x)
    (hopen : x.before.dbOpen = true)
    (hstep : (x.after, x.reply) = processRequest db x.call.bps x.before x.call.request) :
    x.before.FindsBack db x.call.request := by
  rcases x with ⟨s, ⟨bps, request⟩, s', reply⟩
  rintro rfl hlater
  by_contra none
  rcases processStepback_cases hopen hlater with ⟨r, hr, ⟨hlt, hd, hoff⟩, -, -⟩ | ⟨-, hfail⟩
  · exact none ⟨r, hr, hlt, hd, hoff⟩
  · have hsuccess : reply.success = true := h.1
    have hreply : reply = .failure Option.none := congrArg Prod.snd (hstep.trans hfail)
    rw [hreply] at hsuccess
    cases hsuccess

/-- A recording whose first line is executed in two steps. -/
def oneLineDb : Db where
  steps := [⟨1, 0x1000, 1, 1⟩, ⟨2, 0x1008, 1, 1⟩]
  statements :=
    [⟨1, 10, 0x1000, some 1, some 1, some 1⟩, ⟨1, 10, 0x1008, some 1, some 1, some 2⟩]
  files := [⟨1, "oneline.c", "oneline.c"⟩]
  functions := [⟨1, "main", 1⟩]
  exitSignal := none

/-- A session that steps in, tries to step back, and runs back. -/
def backwardCalls : List Call :=
  [⟨⟨[], List.nodup_nil⟩, .launch (some ⟨some "oneline", some ".", some true⟩)⟩,
   ⟨⟨[], List.nodup_nil⟩, .stepIn⟩, ⟨⟨[], List.nodup_nil⟩, .stepBack⟩,
   ⟨⟨[], List.nodup_nil⟩, .reverseContinue⟩]

theorem processNext_stopped {db : Db} {s s' : Session}
    (hnext : processNext db s = (s', .ok [.stopped .step])) :
    s.dbOpen = true ∧ ∃ r ∈ db.stopRows, s' = s.fetch r ∧ s.curStep < r.step ∧
      s.offLine r = true ∧ ∀ q ∈ db.stopRows, s.curStep < q.step → q.depth ≤ s.curDepth.toInt →
        s.offLine q = true → r.step ≤ q.step := by
  have hopen : s.dbOpen = true := by
    by_contra hclosed
    unfold processNext at hnext
    rw [if_pos (by simpa using hclosed)] at hnext
    cases hnext
  refine ⟨hopen, ?_⟩
  obtain ⟨r, hr, ⟨hlt, _, hoff⟩, first, h⟩ | ⟨_, h⟩ := @processNext_cases db s hopen
  · rw [h, Prod.mk.injEq] at hnext
    exact ⟨r, hr, hnext.1.symm, hlt, hoff, first⟩
  · rw [h, Prod.mk.injEq] at hnext
    have hevents := hnext.2
    unfold noMoreSteps at hevents
    split at hevents <;> simp [Reply.ok] at hevents

theorem Session.offLine_iff {s : Session} {file : String} (hfile : s.curFile = some file)
    {r : StopRow} : s.offLine r = true ↔ ¬ (r.file = file ∧ r.line = s.curLine) := by
  unfold Session.offLine
  rw [hfile]
  simp only [Bool.not_eq_true', ← Bool.not_eq_true, Bool.and_eq_true, beq_iff_eq]

/-- **`stepBack` undoes `next`.**  If `next` stops at a step of the same depth, an
immediate `stepBack` stops between the two steps, on the file and the line `next` left. -/
theorem stepBack_undoes_next {db : Db} (rec : Located db) {s s' : Session}
    (hat : AtStep db s) (hnext : processNext db s = (s', .ok [.stopped .step]))
    (hdepth : s'.curDepth = s.curDepth) :
    ∃ t, processStepback db s' = (t, .ok [.stopped .step]) ∧ (∃ q ∈ db.stopRows, t = s'.fetch q) ∧
      s.curStep ≤ t.curStep ∧ t.curStep < s'.curStep ∧
      t.curFile = s.curFile ∧ t.curLine = s.curLine := by
  obtain ⟨hopen, r, hr, rfl, hlt, hoff, first⟩ := processNext_stopped hnext
  obtain ⟨r₀, hr₀, hstep, hfile, hline, hd⟩ := hat
  have hdr : (Int32.ofInt r.depth).toInt = s.curDepth.toInt := congrArg Int32.toInt hdepth
  have hr₀pos := (rec.stopRow_bounds hr₀).1
  -- seen from the new line, the old one is another line
  have hback : (s.fetch r).offLine r₀ = true := by
    rw [Session.offLine_iff (Session.fetch_curFile s r)]
    rintro ⟨hf, hl⟩
    rw [Session.offLine_iff hfile] at hoff
    exact hoff ⟨hf.symm, hl.symm.trans hline.symm⟩
  obtain ⟨q, hq, ⟨hqlt, hqd, _⟩, last, h⟩ | ⟨none, _⟩ :=
    @processStepback_cases db (s.fetch r) hopen (show 1 < r.step by omega)
  · rw [Session.fetch_curStep] at hqlt
    rw [Session.fetch_curDepth, hdr] at hqd
    have hle : r₀.step ≤ q.step := last r₀ hr₀ (show r₀.step < r.step by omega)
      (show r₀.depth ≤ (Int32.ofInt r.depth).toInt by omega) hback
    refine ⟨_, h, ⟨q, hq, rfl⟩, show s.curStep ≤ q.step by omega, hqlt, ?_⟩
    show some q.file = s.curFile ∧ q.line = s.curLine
    rcases Nat.eq_or_lt_of_le hle with heq | hbetween
    · cases rec.stopRow_unique hr₀ hq heq
      exact ⟨hfile.symm, hline.symm⟩
    · -- a row strictly between that is off the old line would have stopped `next`
      have hon : ¬ s.offLine q = true := fun hqoff => by
        have := first q hq (by omega) hqd hqoff
        omega
      rw [Session.offLine_iff hfile, not_not] at hon
      exact ⟨hfile ▸ congrArg some hon.1, hon.2⟩
  · have := none r₀ hr₀ (show r₀.step < r.step by omega)
      (show r₀.depth ≤ (Int32.ofInt r.depth).toInt by omega)
    rw [hback] at this
    cases this

/-- A line that calls its own function: the call's steps are on the same line, deeper. -/
def recursingDb : Db where
  steps := [⟨1, 0x1000, 1, 1⟩, ⟨2, 0x1000, 2, 1⟩, ⟨3, 0x1008, 2, 1⟩, ⟨4, 0x1008, 1, 1⟩]
  statements :=
    [⟨1, 10, 0x1000, some 1, some 1, some 1⟩, ⟨1, 11, 0x1008, some 1, some 1, some 2⟩]
  files := [⟨1, "recursing.c", "recursing.c"⟩]
  functions := [⟨1, "f", 1⟩]
  exitSignal := none

/-- A session on the first step of the recursion. -/
def recursingSession : Session :=
  { Session.init with dbOpen := true, curFile := some "recursing.c", curStep := 1, curLine := 10,
                      curDepth := 1 }

theorem stepBack_undoes_next_recursing :
    ∃ t, processStepback recursingDb (processNext recursingDb recursingSession).1 =
        (t, .ok [.stopped .step]) ∧ 1 ≤ t.curStep ∧ t.curLine = 10 := by
  obtain ⟨t, h, _, hle, _, _, hline⟩ := @stepBack_undoes_next recursingDb (by decide)
    recursingSession (processNext recursingDb recursingSession).1 (by decide)
    (Prod.ext rfl (by decide)) (by decide)
  exact ⟨t, h, hle, hline⟩

end FlightRec
