/-
# `FlightRec.Examine.Runs` — breakpoint runs

Several statements may stand on one line, and a step is one statement; so a line
with a breakpoint is hit by several steps in a row.  Such a row of steps is a run,
and a user expects one stop for each.  `process_continue` and `process_revcontinue`
tell runs apart while they fetch, from the ids of neighbouring rows and from file
name and line of the current step, which moves along.

    `continue` stops at the first step of every run ahead, one after
    the other, and then at the last step                             (`continues_visit_runs`)
    `reverseContinue` undoes the `continue` just before it           (`revcontinue_undoes_continue`)

The handlers compare file names where the join with `local.breakpoint` compares file
ids, so both need that distinct files have distinct names (`FilesNamed`).
-/
import FlightRec.Examine.Session

namespace FlightRec

open Query

/-! ## Where a session stands -/

/-- The file, line and step in the globals are those of `r`; the depth is left open,
as `set_last_step` does not fetch it. -/
def Session.StandsOn (db : Db) (s : Session) (r : StopRow) : Prop :=
  r ∈ db.stopRows ∧ r.step = s.curStep ∧ s.curFile = some r.file ∧ s.curLine = r.line

theorem Session.standsOn_fetch {db : Db} {r : StopRow} (hr : r ∈ db.stopRows) (s : Session) :
    (s.fetch r).StandsOn db r :=
  ⟨hr, rfl, rfl, rfl⟩

theorem Session.standsOn_land {db : Db} {r : StopRow} (hr : r ∈ db.stopRows) (s : Session) :
    (s.land r).StandsOn db r :=
  ⟨hr, rfl, rfl, rfl⟩

theorem Outcome.standsOn {db : Db} {bps : Breakpoints} {s s' : Session} {request : Request}
    {reply : Reply} (h : Outcome db bps s request s' reply)
    (hs : s.dbOpen = true → ∃ r, s.StandsOn db r) :
    s'.dbOpen = true → ∃ r, s'.StandsOn db r := by
  intro hopen
  cases h with
  | launchRefused error => exact hs hopen
  | launched r entry hr h1 => exact ⟨r, hr, rfl, rfl, rfl⟩
  | closed hclosed hq => exact hs hopen
  | next r _ hr => exact ⟨r, Session.standsOn_fetch hr.mem s⟩
  | nextEnd _ hnone => exact hs hopen
  | stepIn r _ hr => exact ⟨r, Session.standsOn_fetch hr.mem s⟩
  | stepInEnd _ hnone => exact hs hopen
  | topLevel hd => exact hs hopen
  | stepOut r _ hr => exact ⟨r, Session.standsOn_fetch hr.mem s⟩
  | stepOutEnd _ hd hnone => exact hs hopen
  | firstStep h1 => exact hs hopen
  | stepBack r _ hr => exact ⟨r, Session.standsOn_fetch hr.mem s⟩
  | stepBackNone _ h1 hnone => exact hs hopen
  | breakpoint r _ hc hr => exact ⟨r, Session.standsOn_fetch hr.mem s⟩
  | ranOff r _ hc hno hr hn => exact ⟨r, Session.standsOn_land hr s⟩
  | backBreakpoint r _ hr => exact ⟨r, Session.standsOn_fetch hr.mem s⟩
  | backFirst r _ _ hr h1 => exact ⟨r, Session.standsOn_land hr s⟩
  | acknowledged hentry => exact hs hopen

/-- In every session, whatever it has asked for, the globals name a step from `launch` on. -/
theorem exchanges_standsOn {db : Db} (rec : Located db) (hne : db.steps ≠ [])
    (calls : List Call) :
    ∀ x ∈ exchanges db .init calls, x.before.dbOpen = true → ∃ r, x.before.StandsOn db r := by
  intro x hx
  refine (exchanges_invariant (fun s => s.dbOpen = true → ∃ r, s.StandsOn db r)
    (fun s c hs => ?_) calls .init (fun h => by cases h) x hx).1
  exact (processRequest_outcome rec hne c.bps s c.request).standsOn hs

/-! ## Runs -/

/-- Distinct files have distinct names. -/
def FilesNamed (db : Db) : Prop := ∀ f ∈ db.files, ∀ g ∈ db.files, f.name = g.name → f.id = g.id

instance (db : Db) : Decidable (FilesNamed db) :=
  inferInstanceAs (Decidable (∀ f ∈ db.files, _))

/-- The steps from `i` to `j` are on one line, and it has a breakpoint. -/
def InOneRun (db : Db) (bps : Breakpoints) (i j : Nat) : Prop :=
  ∃ file line, ∀ k, min i j ≤ k → k ≤ max i j →
    ∃ r ∈ db.breakpointRows bps, r.step = k ∧ r.file = file ∧ r.line = line

/-- `r` is the first step of its run. -/
def FirstOfRun (db : Db) (bps : Breakpoints) (r : StopRow) : Prop :=
  r ∈ db.breakpointRows bps ∧ ∀ j < r.step, ¬ InOneRun db bps j r.step

/-- The step before `r` is on its line, which has a breakpoint. -/
def continuesRun (db : Db) (bps : Breakpoints) (r : StopRow) : Bool :=
  (db.breakpointRows bps).any fun q => q.step + 1 = r.step ∧ q.file = r.file ∧ q.line = r.line

theorem continuesRun_iff {db : Db} {bps : Breakpoints} {r : StopRow} :
    continuesRun db bps r = true ↔
      ∃ q ∈ db.breakpointRows bps, q.step + 1 = r.step ∧ q.file = r.file ∧ q.line = r.line := by
  simp [continuesRun, List.any_eq_true]

theorem InOneRun.symm {db : Db} {bps : Breakpoints} {i j : Nat} (h : InOneRun db bps i j) :
    InOneRun db bps j i := by
  obtain ⟨file, line, hall⟩ := h
  exact ⟨file, line, fun k hlo hhi => hall k (by omega) (by omega)⟩

section
variable {db : Db} {bps : Breakpoints} (rec : Located db)

theorem inOneRun_self {r : StopRow} (hr : r ∈ db.breakpointRows bps) :
    InOneRun db bps r.step r.step :=
  ⟨r.file, r.line, fun k hlo hhi => ⟨r, hr, by omega, rfl, rfl⟩⟩

include rec

theorem InOneRun.extend {i : Nat} {q r : StopRow} (h : InOneRun db bps i q.step)
    (hle : i ≤ q.step) (hq : q ∈ db.breakpointRows bps) (hr : r ∈ db.breakpointRows bps)
    (hnext : q.step + 1 = r.step) (hfile : q.file = r.file) (hline : q.line = r.line) :
    InOneRun db bps i r.step := by
  obtain ⟨file, line, hall⟩ := h
  obtain ⟨q', hq', hstep, hf, hl⟩ := hall q.step (by omega) (by omega)
  cases rec.stopRow_unique (mem_breakpointRows.mp hq').1 (mem_breakpointRows.mp hq).1 hstep
  refine ⟨file, line, fun k hlo hhi => ?_⟩
  by_cases hk : k = r.step
  · exact ⟨r, hr, hk.symm, hfile.symm.trans hf, hline.symm.trans hl⟩
  · exact hall k (by omega) (by omega)

theorem firstOfRun_iff {r : StopRow} (hr : r ∈ db.breakpointRows bps) :
    FirstOfRun db bps r ↔ continuesRun db bps r = false := by
  rw [← Bool.not_eq_true, continuesRun_iff]
  constructor
  · rintro ⟨_, hfirst⟩ ⟨q, hq, hnext, hfile, hline⟩
    exact hfirst q.step (by omega)
      ((inOneRun_self hq).extend rec (Nat.le_refl _) hq hr hnext hfile hline)
  · refine fun hno => ⟨hr, fun j hj hrun => hno ?_⟩
    obtain ⟨file, line, hall⟩ := hrun
    obtain ⟨q, hq, hstep, hf, hl⟩ := hall (r.step - 1) (by omega) (by omega)
    obtain ⟨r', hr', hstep', hf', hl'⟩ := hall r.step (by omega) (by omega)
    cases rec.stopRow_unique (mem_breakpointRows.mp hr').1 (mem_breakpointRows.mp hr).1 hstep'
    exact ⟨q, hq, by omega, hf.trans hf'.symm, hl.trans hl'.symm⟩

end

/-! ## What `continue` skips -/

section
variable {db : Db} {bps : Breakpoints} (rec : Located db) (named : FilesNamed db)
include named

theorem FilesNamed.breakpointRow {q r : StopRow} (hq : q ∈ db.stopRows)
    (hr : r ∈ db.breakpointRows bps) (hfile : q.file = r.file) (hline : q.line = r.line) :
    q ∈ db.breakpointRows bps := by
  obtain ⟨hrows, hbr⟩ := mem_breakpointRows.mp hr
  obtain ⟨_, _, _, _, _, f, hf, _, rfl⟩ := mem_stopRows.mp hq
  obtain ⟨_, _, _, _, _, g, hg, _, rfl⟩ := mem_stopRows.mp hrows
  have hid : f.id = g.id := named f hf g hg hfile
  refine mem_breakpointRows.mpr ⟨hq, ?_⟩
  rw [show (f.id, _) = (g.id, _) from Prod.ext hid hline]
  exact hbr

include rec

/-- The next breakpoint row is skipped exactly if it goes on with the run of the
current step. -/
theorem skips_iff {s : Session} {r₀ r : StopRow} (hat : s.StandsOn db r₀)
    (hr : r ∈ db.breakpointRows bps) (hlt : s.curStep < r.step)
    (next : ∀ q ∈ db.breakpointRows bps, s.curStep < q.step → r.step ≤ q.step) :
    (s.isNext r && s.onLine r) = true ↔ continuesRun db bps r = true := by
  obtain ⟨hr₀, hstep, hfile, hline⟩ := hat
  rw [continuesRun_iff]
  simp only [Bool.and_eq_true, Session.isNext, Session.onLine, beq_iff_eq, hfile, hline,
    Option.some.injEq]
  constructor
  · rintro ⟨hadj, hl, hf⟩
    exact ⟨r₀, named.breakpointRow hr₀ hr hf.symm hl.symm, by omega, hf.symm, hl.symm⟩
  · rintro ⟨q, hq, hadj, hf, hl⟩
    have hcur : q.step = s.curStep := by
      by_contra hne
      have := next q hq (by omega)
      omega
    cases rec.stopRow_unique (mem_breakpointRows.mp hq).1 hr₀ (hcur.trans hstep.symm)
    exact ⟨by omega, hl.symm, hf.symm⟩

/-- The loop of `process_continue` stops at the first row that begins a run. -/
theorem continueLoop_isNext_find : ∀ {rows : List StopRow} {s : Session} {r₀ : StopRow},
    s.StandsOn db r₀ → rows.Pairwise (fun q r => q.step < r.step) →
    (∀ q, q ∈ rows ↔ q ∈ db.breakpointRows bps ∧ s.curStep < q.step) →
    (∀ r, rows.find? (fun r => !continuesRun db bps r) = some r →
      continueLoop Session.isNext rows s = (s.fetch r, true)) ∧
    (rows.find? (fun r => !continuesRun db bps r) = none →
      (continueLoop Session.isNext rows s).2 = false)
  | [], s, r₀, _, _, _ => ⟨fun r h => (by cases h), fun _ => rfl⟩
  | r :: rest, s, r₀, hat, hp, hmem => by
      obtain ⟨hfirst, hrest⟩ := List.pairwise_cons.mp hp
      obtain ⟨hr, hlt⟩ := (hmem r).mp (by simp)
      have next : ∀ q ∈ db.breakpointRows bps, s.curStep < q.step → r.step ≤ q.step := by
        intro q hq hqlt
        rcases List.mem_cons.mp ((hmem q).mpr ⟨hq, hqlt⟩) with rfl | hq
        · exact Nat.le_refl _
        · exact Nat.le_of_lt (hfirst q hq)
      have hskip := skips_iff rec named hat hr hlt next
      cases hc : continuesRun db bps r with
      | true =>
          -- the current step moves to `r`, which is on the same line
          have hon : s.isNext r = true ∧ s.onLine r = true := by
            simpa only [Bool.and_eq_true] using hskip.mpr hc
          have hat' : Session.StandsOn db
              { s with curDepth := .ofInt r.depth, curStep := r.step } r := by
            obtain ⟨_, _, hfile, hline⟩ := hat
            have hl : r.line = s.curLine ∧ some r.file = s.curFile := by
              simpa [Session.onLine] using hon.2
            exact ⟨(mem_breakpointRows.mp hr).1, rfl, hl.2.symm, hl.1.symm⟩
          have hmem' : ∀ q, q ∈ rest ↔ q ∈ db.breakpointRows bps ∧ r.step < q.step := by
            refine fun q => ⟨fun hq => ⟨((hmem q).mp (by simp [hq])).1, hfirst q hq⟩, ?_⟩
            rintro ⟨hq, hqlt⟩
            have := (hmem q).mpr ⟨hq, by omega⟩
            rcases List.mem_cons.mp this with rfl | hq
            · exact absurd hqlt (Nat.lt_irrefl _)
            · exact hq
          obtain ⟨hsome, hnone⟩ := continueLoop_isNext_find hat' hrest hmem'
          have hloop : continueLoop Session.isNext (r :: rest) s =
              continueLoop Session.isNext rest
                { s with curDepth := .ofInt r.depth, curStep := r.step } := by
            rw [continueLoop]
            exact if_pos (by rw [Bool.and_eq_true]; exact hon)
          rw [List.find?_cons_of_neg (by simp [hc]), hloop]
          exact ⟨hsome, hnone⟩
      | false =>
          have hoff : ¬ (s.isNext r && s.onLine r) = true := by
            rw [hskip, hc]
            exact Bool.false_ne_true
          rw [List.find?_cons_of_pos (by simp [hc])]
          refine ⟨fun q hq => ?_, fun h => by cases h⟩
          cases hq
          rw [continueLoop]
          exact if_neg hoff

end

/-! ## The runs ahead -/

/-- The first steps of the runs behind step `i`, in order. -/
def runsAhead (db : Db) (bps : Breakpoints) (i : Nat) : List StopRow :=
  (orderBy (·.step) ((db.breakpointRows bps).filter fun r => i < r.step)).filter
    fun r => !continuesRun db bps r

section
variable {db : Db} {bps : Breakpoints} (rec : Located db)
include rec

theorem mem_runsAhead {i : Nat} {r : StopRow} :
    r ∈ runsAhead db bps i ↔ FirstOfRun db bps r ∧ i < r.step := by
  rw [runsAhead, List.mem_filter, mem_orderBy, List.mem_filter, decide_eq_true_eq,
    Bool.not_eq_true']
  constructor
  · rintro ⟨⟨hr, hlt⟩, hc⟩
    exact ⟨(firstOfRun_iff rec hr).mpr hc, hlt⟩
  · rintro ⟨hfirst, hlt⟩
    exact ⟨⟨hfirst.1, hlt⟩, (firstOfRun_iff rec hfirst.1).mp hfirst⟩

theorem breakpointRows_strict (i : Nat) :
    (orderBy (·.step) ((db.breakpointRows bps).filter fun r => i < r.step)).Pairwise
      (fun q r => q.step < r.step) :=
  orderBy_strict (rec.breakpointRows_nodup bps fun r => i < r.step)

variable (bps) in
theorem runsAhead_strict (i : Nat) :
    (runsAhead db bps i).Pairwise (fun q r => q.step < r.step) :=
  (breakpointRows_strict rec i).filter _

theorem runsAhead_cons {i : Nat} {r : StopRow} {rest : List StopRow}
    (h : runsAhead db bps i = r :: rest) : runsAhead db bps r.step = rest := by
  have hstrict := runsAhead_strict bps rec i
  rw [h] at hstrict
  obtain ⟨hfirst, hrest⟩ := List.pairwise_cons.mp hstrict
  have hmem : ∀ q, q ∈ runsAhead db bps r.step ↔ q ∈ rest := by
    intro q
    have hall : q ∈ r :: rest ↔ FirstOfRun db bps q ∧ i < q.step := h ▸ mem_runsAhead rec
    have hr : i < r.step := ((mem_runsAhead rec).mp (h ▸ List.mem_cons_self)).2
    rw [mem_runsAhead rec]
    constructor
    · rintro ⟨hq, hlt⟩
      rcases List.mem_cons.mp (hall.mpr ⟨hq, by omega⟩) with rfl | hq
      · exact absurd hlt (Nat.lt_irrefl _)
      · exact hq
    · intro hq
      exact ⟨(hall.mp (List.mem_cons_of_mem _ hq)).1, hfirst q hq⟩
  have nodup : ∀ {l : List StopRow}, l.Pairwise (fun q r => q.step < r.step) → l.Nodup :=
    fun hl => hl.imp fun hlt heq => by rw [heq] at hlt; exact Nat.lt_irrefl _ hlt
  have hbehind := runsAhead_strict bps rec r.step
  exact ((List.perm_ext_iff_of_nodup (nodup hbehind) (nodup hrest)).mpr hmem).eq_of_pairwise
    (fun a b _ _ hab hba => absurd hab (Nat.lt_asymm hba)) hbehind hrest

theorem exists_firstOfRun (n : Nat) : ∀ q ∈ db.breakpointRows bps, q.step = n →
    ∃ f, FirstOfRun db bps f ∧ f.step ≤ q.step ∧ InOneRun db bps f.step q.step := by
  induction n with
  | zero =>
      intro q hq hn
      have := (rec.stopRow_bounds (mem_breakpointRows.mp hq).1).1
      omega
  | succ n ih =>
      intro q hq hn
      cases hc : continuesRun db bps q with
      | false => exact ⟨q, (firstOfRun_iff rec hq).mpr hc, Nat.le_refl _, inOneRun_self hq⟩
      | true =>
          obtain ⟨p, hp, hadj, hfile, hline⟩ := continuesRun_iff.mp hc
          obtain ⟨f, hf, hle, hrun⟩ := ih p hp (by omega)
          exact ⟨f, hf, by omega, hrun.extend rec hle hp hq hadj hfile hline⟩

/-- A breakpoint step behind `i` and before all runs ahead is in the run of `i`. -/
theorem inOneRun_of_before {i : Nat} {q : StopRow} (hq : q ∈ db.breakpointRows bps)
    (hlt : i < q.step) (before : ∀ f ∈ runsAhead db bps i, q.step < f.step) :
    InOneRun db bps i q.step := by
  obtain ⟨f, hf, hle, hrun⟩ := exists_firstOfRun rec q.step q hq rfl
  have hfi : f.step ≤ i := by
    by_contra hgt
    have := before f ((mem_runsAhead rec).mpr ⟨hf, by omega⟩)
    omega
  obtain ⟨file, line, hall⟩ := hrun
  exact ⟨file, line, fun k hlo hhi => hall k (by omega) (by omega)⟩

end

/-! ## `continue` -/

section
variable {db : Db} {bps : Breakpoints} (rec : Located db) (named : FilesNamed db) {s : Session}
  {r₀ : StopRow} (hopen : s.dbOpen = true) (hat : s.StandsOn db r₀)
include rec named hopen hat

variable (bps) in
theorem processContinue_ahead :
    (∃ r rest, runsAhead db bps s.curStep = r :: rest ∧
      processContinue db bps s = (s.fetch r, .ok [.stopped .breakpoint])) ∨
    (runsAhead db bps s.curStep = [] ∧ ∃ r ∈ db.stopRows, r.step = db.steps.length ∧
      processContinue db bps s =
        (s.land r, .ok [.stopped (if s.signum ≠ 0 then .signal else .exit)])) := by
  have hmem : ∀ q, q ∈ orderBy (·.step) ((db.breakpointRows bps).filter fun r =>
      s.curStep < r.step) ↔ q ∈ db.breakpointRows bps ∧ s.curStep < q.step := by
    intro q
    rw [mem_orderBy, List.mem_filter, decide_eq_true_eq]
  obtain ⟨hsome, hnone⟩ := continueLoop_isNext_find rec named hat
    (breakpointRows_strict rec s.curStep) hmem
  rw [← List.head?_filter] at hnone
  simp only [← List.head?_filter] at hsome
  have hne : db.steps ≠ [] := by
    intro h
    have hbounds := rec.stopRow_bounds hat.1
    rw [h] at hbounds
    simp only [List.length_nil] at hbounds
    omega
  unfold processContinue
  rw [if_neg (by simp [hopen])]
  cases hahead : runsAhead db bps s.curStep with
  | cons r rest =>
      have hhead : (runsAhead db bps s.curStep).head? = some r := by rw [hahead]; rfl
      rw [hsome r hhead]
      exact Or.inl ⟨r, rest, rfl, rfl⟩
  | nil =>
      have hhead : (runsAhead db bps s.curStep).head? = none := by rw [hahead]; rfl
      have hout := hnone hhead
      rcases continueLoop_cases Session.isNext (orderBy (·.step)
          ((db.breakpointRows bps).filter fun r => s.curStep < r.step)) s with
        ⟨r, _, hloop⟩ | ⟨c, d, hloop⟩
      · rw [hloop] at hout
        cases hout
      · obtain ⟨r, hr, hn, hset⟩ :=
          setLastStep_eq rec.traced hne { s with curStep := c, curDepth := d }
        rw [hloop]
        refine Or.inr ⟨rfl, r, hr, hn, ?_⟩
        simp only [hset]
        rfl

theorem processContinue_first :
    (∃ r ∈ db.breakpointRows bps, s.curStep < r.step ∧ ¬ InOneRun db bps s.curStep r.step ∧
      (∀ q ∈ db.breakpointRows bps, s.curStep < q.step → ¬ InOneRun db bps s.curStep q.step →
        r.step ≤ q.step) ∧
      processContinue db bps s = (s.fetch r, .ok [.stopped .breakpoint])) ∨
    ((∀ q ∈ db.breakpointRows bps, s.curStep < q.step → InOneRun db bps s.curStep q.step) ∧
      ∃ r ∈ db.stopRows, r.step = db.steps.length ∧ processContinue db bps s =
        (s.land r, .ok [.stopped (if s.signum ≠ 0 then .signal else .exit)])) := by
  rcases processContinue_ahead bps rec named hopen hat with
    ⟨r, rest, hahead, h⟩ | ⟨hahead, r, hr, hn, h⟩
  · obtain ⟨hfirst, hlt⟩ := (mem_runsAhead rec).mp (hahead ▸ List.mem_cons_self)
    refine Or.inl ⟨r, hfirst.1, hlt, hfirst.2 s.curStep hlt, fun q hq hqlt hout => ?_, h⟩
    by_contra hbefore
    refine hout (inOneRun_of_before rec hq hqlt fun f hf => ?_)
    rw [hahead] at hf
    rcases List.mem_cons.mp hf with rfl | hf
    · omega
    · have hstrict := runsAhead_strict bps rec s.curStep
      rw [hahead] at hstrict
      have := (List.pairwise_cons.mp hstrict).1 f hf
      omega
  · refine Or.inr ⟨fun q hq hqlt => inOneRun_of_before rec hq hqlt fun f hf => ?_, r, hr, hn, h⟩
    rw [hahead] at hf
    cases hf

end

/-- The globals after a number of `continue` requests. -/
def continues (db : Db) (bps : Breakpoints) : Nat → Session → Session
  | 0, s => s
  | n + 1, s => continues db bps n (processContinue db bps s).1

section
variable {db : Db} {bps : Breakpoints} (rec : Located db) (named : FilesNamed db)
include rec named

/-- After `n + 1` requests the session stands on the first step of run `n` ahead, or
on the last step if there are not as many. -/
theorem continues_ahead (n : Nat) : ∀ {s : Session} {r₀ : StopRow}, s.dbOpen = true →
    s.StandsOn db r₀ → (continues db bps (n + 1) s).curStep =
      ((runsAhead db bps s.curStep).map (·.step))[n]?.getD db.steps.length := by
  induction n with
  | zero =>
      intro s r₀ hopen hat
      rcases processContinue_ahead bps rec named hopen hat with
        ⟨r, rest, hahead, h⟩ | ⟨hahead, r, hr, hn, h⟩
      · simp only [continues, h, hahead, Session.fetch_curStep, List.map_cons,
          List.getElem?_cons_zero, Option.getD_some]
      · simp only [continues, h, hahead, List.map_nil, List.getElem?_nil, Option.getD_none]
        exact hn
  | succ n ih =>
      intro s r₀ hopen hat
      rw [continues]
      rcases processContinue_ahead bps rec named hopen hat with
        ⟨r, rest, hahead, h⟩ | ⟨hahead, r, hr, hn, h⟩
      · have hrow := (mem_breakpointRows.mp
          ((mem_runsAhead rec).mp (hahead ▸ List.mem_cons_self)).1.1).1
        rw [h, ih (s := s.fetch r) hopen (Session.standsOn_fetch hrow s), hahead, List.map_cons,
          List.getElem?_cons_succ]
        rw [Session.fetch_curStep, runsAhead_cons rec hahead]
      · have hend : runsAhead db bps (s.land r).curStep = [] := by
          refine List.eq_nil_iff_forall_not_mem.mpr fun f hf => ?_
          obtain ⟨hfirst, hlt⟩ := (mem_runsAhead rec).mp hf
          have hbounds := rec.stopRow_bounds (mem_breakpointRows.mp hfirst.1).1
          have hlast : r.step < f.step := hlt
          omega
        rw [h, ih (s := s.land r) hopen (Session.standsOn_land hr s), hend, hahead]
        rfl

end

/-- **`continue` enumerates the runs.**  From any step it stops at the first
breakpoint step ahead that is not in the run of this step; and repeated, it stops at
the first steps of all runs ahead in order, once each, and then at the last step. -/
theorem continues_visit_runs {db : Db} {bps : Breakpoints} (rec : Located db)
    (named : FilesNamed db) {s : Session} {r₀ : StopRow} (hopen : s.dbOpen = true)
    (hat : s.StandsOn db r₀) :
    ((∃ r ∈ db.breakpointRows bps, s.curStep < r.step ∧ ¬ InOneRun db bps s.curStep r.step ∧
        (∀ q ∈ db.breakpointRows bps, s.curStep < q.step → ¬ InOneRun db bps s.curStep q.step →
          r.step ≤ q.step) ∧
        processContinue db bps s = (s.fetch r, .ok [.stopped .breakpoint])) ∨
      ((∀ q ∈ db.breakpointRows bps, s.curStep < q.step → InOneRun db bps s.curStep q.step) ∧
        ∃ r ∈ db.stopRows, r.step = db.steps.length ∧ processContinue db bps s =
          (s.land r, .ok [.stopped (if s.signum ≠ 0 then .signal else .exit)]))) ∧
    (∀ r, r ∈ runsAhead db bps s.curStep ↔ FirstOfRun db bps r ∧ s.curStep < r.step) ∧
    (runsAhead db bps s.curStep).Pairwise (fun q r => q.step < r.step) ∧
    ∀ n, (continues db bps (n + 1) s).curStep =
      ((runsAhead db bps s.curStep).map (·.step))[n]?.getD db.steps.length :=
  ⟨processContinue_first rec named hopen hat, fun _ => mem_runsAhead rec,
   runsAhead_strict bps rec s.curStep, fun n => continues_ahead rec named n hopen hat⟩

/-- A loop over two lines, the first of which is executed in two steps. -/
def loopDb : Db where
  steps := [⟨1, 0x1000, 1, 1⟩, ⟨2, 0x1004, 1, 1⟩, ⟨3, 0x1008, 1, 1⟩, ⟨4, 0x100c, 1, 1⟩,
    ⟨5, 0x1004, 1, 1⟩, ⟨6, 0x1008, 1, 1⟩, ⟨7, 0x100c, 1, 1⟩]
  statements :=
    [⟨1, 10, 0x1000, some 1, some 1, some 1⟩, ⟨1, 11, 0x1004, some 1, some 1, none⟩,
     ⟨1, 11, 0x1008, some 1, some 1, none⟩, ⟨1, 12, 0x100c, some 1, some 1, some 2⟩]
  files := [⟨1, "loop.c", "loop.c"⟩]
  functions := [⟨1, "main", 1⟩]
  exitSignal := none

/-- A breakpoint on the first line of the loop. -/
def loopBreakpoints : Breakpoints := ⟨[(1, 11)], by decide⟩

/-- Standing on the second step. -/
def loopSession : Session :=
  { dbOpen := true, curFile := some "loop.c", curStep := 2, curLine := 11, curDepth := 1,
    signum := 0, stopOnEntry := true }

theorem continues_visit_runs_loop :
    (runsAhead loopDb loopBreakpoints 2).map (·.step) = [5] ∧
      (continues loopDb loopBreakpoints 1 loopSession).curStep = 5 ∧
      (continues loopDb loopBreakpoints 2 loopSession).curStep = 7 := by
  obtain ⟨_, _, _, visits⟩ := @continues_visit_runs loopDb loopBreakpoints (by decide) (by decide)
    loopSession ⟨1, "loop.c", 11, 2, 1⟩ rfl ⟨by decide, rfl, rfl, rfl⟩
  exact ⟨by decide, (visits 0).trans (by decide), (visits 1).trans (by decide)⟩

/-! ## `reverseContinue` after `continue` -/

section
variable {db : Db} {bps : Breakpoints} (rec : Located db)
include rec

theorem processRevcontinue_before {s : Session} {t : StopRow} (hopen : s.dbOpen = true)
    (hat : s.StandsOn db t) (hfirst : FirstOfRun db bps t) {q : StopRow}
    (hq : q ∈ db.breakpointRows bps) (hlt : q.step < t.step) :
    ∃ p ∈ db.breakpointRows bps, p.step < t.step ∧
      (∀ q ∈ db.breakpointRows bps, q.step < t.step → q.step ≤ p.step) ∧
      processRevcontinue db bps s = (s.fetch p, .ok [.stopped .breakpoint]) := by
  obtain ⟨_, hstep, hfile, hline⟩ := hat
  have hmem : ∀ x, x ∈ orderByDesc (·.step) ((db.breakpointRows bps).filter fun r =>
      r.step < s.curStep) ↔ x ∈ db.breakpointRows bps ∧ x.step < t.step := by
    intro x
    rw [mem_orderByDesc, List.mem_filter, decide_eq_true_eq, hstep]
  have hstrict := orderByDesc_pairwise (fun r : StopRow => r.step)
    ((db.breakpointRows bps).filter fun r => r.step < s.curStep)
  unfold processRevcontinue
  rw [if_neg (by simp [hopen])]
  cases hrows : orderByDesc (fun r : StopRow => r.step)
      ((db.breakpointRows bps).filter fun r => r.step < s.curStep) with
  | nil =>
      have := (hmem q).mpr ⟨hq, hlt⟩
      rw [hrows] at this
      cases this
  | cons p rest =>
      simp only [hrows] at hmem hstrict
      obtain ⟨hp, hplt⟩ := (hmem p).mp (by simp)
      refine ⟨p, hp, hplt, fun x hx hxlt => ?_, ?_⟩
      · rcases List.mem_cons.mp ((hmem x).mpr ⟨hx, hxlt⟩) with rfl | hx
        · exact Nat.le_refl _
        · exact (List.pairwise_cons.mp hstrict).1 x hx
      · -- `p` cannot be the step before on the same line: `t` begins its run
        have hoff : ¬ (s.isPrev p && s.onLine p) = true := by
          intro hon
          simp only [Bool.and_eq_true, Session.isPrev, Session.onLine, beq_iff_eq, hfile, hline,
            Option.some.injEq] at hon
          obtain ⟨hadj, hl, hf⟩ := hon
          have hc := (firstOfRun_iff rec hfirst.1).mp hfirst
          rw [Bool.eq_false_iff] at hc
          exact hc (continuesRun_iff.mpr ⟨p, hp, hadj.trans hstep.symm, hf, hl⟩)
        have hloop : continueLoop Session.isPrev (p :: rest) s = (s.fetch p, true) := by
          rw [continueLoop]
          exact if_neg hoff
        rw [hloop]

theorem InOneRun.sameLine {q r : StopRow} (h : InOneRun db bps q.step r.step)
    (hq : q ∈ db.breakpointRows bps) (hr : r ∈ db.breakpointRows bps) :
    q.file = r.file ∧ q.line = r.line := by
  obtain ⟨file, line, hall⟩ := h
  obtain ⟨q', hq', hqstep, hqf, hql⟩ := hall q.step (by omega) (by omega)
  obtain ⟨r', hr', hrstep, hrf, hrl⟩ := hall r.step (by omega) (by omega)
  cases rec.stopRow_unique (mem_breakpointRows.mp hq').1 (mem_breakpointRows.mp hq).1 hqstep
  cases rec.stopRow_unique (mem_breakpointRows.mp hr').1 (mem_breakpointRows.mp hr).1 hrstep
  exact ⟨hqf.trans hrf.symm, hql.trans hrl.symm⟩

end

/-- **`reverseContinue` undoes `continue`.**  From a step `r₀` of a run, `continue`
stops at the first step of a later run, and `reverseContinue` then stops on a step of
the run of `r₀` again. -/
theorem revcontinue_undoes_continue {db : Db} {bps : Breakpoints} (rec : Located db)
    (named : FilesNamed db) {s s' : Session} {r₀ : StopRow} (hopen : s.dbOpen = true)
    (hat : s.StandsOn db r₀) (hr₀ : r₀ ∈ db.breakpointRows bps)
    (hcontinue : processContinue db bps s = (s', .ok [.stopped .breakpoint])) :
    ∃ t, s'.StandsOn db t ∧ FirstOfRun db bps t ∧ ¬ InOneRun db bps s.curStep t.step ∧
      ∃ q ∈ db.breakpointRows bps,
        processRevcontinue db bps s' = (s'.fetch q, .ok [.stopped .breakpoint]) ∧
        InOneRun db bps q.step s.curStep ∧ q.file = r₀.file ∧ q.line = r₀.line ∧
        q.step < t.step ∧ ∀ f, FirstOfRun db bps f → InOneRun db bps f.step s.curStep →
          f.step ≤ q.step := by
  obtain ⟨t, rest, hahead, h⟩ | ⟨_, r, _, _, h⟩ :=
    processContinue_ahead bps rec named hopen hat
  · rw [h, Prod.mk.injEq] at hcontinue
    obtain ⟨rfl, -⟩ := hcontinue
    obtain ⟨hfirst, hlt⟩ := (mem_runsAhead rec).mp (hahead ▸ List.mem_cons_self)
    have ht := (mem_breakpointRows.mp hfirst.1).1
    have hstep := hat.2.1
    have hout := hfirst.2 s.curStep hlt
    refine ⟨t, Session.standsOn_fetch ht s, hfirst, hout, ?_⟩
    obtain ⟨q, hq, hqt, hlast, hback⟩ := processRevcontinue_before rec
      (s := s.fetch t) hopen (Session.standsOn_fetch ht s) hfirst hr₀ (by omega)
    have hle : s.curStep ≤ q.step := hstep ▸ hlast r₀ hr₀ (by omega)
    have hrun : InOneRun db bps q.step s.curStep := by
      rcases Nat.eq_or_lt_of_le hle with heq | hlt'
      · exact heq ▸ inOneRun_self hq
      · -- no run begins between the step and the run that `continue` stopped at
        refine (inOneRun_of_before rec hq hlt' fun f hf => ?_).symm
        rw [hahead] at hf
        rcases List.mem_cons.mp hf with rfl | hf
        · exact hqt
        · have hstrict := runsAhead_strict bps rec s.curStep
          rw [hahead] at hstrict
          have := (List.pairwise_cons.mp hstrict).1 f hf
          omega
    obtain ⟨hfile, hline⟩ := InOneRun.sameLine rec (hstep ▸ hrun) hq hr₀
    refine ⟨q, hq, hback, hrun, hfile, hline, hqt, fun f hf hfs => ?_⟩
    by_contra hafter
    exact hf.2 s.curStep (by omega) hfs.symm
  · rw [h, Prod.mk.injEq] at hcontinue
    have := hcontinue.2
    split at this <;> simp [Reply.ok] at this

theorem revcontinue_undoes_continue_loop :
    ∃ q, processRevcontinue loopDb loopBreakpoints
        (processContinue loopDb loopBreakpoints loopSession).1 =
          ((processContinue loopDb loopBreakpoints loopSession).1.fetch q,
            .ok [.stopped .breakpoint]) ∧
      InOneRun loopDb loopBreakpoints q.step 2 := by
  obtain ⟨_, _, _, _, q, _, hback, hrun, _⟩ :=
    @revcontinue_undoes_continue loopDb loopBreakpoints (by decide) (by decide)
      loopSession (processContinue loopDb loopBreakpoints loopSession).1
      ⟨1, "loop.c", 11, 2, 1⟩ rfl ⟨by decide, rfl, rfl, rfl⟩ (by decide)
      (Prod.ext rfl (by decide))
  exact ⟨q, hback, hrun⟩

end FlightRec
