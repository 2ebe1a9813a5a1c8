/-
# `FlightRec.Examine.Launch` — the run that `launch` defers

Without `stopOnEntry` a client is to run to its first breakpoint.  A debugger learns
of breakpoints only after `launch`, so `process_launch` stays on the first step and
`process_config_done` starts the run: a plain `continue`, which looks for breakpoints
behind the current step, and takes an adjacent step on the current line for the rest
of a stop that has been made already.  Nothing has been made yet: a breakpoint on the
first line is missed (`deferred_run_iff`).

Nothing is assumed here about how many lines an address stands on.
-/
import FlightRec.Examine.Movement

namespace FlightRec

open Query

/-- `i` is the earliest step whose line carries a breakpoint, or the last one if none does. -/
def FirstStop (db : Db) (bps : Breakpoints) (i : Nat) : Prop :=
  (∃ r ∈ db.breakpointRows bps, r.step = i ∧ ∀ q ∈ db.breakpointRows bps, i ≤ q.step) ∨
    (db.breakpointRows bps = [] ∧ i = db.steps.length)

/-- The run that starts with `configurationDone` stops there. -/
def RunsToFirstStop (db : Db) (bps : Breakpoints) (s : Session) : Prop :=
  ∃ s' reason, processConfigDone db bps s = (s', .ok [.stopped reason]) ∧
    FirstStop db bps s'.curStep

/-- No stop is due on the first step, and the second is not taken for the rest of one.
A recording of one or of two steps leaves nowhere else to go. -/
def NothingSkipped (db : Db) (bps : Breakpoints) (s : Session) : Prop :=
  db.steps.length = 1 ∨ (∀ q ∈ db.breakpointRows bps, q.step ≠ 1) ∧
    (db.steps.length = 2 ∨ ∀ q, (db.breakpointRows bps).filter (fun r => r.step = 2) = [q] →
      s.onLine q = false)

/-! ## What the loop does first -/

section
variable {s : Session} {q : StopRow} {rest : List StopRow}

theorem continueLoop_skip (hnext : s.isNext q = true) (hline : s.onLine q = true) :
    continueLoop Session.isNext (q :: rest) s =
      continueLoop Session.isNext rest
        { s with curDepth := .ofInt q.depth, curStep := q.step } := by
  have hboth : (Session.isNext { s with curDepth := .ofInt q.depth } q &&
      Session.onLine { s with curDepth := .ofInt q.depth } q) = true := by
    rw [Bool.and_eq_true]
    exact ⟨hnext, hline⟩
  rw [continueLoop]
  exact if_pos hboth

theorem continueLoop_stop (h : s.isNext q = false ∨ s.onLine q = false) :
    continueLoop Session.isNext (q :: rest) s = (s.fetch q, true) := by
  have hboth : ¬ (Session.isNext { s with curDepth := .ofInt q.depth } q &&
      Session.onLine { s with curDepth := .ofInt q.depth } q) = true := by
    rw [Bool.and_eq_true]
    rintro ⟨hnext, hline⟩
    rcases h with h | h
    · exact absurd (h.symm.trans hnext) Bool.false_ne_true
    · exact absurd (h.symm.trans hline) Bool.false_ne_true
  rw [continueLoop]
  exact if_neg hboth

/-- The first row goes on from the current step on its line, and is the only one of its step. -/
def Session.Skips (s : Session) (q : StopRow) (rest : List StopRow) : Prop :=
  (s.isNext q = true ∧ s.onLine q = true) ∧ ∀ r ∈ rest, q.step < r.step

theorem continueLoop_of_not_skips (h : ¬ s.Skips q rest) (hle : ∀ r ∈ rest, q.step ≤ r.step)
    (hsorted : rest.Pairwise fun r r' => r.step ≤ r'.step) :
    ∃ r, r.step = q.step ∧ continueLoop Session.isNext (q :: rest) s = (s.fetch r, true) := by
  by_cases hskip : s.isNext q = true ∧ s.onLine q = true
  · rw [continueLoop_skip hskip.1 hskip.2]
    obtain ⟨r, hr, hsame⟩ : ∃ r ∈ rest, r.step = q.step := by
      by_contra hno
      refine h ⟨hskip, fun r hr => Nat.lt_of_le_of_ne (hle r hr) fun heq => ?_⟩
      exact hno ⟨r, hr, heq.symm⟩
    cases rest with
    | nil => cases hr
    | cons q₂ rest =>
        have hq₂ : q₂.step = q.step := by
          refine Nat.le_antisymm ?_ (hle q₂ List.mem_cons_self)
          rcases List.mem_cons.mp hr with rfl | hr
          · exact Nat.le_of_eq hsame
          · exact Nat.le_trans ((List.pairwise_cons.mp hsorted).1 r hr) (Nat.le_of_eq hsame)
        -- it does not come after its own step
        have hstop : Session.isNext { s with curDepth := .ofInt q.depth, curStep := q.step } q₂ =
            false := beq_false_of_ne (by rw [hq₂]; exact Nat.ne_of_lt (Nat.lt_succ_self _))
        exact ⟨q₂, hq₂, continueLoop_stop (.inl hstop)⟩
  · have hstop : s.isNext q = false ∨ s.onLine q = false := by
      rwa [not_and_or, Bool.not_eq_true, Bool.not_eq_true] at hskip
    exact ⟨q, rfl, continueLoop_stop hstop⟩

/-- Behind a row that is skipped the loop ends at a later step, if it stops. -/
theorem continueLoop_of_skips (h : s.Skips q rest) :
    (∃ r, q.step < r.step ∧ r ∈ rest ∧
      continueLoop Session.isNext (q :: rest) s = (s.fetch r, true)) ∨
    (continueLoop Session.isNext (q :: rest) s).2 = false := by
  obtain ⟨⟨hnext, hline⟩, hlater⟩ := h
  rw [continueLoop_skip hnext hline]
  rcases continueLoop_cases Session.isNext rest
      { s with curDepth := .ofInt q.depth, curStep := q.step } with ⟨r, hr, hloop⟩ | ⟨c, d, hloop⟩
  · exact .inl ⟨r, hlater r hr, hr, hloop⟩
  · rw [hloop]
    exact .inr rfl

theorem filter_step_cons {k : Nat} (h : q.step = k) :
    (q :: rest).filter (fun r => r.step = k) = q :: rest.filter fun r => r.step = k :=
  List.filter_cons_of_pos (decide_eq_true h)

theorem skips_first_iff (hcur : s.curStep = 1) (hq : 1 < q.step)
    (hle : ∀ r ∈ rest, q.step ≤ r.step) :
    s.Skips q rest ↔
      ¬ ∀ q', (q :: rest).filter (fun r => r.step = 2) = [q'] → s.onLine q' = false := by
  constructor
  · rintro ⟨⟨hnext, hline⟩, hlater⟩ hoff
    have hq2 : q.step = 2 := by
      rwa [Session.isNext, hcur, beq_iff_eq] at hnext
    have halone : (q :: rest).filter (fun r => r.step = 2) = [q] := by
      rw [filter_step_cons hq2, List.cons.injEq, and_iff_right rfl, List.filter_eq_nil_iff]
      intro r hr h2
      have hlt := hlater r hr
      rw [of_decide_eq_true h2, hq2] at hlt
      exact Nat.lt_irrefl 2 hlt
    rw [hoff q halone] at hline
    cases hline
  · intro h
    obtain ⟨q', hq'⟩ := not_forall.mp h
    obtain ⟨halone, hline⟩ := Classical.not_imp.mp hq'
    have hmem : q' ∈ (q :: rest).filter (fun r => r.step = 2) := by
      rw [halone]
      exact List.mem_singleton_self q'
    obtain ⟨hq'mem, hdecide⟩ := List.mem_filter.mp hmem
    have h2 : q'.step = 2 := of_decide_eq_true hdecide
    have hle' : q.step ≤ q'.step := by
      rcases List.mem_cons.mp hq'mem with rfl | hq'rest
      · exact Nat.le_refl _
      · exact hle q' hq'rest
    have hq2 : q.step = 2 := by omega
    rw [filter_step_cons hq2] at halone
    obtain ⟨rfl, hnone⟩ := List.cons.inj halone
    refine ⟨⟨?_, by simpa using hline⟩, fun r hr => Nat.lt_of_le_of_ne (hle r hr) fun heq => ?_⟩
    · rw [Session.isNext, hcur, hq2]
      rfl
    · exact List.filter_eq_nil_iff.mp hnone r hr (decide_eq_true (heq ▸ hq2))

end

/-! ## Where the run ends -/

section
variable {db : Db} {bps : Breakpoints} {s : Session}

theorem firstStop_iff_of_least {q : StopRow} (hq : q ∈ db.breakpointRows bps)
    (least : ∀ r ∈ db.breakpointRows bps, q.step ≤ r.step) {i : Nat} :
    FirstStop db bps i ↔ i = q.step := by
  constructor
  · rintro (⟨r, hr, rfl, hleast⟩ | ⟨hnone, _⟩)
    · exact Nat.le_antisymm (hleast q hq) (least r hr)
    · rw [hnone] at hq
      cases hq
  · rintro rfl
    exact .inl ⟨q, hq, rfl, least⟩

/-- A stop that is due on the first step is made there only if it is the last. -/
theorem run_from_stop (rec : Traced db) (hne : db.steps ≠ []) (hopen : s.dbOpen = true)
    (hcur : s.curStep = 1) {q : StopRow} (hq : q ∈ db.breakpointRows bps) (hq1 : q.step = 1) :
    ∃ s' reason, processContinue db bps s = (s', .ok [.stopped reason]) ∧
      (FirstStop db bps s'.curStep ↔ NothingSkipped db bps s) := by
  have hfirst {i : Nat} : FirstStop db bps i ↔ i = 1 := by
    rw [← hq1]
    refine firstStop_iff_of_least hq fun r hr => ?_
    rw [hq1]
    exact (rec.stopRow_bounds (mem_breakpointRows.mp hr).1).1
  have hskipped : NothingSkipped db bps s ↔ db.steps.length = 1 :=
    or_iff_left fun h => h.1 q hq hq1
  rw [hskipped]
  rcases processContinue_ends rec hne hopen bps rfl with
    ⟨r, hr, _, hrun⟩ | ⟨_, r, _, hn, hrun⟩
  · rw [mem_orderBy, List.mem_filter, decide_eq_true_eq, hcur] at hr
    have hbounds := rec.stopRow_bounds (mem_breakpointRows.mp hr.1).1
    have hstep : (s.fetch r).curStep = r.step := rfl
    refine ⟨_, _, hrun, hfirst.trans (iff_of_false ?_ ?_)⟩
    · omega
    · omega
  · refine ⟨_, _, hrun, hfirst.trans ?_⟩
    have hland : (s.land r).curStep = db.steps.length := hn
    rw [hland]

theorem filter_orderBy_singleton {q : StopRow} (before : ∀ r ∈ db.breakpointRows bps, r.step ≠ 1)
    (rec : Traced db) :
    ((orderBy (·.step) ((db.breakpointRows bps).filter fun r => 1 < r.step)).filter
        fun r => r.step = 2) = [q] ↔
      ((db.breakpointRows bps).filter fun r => r.step = 2) = [q] := by
  have hall : (db.breakpointRows bps).filter (fun r => 1 < r.step) = db.breakpointRows bps := by
    refine List.filter_eq_self.mpr fun r hr => decide_eq_true ?_
    have hbounds := rec.stopRow_bounds (mem_breakpointRows.mp hr).1
    have hnot := before r hr
    omega
  rw [hall]
  have hperm : ((orderBy (·.step) (db.breakpointRows bps)).filter fun r => r.step = 2).Perm
      ((db.breakpointRows bps).filter fun r => r.step = 2) :=
    (List.perm_insertionSort _ _).filter _
  constructor
  · intro h
    rw [h] at hperm
    exact (List.singleton_perm.mp hperm).symm
  · intro h
    rw [h] at hperm
    exact List.perm_singleton.mp hperm

/-- With nothing due on the first step the run ends on the first stop, unless that is skipped. -/
theorem run_from_no_stop (rec : Traced db) (hne : db.steps ≠ []) (hopen : s.dbOpen = true)
    (hcur : s.curStep = 1) (before : ∀ r ∈ db.breakpointRows bps, r.step ≠ 1) :
    ∃ s' reason, processContinue db bps s = (s', .ok [.stopped reason]) ∧
      (FirstStop db bps s'.curStep ↔ NothingSkipped db bps s) := by
  have hskipped : NothingSkipped db bps s ↔ db.steps.length = 1 ∨ db.steps.length = 2 ∨
      ∀ q, (db.breakpointRows bps).filter (fun r => r.step = 2) = [q] → s.onLine q = false :=
    or_congr Iff.rfl (and_iff_right before)
  rw [hskipped]
  simp only [← filter_orderBy_singleton before rec]
  have hmem : ∀ r, r ∈ orderBy (·.step) ((db.breakpointRows bps).filter fun r => 1 < r.step) ↔
      r ∈ db.breakpointRows bps := by
    intro r
    rw [mem_orderBy, List.mem_filter, decide_eq_true_eq, and_iff_left_of_imp]
    intro hr
    have hbounds := rec.stopRow_bounds (mem_breakpointRows.mp hr).1
    have hnot := before r hr
    omega
  have hsorted := orderBy_pairwise (·.step) ((db.breakpointRows bps).filter fun r => 1 < r.step)
  generalize hrows : orderBy (·.step) ((db.breakpointRows bps).filter fun r => 1 < r.step) = rows
    at hmem hsorted
  have hends := processContinue_ends rec hne hopen bps (hcur.symm ▸ hrows)
  cases rows with
  | nil =>
      have hnone : db.breakpointRows bps = [] :=
        List.eq_nil_iff_forall_not_mem.mpr fun r hr => List.not_mem_nil ((hmem r).mpr hr)
      rcases hends with ⟨r, hr, _⟩ | ⟨_, r, _, hn, hrun⟩
      · cases hr
      · exact ⟨_, _, hrun, iff_of_true (.inr ⟨hnone, hn⟩) (.inr (.inr fun q hq => by cases hq))⟩
  | cons q rest =>
      obtain ⟨hle, hrest⟩ := List.pairwise_cons.mp hsorted
      have hq : q ∈ db.breakpointRows bps := (hmem q).mp List.mem_cons_self
      have hbounds := rec.stopRow_bounds (mem_breakpointRows.mp hq).1
      have hnot := before q hq
      have hfirst {i : Nat} : FirstStop db bps i ↔ i = q.step := by
        refine firstStop_iff_of_least hq fun r hr => ?_
        rcases List.mem_cons.mp ((hmem r).mpr hr) with rfl | hr
        · exact Nat.le_refl _
        · exact hle r hr
      have hiff : s.Skips q rest ↔ _ := skips_first_iff hcur (by omega : 1 < q.step) hle
      by_cases hskips : s.Skips q rest
      · -- nothing ahead of the skipped row but the end of the trace
        have hq2 : q.step = 2 := by
          have hnext := hskips.1.1
          rwa [Session.isNext, hcur, beq_iff_eq] at hnext
        have hright : (db.steps.length = 1 ∨ db.steps.length = 2 ∨
            ∀ q', (q :: rest).filter (fun r => r.step = 2) = [q'] → s.onLine q' = false) ↔
              db.steps.length = 2 := by
          rw [or_iff_left (hiff.mp hskips), or_iff_right (by omega)]
        rw [hright]
        rcases hends with ⟨r, hr, hloop, hrun⟩ | ⟨_, r, _, hn, hrun⟩
        · rcases continueLoop_of_skips hskips with ⟨r', hlt, hr', hloop'⟩ | hloop'
          · have hsame : (s.fetch r').curStep = (s.fetch r).curStep :=
              congrArg (fun x => x.1.curStep) (hloop'.symm.trans hloop)
            have hlast := rec.stopRow_bounds
              (mem_breakpointRows.mp ((hmem r').mp (List.mem_cons_of_mem q hr'))).1
            rw [Session.fetch_curStep, Session.fetch_curStep] at hsame
            refine ⟨_, _, hrun, hfirst.trans (iff_of_false ?_ ?_)⟩
            · rw [Session.fetch_curStep]
              omega
            · omega
          · rw [hloop] at hloop'
            cases hloop'
        · refine ⟨_, _, hrun, hfirst.trans ?_⟩
          have hland : (s.land r).curStep = db.steps.length := hn
          rw [hland, hq2]
      · have hright := not_not.mp (mt hiff.mpr hskips)
        obtain ⟨r', hsame', hloop'⟩ := continueLoop_of_not_skips hskips hle hrest
        rcases hends with ⟨r, _, hloop, hrun⟩ | ⟨hloop, _⟩
        · have hsame : (s.fetch r').curStep = (s.fetch r).curStep :=
            congrArg (fun x => x.1.curStep) (hloop'.symm.trans hloop)
          exact ⟨_, _, hrun, iff_of_true (hfirst.mpr (hsame.symm.trans hsame'))
            (.inr (.inr hright))⟩
        · rw [hloop'] at hloop
          cases hloop

end

/-- When the run that `launch` has deferred stops where it should. -/
theorem deferred_run_iff {db : Db} (rec : Traced db) (hne : db.steps ≠ []) (bps : Breakpoints)
    {s launched : Session} {arguments : Option LaunchArgs}
    (hlaunch : processLaunch db arguments s = (launched, .ok [])) :
    RunsToFirstStop db bps launched ↔ NothingSkipped db bps launched := by
  obtain ⟨hopen, hentry, hcur⟩ : launched.dbOpen = true ∧ launched.stopOnEntry = false ∧
      launched.curStep = 1 := by
    rcases processLaunch_cases rec hne s arguments with ⟨error, h⟩ | ⟨r, _, h1, entry, h⟩
    · cases hlaunch.symm.trans h
    · have hsame := hlaunch.symm.trans h
      cases entry with
      | true => cases hsame
      | false =>
          cases hsame
          exact ⟨rfl, rfl, h1⟩
  have hconfig : processConfigDone db bps launched = processContinue db bps launched :=
    if_pos (by rw [hentry]; rfl)
  obtain ⟨s', reason, hrun, hiff⟩ : ∃ s' reason,
      processContinue db bps launched = (s', .ok [.stopped reason]) ∧
        (FirstStop db bps s'.curStep ↔ NothingSkipped db bps launched) := by
    by_cases hdue : ∃ q ∈ db.breakpointRows bps, q.step = 1
    · obtain ⟨q, hq, hq1⟩ := hdue
      exact run_from_stop rec hne hopen hcur hq hq1
    · exact run_from_no_stop rec hne hopen hcur fun q hq hq1 => hdue ⟨q, hq, hq1⟩
  rw [← hiff]
  constructor
  · rintro ⟨s'', reason', hrun', hfirst⟩
    cases (hconfig.symm.trans hrun').symm.trans hrun
    exact hfirst
  · intro hfirst
    exact ⟨s', reason, hconfig.trans hrun, hfirst⟩

/-! ### Example -/

/-- Three statements on three lines. -/
def threeLines : Db where
  steps := [⟨1, 0x10, 1, 1⟩, ⟨2, 0x20, 1, 1⟩, ⟨3, 0x30, 1, 1⟩]
  statements := [⟨1, 4, 0x10, some 1, some 1, some 1⟩, ⟨1, 5, 0x20, some 1, some 1, none⟩,
    ⟨1, 6, 0x30, some 1, some 1, some 2⟩]
  files := [⟨1, "test.c", "/src"⟩]
  functions := [⟨1, "main", 1⟩]
  exitSignal := none

/-- The session after `launch` without `stopOnEntry`. -/
def threeLaunched : Session :=
  (processLaunch threeLines (some ⟨some "test", some "/src", none⟩) .init).1

theorem threeLines_traced : Traced threeLines :=
  (by decide : Recorded threeLines).traced

theorem deferred_run_iff_threeLines :
    NothingSkipped threeLines ⟨[(1, 5)], by decide⟩ threeLaunched ∧
      RunsToFirstStop threeLines ⟨[(1, 5)], by decide⟩ threeLaunched := by
  have hnothing : NothingSkipped threeLines ⟨[(1, 5)], by decide⟩ threeLaunched := by
    refine .inr ⟨by decide, .inr ?_⟩
    intro q hq
    cases hq
    rfl
  have hlaunch : processLaunch threeLines (some ⟨some "test", some "/src", none⟩) .init =
      (threeLaunched, .ok []) := rfl
  exact ⟨hnothing, (deferred_run_iff threeLines_traced (by decide) _ hlaunch).mpr hnothing⟩

/-- With a breakpoint on the first line the client runs to its end. -/
theorem first_line_missed :
    ¬ ∀ (db : Db) (bps : Breakpoints) (s launched : Session) (arguments : Option LaunchArgs),
      Recorded db → db.steps ≠ [] → processLaunch db arguments s = (launched, .ok []) →
        RunsToFirstStop db bps launched := by
  intro h
  obtain ⟨s', reason, hrun, hfirst⟩ := h threeLines ⟨[(1, 4)], by decide⟩ .init threeLaunched
    (some ⟨some "test", some "/src", none⟩) (by decide) (by decide) rfl
  have hend : (processConfigDone threeLines ⟨[(1, 4)], by decide⟩ threeLaunched).1.curStep = 3 :=
    rfl
  rw [hrun] at hend
  have hdue : (⟨1, "test.c", 4, 1, 1⟩ : StopRow) ∈
      threeLines.breakpointRows ⟨[(1, 4)], by decide⟩ := by decide
  rcases hfirst with ⟨r, _, _, hleast⟩ | ⟨hnone, _⟩
  · have hle := hleast _ hdue
    change s'.curStep = 3 at hend
    rw [hend] at hle
    exact absurd hle (by decide)
  · rw [hnone] at hdue
    cases hdue

end FlightRec
