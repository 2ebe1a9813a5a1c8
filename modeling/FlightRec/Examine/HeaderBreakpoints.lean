/-
# `FlightRec.Examine.HeaderBreakpoints` — a file that several units include

`proc_lines` adds a row to table `file` for every unit that a file is compiled in, so a header
has as many ids as there are units that include it, and each of its lines has its statements
under the id of their unit.  `process_breakpoints` takes the first id that has the name, and
what it puts in the table is for that id alone.

So a breakpoint in a header is set, and `continue` stops at it, only for the first unit, or
where the others do not matter (`header_breakpoint_iff`).
-/
import FlightRec.Examine.Launch
import FlightRec.Examine.Runs
import FlightRec.Examine.SetBreakpoints

namespace FlightRec

open Query

/-- A recording with its keys: `UNIQUE INDEX line ON statement` and the primary key of
`file`.  An address may still stand on several lines. -/
structure Indexed (db : Db) : Prop extends Traced db where
  statementKey : (db.statements.map fun st => (st.fileId, st.line, st.address)).Nodup
  fileKey : (db.files.map (·.id)).Nodup

/-- The id is one of those of a file. -/
def Db.CopyOf (db : Db) (name path : String) (fid : Nat) : Prop :=
  ∃ f ∈ db.files, f.id = fid ∧ f.name = name ∧ f.path = path

instance (db : Db) (name path : String) (fid : Nat) : Decidable (db.CopyOf name path fid) :=
  inferInstanceAs (Decidable (∃ f ∈ db.files, f.id = fid ∧ f.name = name ∧ f.path = path))

/-- A step on the line, whichever unit executes it. -/
def Db.OnFileLine (db : Db) (name path : String) (line : Nat) (q : StopRow) : Prop :=
  q ∈ db.stopRows ∧ db.CopyOf name path q.fileId ∧ q.line = line

instance (db : Db) (name path : String) (line : Nat) (q : StopRow) :
    Decidable (db.OnFileLine name path line q) :=
  inferInstanceAs (Decidable (q ∈ db.stopRows ∧ db.CopyOf name path q.fileId ∧ q.line = line))

/-- A `setBreakpoints` request for some lines. -/
def linesRequest (name : String) (lines : List Int) : Option BreakpointsArgs :=
  some ⟨.name name, some (lines.map BreakpointItem.line)⟩

/-- **What a breakpoint on a line of a file promises**: when distinct lines are requested and
it is one of them, it is verified if any unit has executed it, and a `continue` stops at the
next step on the line, if no other breakpoint comes before and the session is not on the
line already. -/
structure ReachesUnits (db : Db) (name path : String) (line : Nat) : Prop where
  verified : ∀ (st : BreakpointCache) (lines : List Int), st.addbrFailed = false →
    (lines.map jsonInt32).Nodup → (∃ fid, db.CopyOf name path fid ∧ db.Executed fid line) →
      ∀ i : Nat, (lines.map jsonInt32)[i]? = some (line : Int) → ∃ answers id,
        (processBreakpoints db (linesRequest name lines) st).2 =
          { success := true, message := none, breakpoints := some answers } ∧
        answers[i]? = some { verified := true, id }
  stops : ∀ (st : BreakpointCache) (lines : List Int), st.addbrFailed = false →
    (lines.map jsonInt32).Nodup → (line : Int) ∈ lines.map jsonInt32 →
      ∀ (bps : Breakpoints), bps =
        (processBreakpoints db (linesRequest name lines) st).1.table.breakpoints →
      ∀ (s : Session) (r q : StopRow), s.dbOpen = true → s.StandsOn db r →
        db.OnFileLine name path line q → r.step < q.step →
        ¬ (r.step + 1 = q.step ∧ db.OnFileLine name path line r) →
        (∀ x ∈ db.stopRows, r.step < x.step → x.step < q.step →
          (x.fileId, x.line) ∉ bps.rows ∧ ¬ db.OnFileLine name path line x) →
        ∃ s', processContinue db bps s = (s', .ok [.stopped .breakpoint]) ∧ s'.curStep = q.step

/-- The first id with the name stands for all: it has executed the line if any unit has, and
every step on the line that comes from elsewhere is one of this id.  Elsewhere is not the
same line of another file of the same name. -/
structure FirstStandsForAll (db : Db) (name path : String) (line : Nat) (first : Nat) : Prop where
  executed : (∃ fid, db.CopyOf name path fid ∧ db.Executed fid line) → db.Executed first line
  entered : ∀ r ∈ db.stopRows, ∀ q ∈ db.stopRows, r.step + 1 = q.step →
    ¬ db.OnFileLine name path line r → db.OnFileLine name path line q →
      (∃ x ∈ db.stopRows, x.step = q.step ∧ x.fileId = first ∧ x.line = line) ∧
        ¬ (r.file = q.file ∧ r.line = q.line)

/-! ## Keys -/

section
variable {db : Db} (idx : Indexed db)
include idx

theorem Indexed.file_unique {f g : FileRow} (hf : f ∈ db.files) (hg : g ∈ db.files)
    (h : f.id = g.id) : f = g := List.inj_on_of_nodup_map idx.fileKey hf hg h

theorem Indexed.stepIds_nodup : (db.steps.map (·.id)).Nodup := by
  rw [idx.ids]
  exact List.nodup_range'

theorem Indexed.stopRows_nodup :
    (db.stopRows.map fun r => (r.step, r.fileId, r.line)).Nodup := by
  unfold Db.stopRows
  rw [List.map_flatMap, List.nodup_flatMap]
  refine ⟨fun s _ => ?_, ?_⟩
  · rw [List.map_flatMap, List.nodup_flatMap]
    refine ⟨fun st _ => ?_, ?_⟩
    · rw [List.map_map]
      have hids : ((db.files.filter fun f => f.id = st.fileId).map (·.id)).Nodup :=
        idx.fileKey.sublist (List.filter_sublist.map _)
      refine List.Nodup.of_map (fun key : Nat × Nat × Nat => key.2.1) ?_
      rw [List.map_map]
      exact hids
    · -- two statements of one address are on different lines
      refine ((List.pairwise_map.mp idx.statementKey).sublist List.filter_sublist).imp_of_mem ?_
      intro st st' hst hst' hne key hkey hkey'
      obtain ⟨_, hrow, rfl⟩ := List.mem_map.mp hkey
      obtain ⟨f, hf, rfl⟩ := List.mem_map.mp hrow
      obtain ⟨_, hrow', heq⟩ := List.mem_map.mp hkey'
      obtain ⟨f', hf', rfl⟩ := List.mem_map.mp hrow'
      have hid : f.id = st.fileId := of_decide_eq_true (List.mem_filter.mp hf).2
      have hid' : f'.id = st'.fileId := of_decide_eq_true (List.mem_filter.mp hf').2
      have haddress : st.address = s.address := of_decide_eq_true (List.mem_filter.mp hst).2
      have haddress' : st'.address = s.address := of_decide_eq_true (List.mem_filter.mp hst').2
      obtain ⟨-, hpair⟩ := Prod.mk.inj heq
      obtain ⟨(hfile : f'.id = f.id), (hline : st'.line = st.line)⟩ := Prod.mk.inj hpair
      refine hne ?_
      rw [haddress, haddress', ← hid, ← hid', hfile, hline]
  · refine (List.pairwise_map.mp idx.stepIds_nodup).imp ?_
    intro s s' hne key hkey hkey'
    obtain ⟨_, hrow, rfl⟩ := List.mem_map.mp hkey
    obtain ⟨_, hrow', heq⟩ := List.mem_map.mp hkey'
    obtain ⟨st, _, hrow⟩ := List.mem_flatMap.mp hrow
    obtain ⟨st', _, hrow'⟩ := List.mem_flatMap.mp hrow'
    obtain ⟨f, _, rfl⟩ := List.mem_map.mp hrow
    obtain ⟨f', _, rfl⟩ := List.mem_map.mp hrow'
    exact hne (Prod.mk.inj heq).1.symm

theorem Indexed.stopRow_unique {r r' : StopRow} (hr : r ∈ db.stopRows) (hr' : r' ∈ db.stopRows)
    (hstep : r.step = r'.step) (hfile : r.fileId = r'.fileId) (hline : r.line = r'.line) :
    r = r' :=
  List.inj_on_of_nodup_map idx.stopRows_nodup hr hr' (by rw [hstep, hfile, hline])

theorem Indexed.stopRow_file {r : StopRow} (hr : r ∈ db.stopRows) {f : FileRow}
    (hf : f ∈ db.files) (hid : f.id = r.fileId) : r.file = f.name := by
  obtain ⟨_, _, _, _, _, g, hg, _, rfl⟩ := mem_stopRows.mp hr
  rw [idx.file_unique hf hg hid]

end

/-! ## Where `continue` stops -/

section
variable {db : Db} {bps : Breakpoints} {s : Session}

theorem mem_fetched {x : StopRow} :
    x ∈ orderBy (·.step) ((db.breakpointRows bps).filter fun r => s.curStep < r.step) ↔
      x ∈ db.breakpointRows bps ∧ s.curStep < x.step := by
  rw [mem_orderBy, List.mem_filter, decide_eq_true_eq]

/-- `continue` stops at the next breakpoint row that is not the rest of the current line. -/
theorem processContinue_stops {x : StopRow} (hopen : s.dbOpen = true)
    (hx : x ∈ db.breakpointRows bps) (hahead : s.curStep < x.step)
    (hnone : ∀ y ∈ db.breakpointRows bps, s.curStep < y.step → x.step ≤ y.step)
    (hstop : s.curStep + 1 = x.step → s.onLine x = false) :
    ∃ s', processContinue db bps s = (s', .ok [.stopped .breakpoint]) ∧ s'.curStep = x.step := by
  have hsorted := orderBy_pairwise (·.step)
    ((db.breakpointRows bps).filter fun r => s.curStep < r.step)
  have hmem := fun y => @mem_fetched db bps s y
  unfold processContinue
  rw [if_neg (by simp [hopen])]
  generalize orderBy (·.step) ((db.breakpointRows bps).filter fun r => s.curStep < r.step) = rows
    at hsorted hmem
  cases rows with
  | nil => exact absurd ((hmem x).mpr ⟨hx, hahead⟩) List.not_mem_nil
  | cons q rest =>
      obtain ⟨hle, hrest⟩ := List.pairwise_cons.mp hsorted
      obtain ⟨hq, hqahead⟩ := (hmem q).mp List.mem_cons_self
      have hstep : q.step = x.step := by
        refine Nat.le_antisymm ?_ (hnone q hq hqahead)
        rcases List.mem_cons.mp ((hmem x).mpr ⟨hx, hahead⟩) with rfl | hmem
        · exact Nat.le_refl _
        · exact hle x hmem
      have hskips : ¬ s.Skips q rest := by
        rintro ⟨⟨hnext, hline⟩, hlater⟩
        have hnext : q.step = s.curStep + 1 := beq_iff_eq.mp hnext
        rcases List.mem_cons.mp ((hmem x).mpr ⟨hx, hahead⟩) with rfl | hmem
        · rw [hstop hnext.symm] at hline
          cases hline
        · have hlt := hlater x hmem
          omega
      obtain ⟨r, hr, hloop⟩ := continueLoop_of_not_skips hskips hle hrest
      rw [hloop]
      exact ⟨_, rfl, hr.trans hstep⟩

theorem processContinue_stopped {s' : Session}
    (h : processContinue db bps s = (s', .ok [.stopped .breakpoint])) :
    ∃ x ∈ db.breakpointRows bps, s.curStep < x.step ∧ s'.curStep = x.step ∧
      continueLoop Session.isNext (orderBy (·.step)
        ((db.breakpointRows bps).filter fun r => s.curStep < r.step)) s = (s.fetch x, true) := by
  unfold processContinue at h
  split at h
  · cases h
  · rcases continueLoop_cases Session.isNext (orderBy (·.step)
        ((db.breakpointRows bps).filter fun r => s.curStep < r.step)) s with
      ⟨x, hx, hloop⟩ | ⟨c, d, hloop⟩
    · rw [hloop] at h
      cases h
      obtain ⟨hx, hahead⟩ := mem_fetched.mp hx
      exact ⟨x, hx, hahead, rfl, hloop⟩
    · rw [hloop] at h
      dsimp only at h
      split at h
      · cases h
      · split at h <;> cases h

/-- The rest of the current line is not stopped at, if it is all there is on its step. -/
theorem processContinue_skips {x : StopRow} {s' : Session} (hnodup : (db.breakpointRows bps).Nodup)
    (hx : x ∈ db.breakpointRows bps) (hnext : s.isNext x = true) (hline : s.onLine x = true)
    (honly : ∀ y ∈ db.breakpointRows bps, y.step = x.step → y = x)
    (h : processContinue db bps s = (s', .ok [.stopped .breakpoint])) : s'.curStep ≠ x.step := by
  obtain ⟨y, -, -, hs', hloop⟩ := processContinue_stopped h
  have hstep : x.step = s.curStep + 1 := beq_iff_eq.mp hnext
  have hsorted := orderBy_pairwise (·.step)
    ((db.breakpointRows bps).filter fun r => s.curStep < r.step)
  have hmem := fun y => @mem_fetched db bps s y
  have hrows : (orderBy (·.step)
      ((db.breakpointRows bps).filter fun r => s.curStep < r.step)).Nodup :=
    (List.perm_insertionSort _ _).nodup_iff.mpr (hnodup.sublist List.filter_sublist)
  generalize orderBy (·.step) ((db.breakpointRows bps).filter fun r => s.curStep < r.step) = rows
    at hsorted hmem hloop hrows
  cases rows with
  | nil => exact absurd ((hmem x).mpr ⟨hx, by omega⟩) List.not_mem_nil
  | cons q rest =>
      obtain ⟨hle, -⟩ := List.pairwise_cons.mp hsorted
      obtain ⟨hq, hqahead⟩ := (hmem q).mp List.mem_cons_self
      have hqx : q = x := by
        refine honly q hq (Nat.le_antisymm ?_ (by omega))
        rcases List.mem_cons.mp ((hmem x).mpr ⟨hx, by omega⟩) with rfl | hin
        · exact Nat.le_refl _
        · exact hle x hin
      subst hqx
      have hskips : s.Skips q rest := by
        refine ⟨⟨hnext, hline⟩, fun r hr => Nat.lt_of_le_of_ne (hle r hr) fun hsame => ?_⟩
        have hrx := honly r ((hmem r).mp (List.mem_cons_of_mem _ hr)).1 hsame.symm
        exact (List.nodup_cons.mp hrows).1 (hrx ▸ hr)
      rcases continueLoop_of_skips hskips with ⟨r, hlater, -, hloop'⟩ | hloop'
      · have hsame : (s.fetch r).curStep = (s.fetch y).curStep :=
          congrArg (fun z => z.1.curStep) (hloop'.symm.trans hloop)
        rw [Session.fetch_curStep, Session.fetch_curStep] at hsame
        omega
      · rw [hloop] at hloop'
        cases hloop'

end

/-! ## Distinct lines -/

@[simp] theorem readsAll_lines : ∀ lines : List Int,
    readsAll (lines.map BreakpointItem.line) = true
  | [] => rfl
  | _ :: rest => readsAll_lines rest

@[simp] theorem readLines_lines : ∀ lines : List Int,
    readLines (lines.map BreakpointItem.line) = lines.map jsonInt32
  | [] => rfl
  | n :: rest => congrArg (jsonInt32 n :: ·) (readLines_lines rest)

theorem fileByName_name {db : Db} {name : String} {fid : Nat} (h : db.fileByName name = some fid) :
    ∃ f ∈ db.files, f.id = fid ∧ f.name = name := by
  obtain ⟨f, hfind, hid⟩ := Option.map_eq_some_iff.mp h
  have hname : decide (f.name = name) = true := by
    have hsome := List.find?_some hfind
    exact hsome
  exact ⟨f, List.mem_of_find?_eq_some hfind, hid, of_decide_eq_true hname⟩

/-- A request for distinct lines succeeds; the executed ones of the first id are verified and
in the table. -/
theorem linesRequest_ok {db : Db} {name : String} {fid : Nat} (hfid : db.fileByName name = some fid)
    {st : BreakpointCache} (hcursor : st.addbrFailed = false) {lines : List Int}
    (hdistinct : (lines.map jsonInt32).Nodup) :
    ∃ answers, (processBreakpoints db (linesRequest name lines) st).2 =
        { success := true, message := none, breakpoints := some answers } ∧
      answers.map (·.verified) = (lines.map jsonInt32).map (fun l => decide (db.Executed fid l)) ∧
      ∀ f m, (f, m) ∈ (processBreakpoints db (linesRequest name lines) st).1.table.keys ↔
        (f, m) ∈ (st.table.clear fid).keys ∨
          f = fid ∧ (m : Int) ∈ lines.map jsonInt32 ∧ db.Executed fid m := by
  have htarget : db.target (linesRequest name lines) =
      some (fid, some (lines.map BreakpointItem.line)) := by
    rw [linesRequest, Db.target, hfid]
    rfl
  have herror : (breakpointsLoop db fid (lines.map BreakpointItem.line)
      { st with table := st.table.clear fid }).error = none := by
    refine (breakpointsLoop_error fun _ => BreakpointTable.clear_keys).mpr
      ⟨readsAll_lines _, ?_, ?_⟩
    · rw [readLines_lines]
      exact hdistinct.imp fun hne heq => absurd heq hne
    · intro h
      rw [hcursor] at h
      cases h
  obtain ⟨hkeys, hanswers⟩ := breakpointsLoop_ok herror
  rw [readLines_lines] at hanswers
  simp only [readLines_lines] at hkeys
  rw [processBreakpoints_target htarget]
  refine ⟨_, ?_, hanswers, hkeys⟩
  dsimp only [replaceBreakpoints]
  rw [herror]
  rfl

theorem executed_of_stopRow {db : Db} {x : StopRow} (hx : x ∈ db.stopRows) :
    db.Executed x.fileId x.line := by
  obtain ⟨s, hs, st, hst, haddress, f, -, hid, rfl⟩ := mem_stopRows.mp hx
  exact ⟨s, hs, st, hst, haddress, hid.symm, rfl⟩

/-! ## The first id -/

section
variable {db : Db} (idx : Indexed db) {name path : String} {line first : Nat}
  (hfirst : db.fileByName name = some first)
include idx hfirst

theorem Indexed.name_of_first {x : StopRow} (hx : x ∈ db.stopRows) (hid : x.fileId = first) :
    x.file = name := by
  obtain ⟨f, hf, hfid, hname⟩ := fileByName_name hfirst
  rw [idx.stopRow_file hx hf (hfid.trans hid.symm), hname]

omit hfirst in
theorem Indexed.name_of_copy {x : StopRow} (hx : db.OnFileLine name path line x) :
    x.file = name := by
  obtain ⟨hrow, ⟨f, hf, hid, hname, -⟩, -⟩ := hx
  rw [idx.stopRow_file hrow hf hid, hname]

theorem FirstStandsForAll.reaches (h : FirstStandsForAll db name path line first) :
    ReachesUnits db name path line where
  verified := by
    intro st lines hcursor hdistinct hexec i hi
    obtain ⟨answers, hreply, hanswers, -⟩ := linesRequest_ok hfirst hcursor hdistinct
    have hget := congrArg (·[i]?) hanswers
    rw [List.getElem?_map, List.getElem?_map, hi, Option.map_some,
      decide_eq_true (h.executed hexec)] at hget
    obtain ⟨a, ha, hverified⟩ := Option.map_eq_some_iff.mp hget
    refine ⟨answers, a.id, hreply, ?_⟩
    rw [ha, ← hverified]
  stops := by
    intro st lines hcursor hdistinct hline bps hbps s r q hopen hat hq hlt hoff hnone
    obtain ⟨hr, hstep, hfile, hcurline⟩ := hat
    -- the step before `q` is off the line
    obtain ⟨p, hp, hnext, hpoff⟩ : ∃ p ∈ db.stopRows, p.step + 1 = q.step ∧
        ¬ db.OnFileLine name path line p := by
      by_cases hadjacent : r.step + 1 = q.step
      · exact ⟨r, hr, hadjacent, fun hon => hoff ⟨hadjacent, hon⟩⟩
      · have hbounds := idx.stopRow_bounds hq.1
        obtain ⟨p, hp, hpstep⟩ := idx.toTraced.exists_stopRow_at (i := q.step - 1) (by omega)
          (by omega)
        exact ⟨p, hp, by omega, (hnone p hp (by omega) (by omega)).2⟩
    obtain ⟨⟨x, hx, hxstep, hxfile, hxline⟩, -⟩ := h.entered p hp q hq.1 hnext hpoff hq
    obtain ⟨answers, -, -, hkeys⟩ := linesRequest_ok hfirst hcursor hdistinct
    have hxb : x ∈ db.breakpointRows bps := by
      refine mem_breakpointRows.mpr ⟨hx, ?_⟩
      rw [hbps, hxfile, hxline]
      refine (hkeys first line).mpr (Or.inr ⟨rfl, hline, ?_⟩)
      rw [← hxfile, ← hxline]
      exact executed_of_stopRow hx
    rw [← hxstep]
    refine processContinue_stops hopen hxb (by omega) (fun y hy hahead => ?_) fun hcur => ?_
    · by_contra hbefore
      obtain ⟨hrow, hkey⟩ := mem_breakpointRows.mp hy
      exact (hnone y hrow (by omega) (by omega)).1 hkey
    · have hsame := (h.entered r hr q hq.1 (by omega) (fun hon => hoff ⟨by omega, hon⟩) hq).2
      refine Bool.eq_false_of_not_eq_true fun hon => hsame ?_
      rw [Session.onLine, Bool.and_eq_true, beq_iff_eq, beq_iff_eq, hfile, hcurline,
        Option.some.injEq] at hon
      rw [← hon.1, ← hon.2, hxline, hq.2.2, idx.name_of_first hfirst hx hxfile,
        idx.name_of_copy hq]
      exact ⟨rfl, rfl⟩

theorem ReachesUnits.stands (hline : jsonInt32 line = line) (h : ReachesUnits db name path line) :
    FirstStandsForAll db name path line first where
  executed := by
    intro hexec
    have hdistinct : ([(line : Int)].map jsonInt32).Nodup := List.nodup_singleton _
    obtain ⟨answers, id, hreply, ha⟩ := h.verified ⟨.empty, false⟩ [(line : Int)] rfl hdistinct
      hexec 0 (congrArg some hline)
    obtain ⟨answers', hreply', hanswers, -⟩ :=
      @linesRequest_ok db name first hfirst ⟨.empty, false⟩ rfl _ hdistinct
    rw [hreply] at hreply'
    cases hreply'
    have hget := congrArg (·[0]?) hanswers
    rw [List.getElem?_map, ha] at hget
    have hverified : true = decide (db.Executed first (jsonInt32 line)) := Option.some.inj hget
    rw [hline] at hverified
    exact of_decide_eq_true hverified.symm
  entered := by
    intro r hr q hq hnext hoff hon
    have hdistinct : ([(line : Int)].map jsonInt32).Nodup := List.nodup_singleton _
    have hmem : (line : Int) ∈ [(line : Int)].map jsonInt32 := by
      rw [List.map_singleton, hline]
      exact List.mem_cons_self
    have hat : Session.StandsOn db { Session.init with
        dbOpen := true, curFile := some r.file, curStep := r.step, curLine := r.line } r :=
      ⟨hr, rfl, rfl, rfl⟩
    obtain ⟨s', hrun, hs'⟩ := h.stops ⟨.empty, false⟩ [(line : Int)] rfl hdistinct hmem _ rfl _ r q
      rfl hat hon (by omega) (fun hboth => hoff hboth.2) fun y _ hlo hhi => absurd hhi (by omega)
    obtain ⟨answers, -, -, hkeys⟩ :=
      @linesRequest_ok db name first hfirst ⟨.empty, false⟩ rfl _ hdistinct
    -- the table has one row
    have hrow : ∀ y ∈ db.breakpointRows (processBreakpoints db (linesRequest name [(line : Int)])
        ⟨.empty, false⟩).1.table.breakpoints,
        y ∈ db.stopRows ∧ y.fileId = first ∧ y.line = line := by
      intro y hy
      obtain ⟨hy, hkey⟩ := mem_breakpointRows.mp hy
      rcases (hkeys y.fileId y.line).mp hkey with hkey | ⟨hid, hin, -⟩
      · cases hkey
      · rw [List.map_singleton, List.mem_singleton, hline] at hin
        exact ⟨hy, hid, Int.ofNat_inj.mp hin⟩
    obtain ⟨x, hx, -, hxstep, -⟩ := processContinue_stopped hrun
    obtain ⟨hxrow, hxfile, hxline⟩ := hrow x hx
    refine ⟨⟨x, hxrow, hxstep.symm.trans hs', hxfile, hxline⟩, fun ⟨hfile, hsame⟩ => ?_⟩
    have hnodup : (db.breakpointRows (processBreakpoints db (linesRequest name [(line : Int)])
        ⟨.empty, false⟩).1.table.breakpoints).Nodup := by
      rw [breakpointRows_eq]
      exact idx.stopRows_nodup.of_map.sublist List.filter_sublist
    refine processContinue_skips hnodup hx (beq_iff_eq.mpr ?_) ?_ (fun y hy hstep => ?_) hrun hxstep
    · show x.step = r.step + 1
      omega
    · rw [Session.onLine, Bool.and_eq_true, beq_iff_eq, beq_iff_eq]
      refine ⟨?_, congrArg some ?_⟩
      · show x.line = r.line
        rw [hxline, hsame, hon.2.2]
      · show x.file = r.file
        rw [hfile, idx.name_of_copy hon, idx.name_of_first hfirst hxrow hxfile]
    · obtain ⟨hyrow, hyfile, hyline⟩ := hrow y hy
      exact idx.stopRow_unique hyrow hxrow hstep (hyfile.trans hxfile.symm)
        (hyline.trans hxline.symm)

end

/-- **Header breakpoints**: what a breakpoint promises is kept for all units exactly if the
first id with the name stands for all. -/
theorem header_breakpoint_iff {db : Db} (idx : Indexed db) {name path : String} {line first : Nat}
    (hline : jsonInt32 line = line) (hfirst : db.fileByName name = some first) :
    ReachesUnits db name path line ↔ FirstStandsForAll db name path line first :=
  ⟨fun h => h.stands idx hfirst hline, fun h => h.reaches idx hfirst⟩

/-! ### A header in two units -/

/-- Line 5 of the header is executed in the unit with this id, between two lines of the
source file. -/
def headerDb (unit : Nat) : Db where
  steps := [⟨1, 0x1000, 1, 1⟩, ⟨2, 0x2000, 1, 1⟩, ⟨3, 0x1004, 1, 1⟩]
  statements := [⟨3, 10, 0x1000, none, some 1, none⟩, ⟨unit, 5, 0x2000, none, some 1, none⟩,
    ⟨3, 11, 0x1004, none, some 1, none⟩]
  files := [⟨1, "h.h", "src/h.h"⟩, ⟨2, "h.h", "src/h.h"⟩, ⟨3, "main.c", "src/main.c"⟩]
  functions := [⟨1, "main", 1⟩]
  exitSignal := none

theorem headerDb_indexed (unit : Nat) (h : unit = 1 ∨ unit = 2) : Indexed (headerDb unit) := by
  rcases h with rfl | rfl
  · exact { ids := by decide, statement := by decide, file := by decide,
            statementKey := by decide, fileKey := by decide }
  · exact { ids := by decide, statement := by decide, file := by decide,
            statementKey := by decide, fileKey := by decide }

/-- The first unit executes it. -/
theorem header_breakpoint_iff_first : ReachesUnits (headerDb 1) "h.h" "src/h.h" 5 := by
  refine (header_breakpoint_iff (headerDb_indexed 1 (Or.inl rfl)) (by decide)
    (by decide : (headerDb 1).fileByName "h.h" = some 1)).mpr ⟨fun _ => by decide, by decide⟩

/-- The second unit executes it, and the breakpoint is not verified. -/
theorem header_missed : ¬ ∀ db : Db, Indexed db → ReachesUnits db "h.h" "src/h.h" 5 := by
  intro h
  obtain ⟨answers, id, hreply, ha⟩ := (h (headerDb 2) (headerDb_indexed 2 (Or.inr rfl))).verified
    ⟨.empty, false⟩ [5] rfl (by decide) ⟨2, by decide, by decide⟩ 0 (by decide)
  have hfalse : (processBreakpoints (headerDb 2) (linesRequest "h.h" [5]) ⟨.empty, false⟩).2 =
      { success := true, message := none,
        breakpoints := some [{ verified := false, id := none }] } := by decide
  rw [hfalse] at hreply
  cases hreply
  cases ha

end FlightRec
