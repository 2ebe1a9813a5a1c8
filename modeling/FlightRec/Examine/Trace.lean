/-
# `FlightRec.Examine.Trace` — the rows every movement query selects from

All movement requests select from one join,

    step s  JOIN statement st ON st.address = s.address
            JOIN file f       ON f.id = st.file_id

and differ in the `WHERE` clause and the order only.  `stopRows` is that join;
a `StopRow` carries the four columns the handlers fetch (`f.name`, `st.line`,
`s.id`, `s.depth`) and the file id that `local.breakpoint` is joined on.

On a `Located` database the join neither loses nor repeats a step:
`exists_stopRow` gives the row of every step, `stopRow_unique` says there is no
other.
-/
import FlightRec.Schema
import FlightRec.Lib.Query

namespace FlightRec

/-- One row of the join of `step`, `statement` and `file`. -/
structure StopRow where
  fileId : Nat
  file : String
  line : Nat
  step : Nat
  depth : Int
  deriving DecidableEq, Repr

/-- `step s JOIN statement st ON st.address = s.address JOIN file f ON f.id = st.file_id`. -/
def Db.stopRows (db : Db) : List StopRow :=
  db.steps.flatMap fun s =>
    (db.statements.filter (fun st => st.address = s.address)).flatMap fun st =>
      (db.files.filter (fun f => f.id = st.fileId)).map fun f =>
        { fileId := f.id, file := f.name, line := st.line, step := s.id, depth := s.depth }

theorem mem_stopRows {db : Db} {r : StopRow} :
    r ∈ db.stopRows ↔ ∃ s ∈ db.steps, ∃ st ∈ db.statements, st.address = s.address ∧
      ∃ f ∈ db.files, f.id = st.fileId ∧
        r = { fileId := f.id, file := f.name, line := st.line, step := s.id,
              depth := s.depth } := by
  simp only [Db.stopRows, List.mem_flatMap, List.mem_filter, List.mem_map, decide_eq_true_eq]
  constructor
  · rintro ⟨s, hs, st, ⟨hst, ha⟩, f, ⟨hf, hid⟩, rfl⟩
    exact ⟨s, hs, st, hst, ha, f, hf, hid, rfl⟩
  · rintro ⟨s, hs, st, hst, ha, f, hf, hid, rfl⟩
    exact ⟨s, hs, st, ⟨hst, ha⟩, f, ⟨hf, hid⟩, rfl⟩

section
variable {db : Db} (rec : Traced db)
include rec

theorem Traced.stopRow_bounds {r : StopRow} (hr : r ∈ db.stopRows) :
    1 ≤ r.step ∧ r.step ≤ db.steps.length := by
  obtain ⟨s, hs, _, _, _, _, _, _, rfl⟩ := mem_stopRows.mp hr
  exact rec.id_bounds hs

theorem Traced.exists_stopRow {s : StepRow} (hs : s ∈ db.steps) :
    ∃ r ∈ db.stopRows, r.step = s.id ∧ r.depth = s.depth := by
  obtain ⟨st, hst, ha⟩ := rec.statement s hs
  obtain ⟨f, hf, hid⟩ := rec.file st hst
  exact ⟨_, mem_stopRows.mpr ⟨s, hs, st, hst, ha, f, hf, hid, rfl⟩, rfl, rfl⟩

theorem Traced.exists_stopRow_at {i : Nat} (h1 : 1 ≤ i) (hn : i ≤ db.steps.length) :
    ∃ r ∈ db.stopRows, r.step = i := by
  obtain ⟨s, hs, rfl⟩ := rec.exists_step h1 hn
  obtain ⟨r, hr, hstep, _⟩ := rec.exists_stopRow hs
  exact ⟨r, hr, hstep⟩

end

section
variable {db : Db} (rec : Located db)
include rec

theorem Located.stopRow_bounds {r : StopRow} (hr : r ∈ db.stopRows) :
    1 ≤ r.step ∧ r.step ≤ db.steps.length := rec.traced.stopRow_bounds hr

theorem Located.exists_stopRow_at {i : Nat} (h1 : 1 ≤ i) (hn : i ≤ db.steps.length) :
    ∃ r ∈ db.stopRows, r.step = i := rec.traced.exists_stopRow_at h1 hn

theorem Located.stopRow_unique {r r' : StopRow} (hr : r ∈ db.stopRows) (hr' : r' ∈ db.stopRows)
    (h : r.step = r'.step) : r = r' := by
  obtain ⟨s, hs, st, hst, ha, f, hf, hid, rfl⟩ := mem_stopRows.mp hr
  obtain ⟨s', hs', st', hst', ha', f', hf', hid', rfl⟩ := mem_stopRows.mp hr'
  cases rec.step_unique hs hs' h
  cases (rec.statement s hs).unique hst hst' ha ha'
  cases (rec.file st hst).unique hf hf' hid hid'
  rfl

theorem Located.stopRow_depth {r : StopRow} {s : StepRow} (hr : r ∈ db.stopRows)
    (hs : s ∈ db.steps) (h : r.step = s.id) : r.depth = s.depth := by
  obtain ⟨r', hr', hstep, hdepth⟩ := rec.traced.exists_stopRow hs
  rw [rec.stopRow_unique hr hr' (h.trans hstep.symm), hdepth]

end

end FlightRec
