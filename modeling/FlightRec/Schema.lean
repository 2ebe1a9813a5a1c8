/-
# `FlightRec.Schema` — the tables that connect Record and Examine

Record runs the client program under trace and fills an SQLite database;
Examine answers a debugger's requests from that database alone.  The rows below
are the columns of `create_db` (record/db.c) and of the worker threads
(record/db_workers.c) that either side computes with.  A column that may be
`NULL` is an `Option`.

A database that Record has finished is `Located`: steps are numbered from 1 in the
order they were taken, and the address of a step and the file of a statement name
exactly one row each.  The function of a step ("ref function.id" in the schema) may
name none: `function_id` of a statement stays `NULL` outside of all functions.  Where
every step has its function, the database is `Recorded`.
-/
import Mathlib.Data.List.Nodup

namespace FlightRec

/-! ## Rows -/

/-- `step`: one executed statement.  The depth is a signed number of 64 bits, as integers in
a database are.  The register file that is stored with it is read by nothing but the variable
location code. -/
structure StepRow where
  id : Nat
  address : Nat
  depth : Int
  functionId : Nat
  deriving DecidableEq, Repr

/-- `statement`: one row of the line table, filled by `proc_lines` and completed by `alter_db`. -/
structure StatementRow where
  fileId : Nat
  line : Nat
  address : Nat
  scopeId : Option Nat
  functionId : Option Nat
  funcFlag : Option Nat
  deriving DecidableEq, Repr

/-- `file`: a source file that was compiled into the client. -/
structure FileRow where
  id : Nat
  name : String
  path : String
  deriving DecidableEq, Repr

/-- `function`: a function definition and the scope of its body. -/
structure FunctionRow where
  id : Nat
  name : String
  scopeId : Nat
  deriving DecidableEq, Repr

/-- `scope`: a range of code, `endAddr` excluded. -/
structure ScopeRow where
  id : Nat
  parent : Nat
  depth : Nat
  startAddr : Nat
  endAddr : Nat
  deriving DecidableEq, Repr

/-- `scope_ancestor`: a scope and one of those around it. -/
structure ScopeAncestorRow where
  id : Nat
  ancestor : Nat
  deriving DecidableEq, Repr

/-- `FUNC_FLAG_START`: the statement a function begins with. -/
def funcFlagStart : Nat := 1

/-- `FUNC_FLAG_END`: the statement a function ends with. -/
def funcFlagEnd : Nat := 2

/-- The collected database, with the `exit_signal` entry of table `misc`. -/
structure Db where
  steps : List StepRow
  statements : List StatementRow
  files : List FileRow
  functions : List FunctionRow
  exitSignal : Option Nat
  deriving DecidableEq, Repr

/-! ## A finished recording -/

/-- The rows of `l` whose key is `k` are exactly one. -/
def OneRow {α : Type} (key : α → Nat) (k : Nat) (l : List α) : Prop :=
  (l.filter (fun r => key r = k)).length = 1

instance {α : Type} (key : α → Nat) (k : Nat) (l : List α) : Decidable (OneRow key k l) :=
  inferInstanceAs (Decidable (_ = _))

/-- What holds of every database Record completes: `process_breakpoint` numbers
the steps from 1, and a step has one line of one file.  That an address has a single
statement is the property Examine assumes whenever it joins `step` with `statement`. -/
structure Located (db : Db) : Prop where
  ids : db.steps.map (·.id) = List.range' 1 db.steps.length
  statement : ∀ s ∈ db.steps, OneRow StatementRow.address s.address db.statements
  file : ∀ st ∈ db.statements, OneRow FileRow.id st.fileId db.files

instance (db : Db) : Decidable (Located db) :=
  decidable_of_iff
    (db.steps.map (·.id) = List.range' 1 db.steps.length ∧
      (∀ s ∈ db.steps, OneRow StatementRow.address s.address db.statements) ∧
      ∀ st ∈ db.statements, OneRow FileRow.id st.fileId db.files)
    ⟨fun ⟨h1, h2, h3⟩ => ⟨h1, h2, h3⟩, fun ⟨h1, h2, h3⟩ => ⟨h1, h2, h3⟩⟩

/-- All steps were taken in functions. -/
structure Recorded (db : Db) : Prop extends Located db where
  function : ∀ s ∈ db.steps, OneRow FunctionRow.id s.functionId db.functions

instance (db : Db) : Decidable (Recorded db) :=
  decidable_of_iff
    (Located db ∧ ∀ s ∈ db.steps, OneRow FunctionRow.id s.functionId db.functions)
    ⟨fun ⟨h1, h2⟩ => ⟨h1, h2⟩, fun ⟨h1, h2⟩ => ⟨h1, h2⟩⟩

theorem OneRow.eq_singleton {α : Type} {key : α → Nat} {k : Nat} {l : List α}
    (h : OneRow key k l) : ∃ r, l.filter (fun r => key r = k) = [r] :=
  List.length_eq_one_iff.mp h

theorem OneRow.unique {α : Type} {key : α → Nat} {k : Nat} {l : List α} (h : OneRow key k l)
    {r r' : α} (hr : r ∈ l) (hr' : r' ∈ l) (hk : key r = k) (hk' : key r' = k) : r = r' := by
  obtain ⟨x, hx⟩ := h.eq_singleton
  have mem : ∀ y ∈ l, key y = k → y = x := fun y hy hyk => by
    have : y ∈ l.filter (fun r => key r = k) := List.mem_filter.mpr ⟨hy, by simpa using hyk⟩
    rw [hx] at this
    exact List.mem_singleton.mp this
  rw [mem r hr hk, mem r' hr' hk']

theorem OneRow.exists {α : Type} {key : α → Nat} {k : Nat} {l : List α} (h : OneRow key k l) :
    ∃ r ∈ l, key r = k := by
  obtain ⟨x, hx⟩ := h.eq_singleton
  have hmem : x ∈ l.filter (fun r => key r = k) := by rw [hx]; simp
  obtain ⟨hl, hk⟩ := List.mem_filter.mp hmem
  exact ⟨x, hl, by simpa using hk⟩

/-- Of this much the movement queries can be sure even where one address stands on
several lines: steps are numbered, and none is lost in the join. -/
structure Traced (db : Db) : Prop where
  ids : db.steps.map (·.id) = List.range' 1 db.steps.length
  statement : ∀ s ∈ db.steps, ∃ st ∈ db.statements, st.address = s.address
  file : ∀ st ∈ db.statements, ∃ f ∈ db.files, f.id = st.fileId

theorem Located.traced {db : Db} (rec : Located db) : Traced db :=
  ⟨rec.ids, fun s hs => (rec.statement s hs).exists, fun st hst => (rec.file st hst).exists⟩

section
variable {db : Db}

theorem Traced.id_bounds (rec : Traced db) {s : StepRow} (hs : s ∈ db.steps) :
    1 ≤ s.id ∧ s.id ≤ db.steps.length := by
  have : s.id ∈ List.range' 1 db.steps.length := by
    rw [← rec.ids]
    exact List.mem_map.mpr ⟨s, hs, rfl⟩
  rw [List.mem_range'_1] at this
  omega

theorem Traced.exists_step (rec : Traced db) {i : Nat} (h1 : 1 ≤ i) (hn : i ≤ db.steps.length) :
    ∃ s ∈ db.steps, s.id = i := by
  have : i ∈ db.steps.map (·.id) := by
    rw [rec.ids, List.mem_range'_1]
    omega
  obtain ⟨s, hs, hi⟩ := List.mem_map.mp this
  exact ⟨s, hs, hi⟩

theorem Located.id_bounds (rec : Located db) {s : StepRow} (hs : s ∈ db.steps) :
    1 ≤ s.id ∧ s.id ≤ db.steps.length := rec.traced.id_bounds hs

theorem Located.exists_step (rec : Located db) {i : Nat} (h1 : 1 ≤ i)
    (hn : i ≤ db.steps.length) : ∃ s ∈ db.steps, s.id = i := rec.traced.exists_step h1 hn

theorem Located.step_unique (rec : Located db) {s s' : StepRow} (hs : s ∈ db.steps)
    (hs' : s' ∈ db.steps) (h : s.id = s'.id) : s = s' := by
  have nodup : (db.steps.map (·.id)).Nodup := by
    rw [rec.ids]
    exact List.nodup_range'
  exact List.inj_on_of_nodup_map nodup hs hs' h

end

end FlightRec
