/-
# `FlightRec.Examine.SetBreakpoints` — the breakpoints of a file

`process_breakpoints` looks the file up by its name, deletes its breakpoints and then inserts
the requested lines one after the other, each as a `SELECT` that delivers a row only if some
recorded step executes the line.  Nothing is put back when it fails on the way: a request is
all or nothing only if it fails where there was nothing to delete and before anything was
inserted, or comes through whole (`setBreakpoints_atomic_iff`).

The insert fails on a line that was inserted before, by the unique index `br_by_line`.  The
statement keeps that error, and `DAB_CURSOR_RESET` reports it once more: the first item of
the next request fails whatever it is.
-/
import FlightRec.Examine.Frames

namespace FlightRec

/-! ## The table -/

/-- A row of `local.breakpoint`. -/
structure BreakpointRow where
  id : Nat
  fileId : Nat
  line : Nat
  deriving DecidableEq, Repr

/-- The columns of `br_by_line`. -/
def BreakpointRow.key (row : BreakpointRow) : Nat × Nat := (row.fileId, row.line)

/-- `local.breakpoint`, with the last id that `AUTOINCREMENT` has given out. -/
structure BreakpointTable where
  rows : List BreakpointRow
  lastId : Nat
  unique : (rows.map BreakpointRow.key).Nodup
  given : ∀ row ∈ rows, row.id ≤ lastId

namespace BreakpointTable

theorem nodup_keys_nil : (([] : List BreakpointRow).map BreakpointRow.key).Nodup := List.nodup_nil

/-- The table as `process_launch` creates it. -/
def empty : BreakpointTable where
  rows := []
  lastId := 0
  unique := nodup_keys_nil
  given := fun _ h => (List.not_mem_nil h).elim

/-- What is in the index. -/
def keys (t : BreakpointTable) : List (Nat × Nat) := t.rows.map BreakpointRow.key

/-- What `continue` joins with. -/
def breakpoints (t : BreakpointTable) : Breakpoints := ⟨t.keys, t.unique⟩

/-- `DELETE FROM local.breakpoint WHERE file_id = ?` -/
def clear (t : BreakpointTable) (fid : Nat) : BreakpointTable where
  rows := t.rows.filter fun row => row.fileId ≠ fid
  lastId := t.lastId
  unique := t.unique.sublist (List.filter_sublist.map _)
  given := fun row hrow => t.given row (List.mem_filter.mp hrow).1

/-- `INSERT INTO local.breakpoint (file_id, line)`, unless the index has the line. -/
def insert (t : BreakpointTable) (fid line : Nat) : Option BreakpointTable :=
  if h : (fid, line) ∈ t.keys then none
  else some
    { rows := t.rows ++ [⟨t.lastId + 1, fid, line⟩]
      lastId := t.lastId + 1
      unique := by
        rw [List.map_append]
        refine List.nodup_append'.mpr ⟨t.unique, List.nodup_singleton _, ?_⟩
        exact List.disjoint_singleton.mpr h
      given := fun row hrow => by
        rcases List.mem_append.mp hrow with hrow | hrow
        · exact (t.given row hrow).trans (Nat.le_succ _)
        · cases List.mem_singleton.mp hrow
          exact Nat.le_refl _ }

theorem mem_clear {t : BreakpointTable} {fid : Nat} {row : BreakpointRow} :
    row ∈ (t.clear fid).rows ↔ row ∈ t.rows ∧ row.fileId ≠ fid := by
  rw [clear, List.mem_filter, decide_eq_true_eq]

theorem clear_keys {t : BreakpointTable} {fid n : Nat} : (fid, n) ∉ (t.clear fid).keys := by
  intro h
  obtain ⟨row, hrow, heq⟩ := List.mem_map.mp h
  exact (mem_clear.mp hrow).2 (Prod.mk.inj heq).1

theorem insert_cases (t : BreakpointTable) (fid line : Nat) :
    ((fid, line) ∈ t.keys ∧ t.insert fid line = none) ∨
      (fid, line) ∉ t.keys ∧ ∃ t', t.insert fid line = some t' ∧
        t'.rows = t.rows ++ [⟨t.lastId + 1, fid, line⟩] ∧ t'.lastId = t.lastId + 1 := by
  by_cases h : (fid, line) ∈ t.keys
  · exact Or.inl ⟨h, dif_pos h⟩
  · exact Or.inr ⟨h, _, dif_neg h, rfl, rfl⟩

end BreakpointTable

/-! ## `setBreakpoints` -/

/-- An item of the array `breakpoints`.  An integer is delivered as an `int`. -/
inductive BreakpointItem where
  | null
  /-- Without an integer `line`. -/
  | noLine
  | line (n : Int)
  deriving DecidableEq, Repr

/-- What `JSON_GET_STRING_FIELD` finds at `source/name`. -/
inductive SourceName where
  /-- It is missing or no string. -/
  | invalid
  /-- `arguments` or `source` is `null`; `json_err` is not set. -/
  | null
  | name (name : String)
  deriving DecidableEq, Repr

/-- `arguments`; `breakpoints` is `none` if it is missing or no array. -/
structure BreakpointsArgs where
  sourceName : SourceName
  breakpoints : Option (List BreakpointItem)
  deriving DecidableEq, Repr

/-- An item of the response. -/
structure BreakpointAnswer where
  verified : Bool
  id : Option Nat
  deriving DecidableEq, Repr

structure BreakpointsReply where
  success : Bool
  message : Option String
  breakpoints : Option (List BreakpointAnswer)
  deriving DecidableEq, Repr

/-- A failure before the array of the response is created. -/
def BreakpointsReply.refused (message : String) : BreakpointsReply :=
  { success := false, message := some message, breakpoints := none }

/-- The table, and whether `addbr_cursor` has failed since it was reset. -/
structure BreakpointCache where
  table : BreakpointTable
  addbrFailed : Bool

/-- `SELECT id FROM file WHERE name = ?`, the first row. -/
def Db.fileByName (db : Db) (name : String) : Option Nat :=
  (db.files.find? fun f => f.name = name).map (·.id)

/-- The rows that are selected to be inserted, before the limit. -/
def Db.stoppableRows (db : Db) (fid : Nat) (line : Int) : List StatementRow :=
  db.steps.flatMap fun s => db.statements.filter fun st =>
    st.address = s.address ∧ st.fileId = fid ∧ (st.line : Int) = line

/-- Where the loop has ended; the failure comes with its message. -/
structure BreakpointsLoop where
  cache : BreakpointCache
  answers : List BreakpointAnswer
  error : Option (Option String)

/-- An answer in front. -/
def BreakpointsLoop.answer (a : BreakpointAnswer) (r : BreakpointsLoop) : BreakpointsLoop :=
  { r with answers := a :: r.answers }

/-- The loop of `process_breakpoints`. -/
def breakpointsLoop (db : Db) (fid : Nat) :
    List BreakpointItem → BreakpointCache → BreakpointsLoop
  | [], st => ⟨st, [], none⟩
  | .null :: _, st => ⟨st, [], none⟩
  | .noLine :: _, st => ⟨st, [], some none⟩
  | .line n :: rest, st =>
      if st.addbrFailed then
        ⟨{ st with addbrFailed := false }, [], some (some "Cannot cache breakpoint")⟩
      else
        match (db.stoppableRows fid (jsonInt32 n)).head? with
        | none => (breakpointsLoop db fid rest st).answer ⟨false, none⟩
        | some row =>
            match st.table.insert row.fileId row.line with
            | none => ⟨{ st with addbrFailed := true }, [], some (some "Cannot cache breakpoint")⟩
            | some table =>
                (breakpointsLoop db fid rest { st with table }).answer ⟨true, some table.lastId⟩

/-- `process_breakpoints` from the `DELETE` on. -/
def replaceBreakpoints (db : Db) (fid : Nat) (breakpoints : Option (List BreakpointItem))
    (st : BreakpointCache) : BreakpointCache × BreakpointsReply :=
  let st := { st with table := st.table.clear fid }
  match breakpoints with
  | none => (st, .refused "Cannot find 'breakpoints' param in 'setBreakpoints' request")
  | some items =>
      let result := breakpointsLoop db fid items st
      (result.cache,
        { success := result.error.isNone, message := result.error.join,
          breakpoints := some result.answers })

/-- `process_breakpoints` -/
def processBreakpoints (db : Db) (arguments : Option BreakpointsArgs) (st : BreakpointCache) :
    BreakpointCache × BreakpointsReply :=
  match arguments with
  | none => (st, .refused "Cannot find 'arguments' param in 'setBreakpoints' request")
  | some args =>
    match args.sourceName with
    | .invalid => (st, .refused "Cannot get 'source/name' param in 'setBreakpoints' request")
    | .null => (st, .refused "Cannot query file")
    | .name name =>
      match db.fileByName name with
      | none => (st, .refused "Cannot query file")
      | some fid => replaceBreakpoints db fid args.breakpoints st

/-! ## What is requested -/

/-- Some recorded step executes the line. -/
def Db.Executed (db : Db) (fid : Nat) (line : Int) : Prop :=
  ∃ s ∈ db.steps, ∃ st ∈ db.statements,
    st.address = s.address ∧ st.fileId = fid ∧ (st.line : Int) = line

instance (db : Db) (fid : Nat) (line : Int) : Decidable (db.Executed fid line) :=
  inferInstanceAs (Decidable (∃ s ∈ db.steps, ∃ st ∈ db.statements,
    st.address = s.address ∧ st.fileId = fid ∧ (st.line : Int) = line))

/-- The file of a request, and its array. -/
def Db.target (db : Db) (arguments : Option BreakpointsArgs) :
    Option (Nat × Option (List BreakpointItem)) :=
  match arguments with
  | some { sourceName := .name name, breakpoints } =>
      (db.fileByName name).map fun fid => (fid, breakpoints)
  | _ => none

/-- All lines in the array. -/
def requestedLines (items : List BreakpointItem) : List Int :=
  items.filterMap fun
    | .line n => some (jsonInt32 n)
    | _ => none

/-- The lines before the first item that is none. -/
def readLines : List BreakpointItem → List Int
  | .line n :: rest => jsonInt32 n :: readLines rest
  | _ => []

/-- No item without a line is read: the loop ends at the end, or at `null`. -/
def readsAll : List BreakpointItem → Bool
  | .line _ :: rest => readsAll rest
  | .noLine :: _ => false
  | _ => true

theorem processBreakpoints_refused {db : Db} {arguments : Option BreakpointsArgs}
    (h : db.target arguments = none) (st : BreakpointCache) :
    ∃ message, processBreakpoints db arguments st = (st, .refused message) := by
  rcases arguments with _ | ⟨_ | _ | name, breakpoints⟩
  · exact ⟨_, rfl⟩
  · exact ⟨_, rfl⟩
  · exact ⟨_, rfl⟩
  · have hfile : db.fileByName name = none := Option.map_eq_none_iff.mp h
    refine ⟨"Cannot query file", ?_⟩
    rw [processBreakpoints]
    dsimp only
    rw [hfile]

theorem processBreakpoints_target {db : Db} {arguments : Option BreakpointsArgs} {fid : Nat}
    {breakpoints : Option (List BreakpointItem)}
    (h : db.target arguments = some (fid, breakpoints)) (st : BreakpointCache) :
    processBreakpoints db arguments st = replaceBreakpoints db fid breakpoints st := by
  rcases arguments with _ | ⟨_ | _ | name, br⟩
  · cases h
  · cases h
  · cases h
  · obtain ⟨fid', hfile, heq⟩ := Option.map_eq_some_iff.mp h
    cases heq
    rw [processBreakpoints]
    dsimp only
    rw [hfile]

/-! ## What the loop does -/

section
variable {db : Db} {fid : Nat}

theorem head_stoppableRows {line : Int} {row : StatementRow}
    (h : (db.stoppableRows fid line).head? = some row) :
    row.fileId = fid ∧ (row.line : Int) = line ∧ db.Executed fid line := by
  obtain ⟨s, hs, hrow⟩ := List.mem_flatMap.mp (List.mem_of_head? h)
  obtain ⟨hst, hsel⟩ := List.mem_filter.mp hrow
  obtain ⟨haddress, hfile, hline⟩ := of_decide_eq_true hsel
  exact ⟨hfile, hline, s, hs, row, hst, haddress, hfile, hline⟩

theorem head_stoppableRows_none {line : Int} (h : (db.stoppableRows fid line).head? = none) :
    ¬ db.Executed fid line := by
  rintro ⟨s, hs, st, hst, hsel⟩
  rw [List.head?_eq_none_iff] at h
  have hmem : st ∈ db.stoppableRows fid line :=
    List.mem_flatMap.mpr ⟨s, hs, List.mem_filter.mpr ⟨hst, decide_eq_true hsel⟩⟩
  rw [h] at hmem
  cases hmem

/-- **One line**: it is not executed, or it is in the index already, or it is inserted. -/
theorem breakpointsLoop_line {st : BreakpointCache} (hcursor : st.addbrFailed = false) (n : Int)
    (rest : List BreakpointItem) :
    (¬ db.Executed fid (jsonInt32 n) ∧ breakpointsLoop db fid (.line n :: rest) st =
      (breakpointsLoop db fid rest st).answer ⟨false, none⟩) ∨
    ∃ m : Nat, (m : Int) = jsonInt32 n ∧ db.Executed fid m ∧
      (((fid, m) ∈ st.table.keys ∧ breakpointsLoop db fid (.line n :: rest) st =
          ⟨{ st with addbrFailed := true }, [], some (some "Cannot cache breakpoint")⟩) ∨
        (fid, m) ∉ st.table.keys ∧ ∃ table,
          table.rows = st.table.rows ++ [⟨st.table.lastId + 1, fid, m⟩] ∧
          table.lastId = st.table.lastId + 1 ∧
          breakpointsLoop db fid (.line n :: rest) st =
            (breakpointsLoop db fid rest { st with table }).answer ⟨true, some table.lastId⟩) := by
  rw [breakpointsLoop, if_neg (by rw [hcursor]; exact Bool.false_ne_true)]
  cases hhead : (db.stoppableRows fid (jsonInt32 n)).head? with
  | none => exact Or.inl ⟨head_stoppableRows_none hhead, rfl⟩
  | some row =>
      obtain ⟨hfile, hline, hexec⟩ := head_stoppableRows hhead
      refine Or.inr ⟨row.line, hline, hline ▸ hexec, ?_⟩
      rcases st.table.insert_cases fid row.line with ⟨hkey, hinsert⟩ | ⟨hkey, table, hinsert, h⟩
      · refine Or.inl ⟨hkey, ?_⟩
        dsimp only
        rw [hfile, hinsert]
      · refine Or.inr ⟨hkey, table, h.1, h.2, ?_⟩
        dsimp only
        rw [hfile, hinsert]

theorem adds_nothing (table : BreakpointTable) : ∃ new, table.rows = table.rows ++ new ∧
    ∀ row ∈ new, row.fileId = fid ∧ table.lastId < row.id :=
  ⟨[], (List.append_nil _).symm, fun _ h => (List.not_mem_nil h).elim⟩

theorem mem_keys_append {table table' : BreakpointTable} {id f k m : Nat}
    (h : table'.rows = table.rows ++ [⟨id, fid, m⟩]) :
    (f, k) ∈ table'.keys ↔ (f, k) ∈ table.keys ∨ f = fid ∧ k = m := by
  rw [BreakpointTable.keys, h, List.map_append, List.mem_append, List.map_singleton,
    List.mem_singleton]
  exact or_congr_right Prod.mk_inj

theorem breakpointsLoop_rows : ∀ (items : List BreakpointItem) (st : BreakpointCache),
    ∃ new, (breakpointsLoop db fid items st).cache.table.rows = st.table.rows ++ new ∧
      ∀ row ∈ new, row.fileId = fid ∧ st.table.lastId < row.id
  | [], _ => adds_nothing _
  | .null :: _, _ => adds_nothing _
  | .noLine :: _, _ => adds_nothing _
  | .line n :: rest, st => by
      by_cases hcursor : st.addbrFailed = true
      · rw [breakpointsLoop, if_pos hcursor]
        exact adds_nothing _
      · rcases breakpointsLoop_line (Bool.eq_false_of_not_eq_true hcursor) n rest with
          ⟨-, heq⟩ | ⟨m, -, -, ⟨-, heq⟩ | ⟨-, table, hrows, hid, heq⟩⟩
        · rw [heq]
          exact breakpointsLoop_rows rest st
        · rw [heq]
          exact adds_nothing _
        · obtain ⟨new, happend, hnew⟩ := breakpointsLoop_rows rest { st with table }
          rw [heq]
          refine ⟨⟨st.table.lastId + 1, fid, m⟩ :: new, ?_, fun row hrow => ?_⟩
          · show (breakpointsLoop db fid rest { st with table }).cache.table.rows = _
            rw [happend, hrows, List.append_assoc]
            rfl
          · rcases List.mem_cons.mp hrow with rfl | hrow
            · exact ⟨rfl, Nat.lt_succ_self _⟩
            · obtain ⟨hfile, hlater⟩ := hnew row hrow
              rw [hid] at hlater
              exact ⟨hfile, Nat.lt_of_succ_lt hlater⟩

/-- Into a table without lines of the file nothing is added only if no line is executed. -/
theorem breakpointsLoop_untouched : ∀ {items : List BreakpointItem} {st : BreakpointCache},
    st.addbrFailed = false → (∀ n, (fid, n) ∉ st.table.keys) →
      ((breakpointsLoop db fid items st).cache.table.rows = st.table.rows ↔
        ∀ l ∈ readLines items, ¬ db.Executed fid l)
  | [], _, _, _ => ⟨fun _ _ h => (List.not_mem_nil h).elim, fun _ => rfl⟩
  | .null :: _, _, _, _ => ⟨fun _ _ h => (List.not_mem_nil h).elim, fun _ => rfl⟩
  | .noLine :: _, _, _, _ => ⟨fun _ _ h => (List.not_mem_nil h).elim, fun _ => rfl⟩
  | .line n :: rest, st, hcursor, hfree => by
      rw [readLines, List.forall_mem_cons]
      rcases breakpointsLoop_line hcursor n rest with
        ⟨hnot, heq⟩ | ⟨m, hm, hexec, ⟨hkey, -⟩ | ⟨-, table, hrows, -, heq⟩⟩
      · rw [heq, and_iff_right hnot]
        exact breakpointsLoop_untouched hcursor hfree
      · exact absurd hkey (hfree m)
      · rw [heq]
        refine ⟨fun hsame => ?_, fun ⟨hnot, _⟩ => absurd (hm ▸ hexec) hnot⟩
        obtain ⟨new, happend, -⟩ := @breakpointsLoop_rows db fid rest { st with table }
        have hlength := congrArg List.length (happend.symm.trans hsame)
        rw [hrows, List.length_append, List.length_append, List.length_singleton] at hlength
        omega

/-- **The loop comes through** if all it reads are lines, and no executed line is read twice
or in the index already. -/
theorem breakpointsLoop_whole : ∀ {items : List BreakpointItem} {st : BreakpointCache},
    st.addbrFailed = false →
      ((breakpointsLoop db fid items st).error = none ↔ readsAll items = true ∧
        ((readLines items).Pairwise fun l l' => l = l' → ¬ db.Executed fid l) ∧
          ∀ m : Nat, (m : Int) ∈ readLines items → db.Executed fid m → (fid, m) ∉ st.table.keys)
  | [], _, _ => ⟨fun _ => ⟨rfl, List.Pairwise.nil, fun _ h => (List.not_mem_nil h).elim⟩,
      fun _ => rfl⟩
  | .null :: _, _, _ => ⟨fun _ => ⟨rfl, List.Pairwise.nil, fun _ h => (List.not_mem_nil h).elim⟩,
      fun _ => rfl⟩
  | .noLine :: _, _, _ => ⟨fun h => (Option.some_ne_none _ h).elim,
      fun h => (Bool.false_ne_true h.1).elim⟩
  | .line n :: rest, st, hcursor => by
      rw [readLines, readsAll, List.pairwise_cons]
      rcases breakpointsLoop_line hcursor n rest with
        ⟨hnot, heq⟩ | ⟨m, hm, hexec, ⟨hkey, heq⟩ | ⟨hkey, table, hrows, -, heq⟩⟩
      · rw [heq]
        refine (breakpointsLoop_whole hcursor).trans ⟨?_, ?_⟩
        · rintro ⟨hall, hpair, hfree⟩
          refine ⟨hall, ⟨fun _ _ _ => hnot, hpair⟩, fun k hk hexec => ?_⟩
          rcases List.mem_cons.mp hk with hk | hk
          · exact absurd (hk ▸ hexec) hnot
          · exact hfree k hk hexec
        · rintro ⟨hall, ⟨-, hpair⟩, hfree⟩
          exact ⟨hall, hpair, fun k hk hexec => hfree k (List.mem_cons_of_mem _ hk) hexec⟩
      · rw [heq]
        refine ⟨fun h => (Option.some_ne_none _ h).elim, fun ⟨_, _, hfree⟩ => ?_⟩
        exact absurd hkey (hfree m (hm ▸ List.mem_cons_self) hexec)
      · -- the line is in the index from now on
        have hkeys : ∀ k, (fid, k) ∈ table.keys ↔ (fid, k) ∈ st.table.keys ∨ k = m := by
          intro k
          rw [mem_keys_append hrows, and_iff_right rfl]
        rw [heq]
        refine (@breakpointsLoop_whole rest { st with table } hcursor).trans ⟨?_, ?_⟩
        · rintro ⟨hall, hpair, hfree⟩
          refine ⟨hall, ⟨fun l hl hsame _ => ?_, hpair⟩, fun k hk hexec' => ?_⟩
          · rw [← hm] at hsame
            exact hfree m (hsame ▸ hl) hexec ((hkeys m).mpr (Or.inr rfl))
          · rcases List.mem_cons.mp hk with hk | hk
            · have hkm : k = m := Int.ofNat_inj.mp (hk.trans hm.symm)
              rw [hkm]
              exact hkey
            · exact fun h => hfree k hk hexec' ((hkeys k).mpr (Or.inl h))
        · rintro ⟨hall, ⟨hfirst, hpair⟩, hfree⟩
          refine ⟨hall, hpair, fun k hk hexec' h => ?_⟩
          rcases (hkeys k).mp h with h | rfl
          · exact hfree k (List.mem_cons_of_mem _ hk) hexec' h
          · exact hfirst _ hk hm.symm (hm ▸ hexec)

theorem breakpointsLoop_ok : ∀ {items : List BreakpointItem} {st : BreakpointCache},
    (breakpointsLoop db fid items st).error = none →
      (∀ f m, (f, m) ∈ (breakpointsLoop db fid items st).cache.table.keys ↔
        (f, m) ∈ st.table.keys ∨ f = fid ∧ (m : Int) ∈ readLines items ∧ db.Executed fid m) ∧
      (breakpointsLoop db fid items st).answers.map (·.verified) =
        (readLines items).map fun l => decide (db.Executed fid l)
  | [], _, _ => ⟨fun _ _ => (or_iff_left fun h => List.not_mem_nil h.2.1).symm, rfl⟩
  | .null :: _, _, _ => ⟨fun _ _ => (or_iff_left fun h => List.not_mem_nil h.2.1).symm, rfl⟩
  | .noLine :: _, _, hok => (Option.some_ne_none _ hok).elim
  | .line n :: rest, st, hok => by
      have hcursor : st.addbrFailed = false := by
        by_contra h
        rw [breakpointsLoop, if_pos (Bool.eq_true_of_not_eq_false h)] at hok
        exact Option.some_ne_none _ hok
      rw [readLines, List.map_cons]
      rcases breakpointsLoop_line hcursor n rest with
        ⟨hnot, heq⟩ | ⟨m, hm, hexec, ⟨-, heq⟩ | ⟨-, table, hrows, -, heq⟩⟩
      · rw [heq] at hok ⊢
        obtain ⟨hkeys, hanswers⟩ := breakpointsLoop_ok hok
        refine ⟨fun f k => (hkeys f k).trans (or_congr_right ?_), ?_⟩
        · refine and_congr_right fun _ => ?_
          rw [List.mem_cons]
          refine ⟨fun h => ⟨Or.inr h.1, h.2⟩, fun ⟨hk, hexec⟩ => ⟨?_, hexec⟩⟩
          exact hk.resolve_left fun h => hnot (h ▸ hexec)
        · rw [decide_eq_false hnot, ← hanswers]
          rfl
      · rw [heq] at hok
        exact (Option.some_ne_none _ hok).elim
      · rw [heq] at hok ⊢
        obtain ⟨hkeys, hanswers⟩ := @breakpointsLoop_ok rest { st with table } hok
        refine ⟨fun f k => (hkeys f k).trans ?_, ?_⟩
        · rw [mem_keys_append hrows, or_assoc]
          refine or_congr_right ?_
          rw [List.mem_cons]
          constructor
          · rintro (⟨hf, hk⟩ | ⟨hf, hk, hexec'⟩)
            · exact ⟨hf, Or.inl (by rw [hk, hm]), hk ▸ hexec⟩
            · exact ⟨hf, Or.inr hk, hexec'⟩
          · rintro ⟨hf, hk | hk, hexec'⟩
            · exact Or.inl ⟨hf, Int.ofNat_inj.mp (hk.trans hm.symm)⟩
            · exact Or.inr ⟨hf, hk, hexec'⟩
        · rw [decide_eq_true (hm ▸ hexec : db.Executed fid (jsonInt32 n)), ← hanswers]
          rfl

/-- After a failed insert the first line that is read fails. -/
theorem breakpointsLoop_cursor {st : BreakpointCache} (h : st.addbrFailed = true)
    (items : List BreakpointItem) :
    (readLines items = [] ∧ breakpointsLoop db fid items st =
        ⟨st, [], if readsAll items = true then none else some none⟩) ∨
      readLines items ≠ [] ∧ breakpointsLoop db fid items st =
        ⟨{ st with addbrFailed := false }, [], some (some "Cannot cache breakpoint")⟩ := by
  rcases items with _ | ⟨_ | _ | n, rest⟩
  · exact Or.inl ⟨rfl, rfl⟩
  · exact Or.inl ⟨rfl, rfl⟩
  · exact Or.inl ⟨rfl, rfl⟩
  · refine Or.inr ⟨List.cons_ne_nil _ _, ?_⟩
    rw [breakpointsLoop, if_pos h]

end

/-! ## All or nothing -/

/-- What is requested is in the table, and the answers say which of the lines it is; or the
table is as it was.  Either way the breakpoints of other files are. -/
structure AllOrNothing (db : Db) (arguments : Option BreakpointsArgs) (st : BreakpointCache) :
    Prop where
  failed : (processBreakpoints db arguments st).2.success = false →
    ∀ row, row ∈ (processBreakpoints db arguments st).1.table.rows ↔ row ∈ st.table.rows
  lines : (processBreakpoints db arguments st).2.success = true → ∀ fid items,
    db.target arguments = some (fid, some items) → ∀ m : Nat,
      (fid, m) ∈ (processBreakpoints db arguments st).1.table.keys ↔
        (m : Int) ∈ requestedLines items ∧ db.Executed fid m
  answers : (processBreakpoints db arguments st).2.success = true → ∀ fid items,
    db.target arguments = some (fid, some items) →
      ∃ answers : List BreakpointAnswer,
        (processBreakpoints db arguments st).2.breakpoints = some answers ∧
        ∀ (i : Nat) (a : BreakpointAnswer), answers[i]? = some a →
          ∃ n, items[i]? = some (BreakpointItem.line n) ∧
            (a.verified = true ↔ db.Executed fid (jsonInt32 n))
  others : ∀ row, (∀ fid breakpoints, db.target arguments = some (fid, breakpoints) →
    row.fileId ≠ fid) →
      (row ∈ (processBreakpoints db arguments st).1.table.rows ↔ row ∈ st.table.rows)

/-- The array comes through whole: it is read without a failure, and no executed line is
behind the end of the reading only. -/
structure ReadWhole (db : Db) (fid : Nat) (items : List BreakpointItem) (addbrFailed : Bool) :
    Prop where
  all : readsAll items = true
  distinct : (readLines items).Pairwise fun l l' => l = l' → ¬ db.Executed fid l
  cursor : addbrFailed = true → readLines items = []
  requested : ∀ l ∈ requestedLines items, db.Executed fid l → l ∈ readLines items

/-- The reading of the array fails before a line is inserted. -/
def FailsEarly (db : Db) (fid : Nat) (items : List BreakpointItem) (addbrFailed : Bool) : Prop :=
  (addbrFailed = true ∧ readLines items ≠ []) ∨
    (readsAll items = false ∧ ∀ l ∈ readLines items, ¬ db.Executed fid l)

/-- When a request is all or nothing. -/
def Atomic (db : Db) (arguments : Option BreakpointsArgs) (st : BreakpointCache) : Prop :=
  match db.target arguments with
  | none => True
  | some (fid, none) => ∀ row ∈ st.table.rows, row.fileId ≠ fid
  | some (fid, some items) => ReadWhole db fid items st.addbrFailed ∨
      (∀ row ∈ st.table.rows, row.fileId ≠ fid) ∧ FailsEarly db fid items st.addbrFailed

theorem readLines_get : ∀ {items : List BreakpointItem} {i : Nat} {l : Int},
    (readLines items)[i]? = some l → ∃ n, items[i]? = some (.line n) ∧ jsonInt32 n = l
  | .line n :: _, 0, _, h => ⟨n, rfl, Option.some.inj h⟩
  | .line _ :: rest, i + 1, _, h => @readLines_get rest i _ h

theorem readLines_subset : ∀ {items : List BreakpointItem}, readLines items ⊆ requestedLines items
  | [] => List.nil_subset _
  | .null :: _ => List.nil_subset _
  | .noLine :: _ => List.nil_subset _
  | .line n :: rest => by
      have hlines : requestedLines (.line n :: rest) = jsonInt32 n :: requestedLines rest :=
        List.filterMap_cons_some rfl
      rw [readLines, hlines]
      exact List.cons_subset_cons _ readLines_subset

section
variable {db : Db} {fid : Nat} {items : List BreakpointItem} {st : BreakpointCache}

theorem breakpointsLoop_error (hfree : ∀ n, (fid, n) ∉ st.table.keys) :
    (breakpointsLoop db fid items st).error = none ↔ readsAll items = true ∧
      ((readLines items).Pairwise fun l l' => l = l' → ¬ db.Executed fid l) ∧
        (st.addbrFailed = true → readLines items = []) := by
  by_cases hcursor : st.addbrFailed = true
  · rcases @breakpointsLoop_cursor db fid st hcursor items with
      ⟨hnil, heq⟩ | ⟨hne, heq⟩
    · rw [heq, hnil]
      cases hall : readsAll items with
      | true => exact ⟨fun _ => ⟨rfl, List.Pairwise.nil, fun _ => rfl⟩, fun _ => rfl⟩
      | false => exact ⟨fun h => (Option.some_ne_none _ h).elim, fun h => nomatch h.1⟩
    · rw [heq]
      exact ⟨fun h => (Option.some_ne_none _ h).elim, fun h => absurd (h.2.2 hcursor) hne⟩
  · refine (breakpointsLoop_whole (Bool.eq_false_of_not_eq_true hcursor)).trans ?_
    exact ⟨fun h => ⟨h.1, h.2.1, fun hc => absurd hc hcursor⟩,
      fun h => ⟨h.1, h.2.1, fun m _ _ => hfree m⟩⟩

theorem breakpointsLoop_failed (hfree : ∀ n, (fid, n) ∉ st.table.keys)
    (herror : (breakpointsLoop db fid items st).error ≠ none) :
    (breakpointsLoop db fid items st).cache.table.rows = st.table.rows ↔
      FailsEarly db fid items st.addbrFailed := by
  by_cases hcursor : st.addbrFailed = true
  · rcases @breakpointsLoop_cursor db fid st hcursor items with
      ⟨hnil, heq⟩ | ⟨hne, heq⟩
    · have hall : readsAll items = false := by
        by_contra h
        rw [heq, if_pos (Bool.eq_true_of_not_eq_false h)] at herror
        exact herror rfl
      rw [heq]
      refine ⟨fun _ => Or.inr ⟨hall, fun l hl => ?_⟩, fun _ => rfl⟩
      rw [hnil] at hl
      cases hl
    · rw [heq]
      exact ⟨fun _ => Or.inl ⟨hcursor, hne⟩, fun _ => rfl⟩
  · have hoff := Bool.eq_false_of_not_eq_true hcursor
    rw [breakpointsLoop_untouched hoff hfree]
    refine ⟨fun hnone => Or.inr ⟨?_, hnone⟩, fun h => (h.resolve_left fun h => hcursor h.1).2⟩
    by_contra hall
    refine herror ((breakpointsLoop_error hfree).mpr ⟨Bool.eq_true_of_not_eq_false hall, ?_,
      fun h => absurd h hcursor⟩)
    exact List.Pairwise.imp_of_mem (fun hl _ _ _ => hnone _ hl)
      (List.pairwise_of_forall fun _ _ => trivial)

theorem replaced_same_iff :
    (∀ row, row ∈ (breakpointsLoop db fid items
        { st with table := st.table.clear fid }).cache.table.rows ↔ row ∈ st.table.rows) ↔
      (∀ row ∈ st.table.rows, row.fileId ≠ fid) ∧
        (breakpointsLoop db fid items { st with table := st.table.clear fid }).cache.table.rows =
          (st.table.clear fid).rows := by
  obtain ⟨new, happend, hnew⟩ :=
    @breakpointsLoop_rows db fid items { st with table := st.table.clear fid }
  have hfresh : ∀ row ∈ new, row ∉ st.table.rows := by
    intro row hrow hold
    exact absurd (st.table.given row hold) (Nat.not_le_of_lt (hnew row hrow).2)
  constructor
  · intro hsame
    have hnil : new = [] := by
      refine List.eq_nil_iff_forall_not_mem.mpr fun row hrow => hfresh row hrow ((hsame row).mp ?_)
      rw [happend]
      exact List.mem_append_right _ hrow
    rw [happend, hnil, List.append_nil]
    refine ⟨fun row hrow => ?_, rfl⟩
    have hmem := (hsame row).mpr hrow
    rw [happend, hnil, List.append_nil] at hmem
    exact (BreakpointTable.mem_clear.mp hmem).2
  · rintro ⟨hfree, heq⟩ row
    rw [heq]
    exact BreakpointTable.mem_clear.trans (and_iff_left_of_imp (hfree row))

theorem replaced_others {row : BreakpointRow} (h : row.fileId ≠ fid) :
    row ∈ (breakpointsLoop db fid items
      { st with table := st.table.clear fid }).cache.table.rows ↔ row ∈ st.table.rows := by
  obtain ⟨new, happend, hnew⟩ :=
    @breakpointsLoop_rows db fid items { st with table := st.table.clear fid }
  rw [happend, List.mem_append]
  refine (or_iff_left fun hrow => h (hnew row hrow).1).trans ?_
  exact BreakpointTable.mem_clear.trans (and_iff_left h)

/-! ### The ways of a request -/

theorem allOrNothing_refused {arguments : Option BreakpointsArgs}
    (htarget : db.target arguments = none) : AllOrNothing db arguments st := by
  obtain ⟨message, heq⟩ := processBreakpoints_refused htarget st
  refine ⟨?_, ?_, ?_, ?_⟩
  · rw [heq]
    exact fun _ _ => Iff.rfl
  · rw [heq]
    exact fun h => nomatch h
  · rw [heq]
    exact fun h => nomatch h
  · rw [heq]
    exact fun _ _ => Iff.rfl

theorem allOrNothing_noArray {arguments : Option BreakpointsArgs}
    (htarget : db.target arguments = some (fid, none)) :
    AllOrNothing db arguments st ↔ ∀ row ∈ st.table.rows, row.fileId ≠ fid := by
  have heq := processBreakpoints_target htarget st
  dsimp only [replaceBreakpoints] at heq
  constructor
  · intro h row hrow
    have hmem := (h.failed (by rw [heq]; rfl) row).mpr hrow
    rw [heq] at hmem
    exact (BreakpointTable.mem_clear.mp hmem).2
  · intro hfree
    refine ⟨fun _ row => ?_, ?_, ?_, fun row hrow => ?_⟩
    · rw [heq]
      exact BreakpointTable.mem_clear.trans (and_iff_left_of_imp (hfree row))
    · rw [heq]
      exact fun h => nomatch h
    · rw [heq]
      exact fun h => nomatch h
    · rw [heq]
      exact BreakpointTable.mem_clear.trans (and_iff_left (hrow fid none htarget))

theorem array_others {arguments : Option BreakpointsArgs}
    (htarget : db.target arguments = some (fid, some items)) {row : BreakpointRow}
    (hrow : ∀ fid' breakpoints, db.target arguments = some (fid', breakpoints) →
      row.fileId ≠ fid') :
    row ∈ (processBreakpoints db arguments st).1.table.rows ↔ row ∈ st.table.rows := by
  rw [processBreakpoints_target htarget]
  exact replaced_others (hrow fid (some items) htarget)

theorem allOrNothing_whole {arguments : Option BreakpointsArgs}
    (htarget : db.target arguments = some (fid, some items))
    (hok : (breakpointsLoop db fid items { st with table := st.table.clear fid }).error = none) :
    AllOrNothing db arguments st ↔ ReadWhole db fid items st.addbrFailed := by
  have heq := processBreakpoints_target htarget st
  dsimp only [replaceBreakpoints] at heq
  have hfree : ∀ n, (fid, n) ∉ (st.table.clear fid).keys := fun _ => BreakpointTable.clear_keys
  have hsuccess : (processBreakpoints db arguments st).2.success = true := by
    rw [heq]
    dsimp only
    rw [hok]
    rfl
  obtain ⟨hall, hdistinct, hcursor⟩ := (breakpointsLoop_error hfree).mp hok
  obtain ⟨hkeys, hanswers⟩ := breakpointsLoop_ok hok
  have hlines : ∀ m : Nat, (fid, m) ∈ (processBreakpoints db arguments st).1.table.keys ↔
      (m : Int) ∈ readLines items ∧ db.Executed fid m := by
    intro m
    rw [heq]
    refine (hkeys fid m).trans ((or_iff_right (hfree m)).trans ?_)
    exact and_iff_right rfl
  constructor
  · intro h
    refine ⟨hall, hdistinct, hcursor, fun l hl hexec => ?_⟩
    obtain ⟨_, _, row, _, _, _, rfl⟩ := id hexec
    exact ((hlines row.line).mp ((h.lines hsuccess fid items htarget row.line).mpr
      ⟨hl, hexec⟩)).1
  · intro hwhole
    refine ⟨fun h => ?_, fun _ fid' items' ht m => ?_, fun _ fid' items' ht => ?_,
      fun row hrow => array_others htarget hrow⟩
    · rw [hsuccess] at h
      cases h
    · rw [htarget] at ht
      cases ht
      rw [hlines m]
      exact ⟨fun h => ⟨readLines_subset h.1, h.2⟩,
        fun h => ⟨hwhole.requested _ h.1 h.2, h.2⟩⟩
    · rw [htarget] at ht
      cases ht
      refine ⟨_, by rw [heq], fun i a ha => ?_⟩
      have hget := congrArg (·[i]?) hanswers
      rw [List.getElem?_map, List.getElem?_map, ha, Option.map_some] at hget
      obtain ⟨l, hl, hverified⟩ := Option.map_eq_some_iff.mp hget.symm
      obtain ⟨n, hn, rfl⟩ := readLines_get hl
      exact ⟨n, hn, by rw [← hverified, decide_eq_true_eq]⟩

theorem allOrNothing_failed {arguments : Option BreakpointsArgs}
    (htarget : db.target arguments = some (fid, some items))
    (herror : (breakpointsLoop db fid items
      { st with table := st.table.clear fid }).error ≠ none) :
    AllOrNothing db arguments st ↔
      (∀ row ∈ st.table.rows, row.fileId ≠ fid) ∧ FailsEarly db fid items st.addbrFailed := by
  have heq := processBreakpoints_target htarget st
  dsimp only [replaceBreakpoints] at heq
  have hsuccess : (processBreakpoints db arguments st).2.success = false := by
    rw [heq]
    exact Option.isNone_eq_false_iff.mpr (Option.isSome_iff_ne_none.mpr herror)
  have hsame := (@replaced_same_iff db fid items st).trans
    (and_congr_right fun _ => breakpointsLoop_failed (fun _ => BreakpointTable.clear_keys) herror)
  constructor
  · intro h
    refine hsame.mp fun row => ?_
    have hrow := h.failed hsuccess row
    rw [heq] at hrow
    exact hrow
  · intro hearly
    refine ⟨fun _ row => ?_, fun h => ?_, fun h => ?_, fun row hrow => array_others htarget hrow⟩
    · rw [heq]
      exact hsame.mpr hearly row
    · rw [hsuccess] at h
      cases h
    · rw [hsuccess] at h
      cases h

end

/-- **All or nothing**, exactly if the request is refused before the `DELETE`, or comes
through whole, or fails early on a file without breakpoints. -/
theorem setBreakpoints_atomic_iff (db : Db) (arguments : Option BreakpointsArgs)
    (st : BreakpointCache) : AllOrNothing db arguments st ↔ Atomic db arguments st := by
  unfold Atomic
  rcases htarget : db.target arguments with _ | ⟨fid, _ | items⟩
  · exact iff_of_true (allOrNothing_refused htarget) trivial
  · exact allOrNothing_noArray htarget
  · have herror := @breakpointsLoop_error db fid items { st with table := st.table.clear fid }
      fun _ => BreakpointTable.clear_keys
    dsimp only
    by_cases hok : (breakpointsLoop db fid items
        { st with table := st.table.clear fid }).error = none
    · obtain ⟨hall, _, hcursor⟩ := herror.mp hok
      refine (allOrNothing_whole htarget hok).trans (or_iff_left ?_).symm
      rintro ⟨_, ⟨hc, hne⟩ | ⟨hnot, _⟩⟩
      · exact hne (hcursor hc)
      · rw [hall] at hnot
        cases hnot
    · refine (allOrNothing_failed htarget hok).trans (or_iff_right fun hwhole => hok ?_).symm
      exact herror.mpr ⟨hwhole.all, hwhole.distinct, hwhole.cursor⟩

/-! ### A request without an array -/

/-- One file whose line 5 is executed. -/
def oneLine : Db where
  steps := [⟨1, 0x1000, 1, 1⟩]
  statements := [⟨1, 5, 0x1000, none, some 1, none⟩]
  files := [⟨1, "a.c", "a.c"⟩]
  functions := [⟨1, "main", 1⟩]
  exitSignal := none

/-- The breakpoint on it. -/
def oneBreakpoint : BreakpointCache where
  table := { rows := [⟨1, 1, 5⟩], lastId := 1, unique := by decide, given := by decide }
  addbrFailed := false

/-- The request fails and the breakpoint is gone; and the line requested twice is set once,
though the request fails. -/
theorem breakpoints_lost :
    ¬ AllOrNothing oneLine (some ⟨.name "a.c", none⟩) oneBreakpoint ∧
      ¬ AllOrNothing oneLine (some ⟨.name "a.c", some [.line 5, .line 5]⟩) ⟨.empty, false⟩ := by
  constructor
  · intro h
    exact absurd ((h.failed rfl ⟨1, 1, 5⟩).mpr List.mem_cons_self) (by decide)
  · intro h
    exact absurd ((h.failed (by decide) ⟨1, 1, 5⟩).mp (by decide)) (by decide)

end FlightRec
