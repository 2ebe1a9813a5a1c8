/-
# `FlightRec.Record.LineTable` — the import of the line tables

`proc_unit` and `proc_lines` of record/dbginfo.c: units and files outside the acceptable
path are left out, and a row of the line table becomes a row of table `statement` if it
begins a statement, does not end a sequence, and belongs to a file that is not left out.
Table `statement` has no key until `alter_db` creates a unique index on file, line and
address.

Compilers do write rows that agree in all three, so that an import succeeds if no unit
has two (`imports_iff`).
-/
import FlightRec.Record.AbsPath
import FlightRec.Record.Depth

namespace FlightRec.LineTable

open AbsPath

/-! ## Debug information -/

/-- The options of the recorder that select sources. -/
structure Options where
  acceptablePath : List Char
  processUnit : List (List Char)
  ignoreUnit : List (List Char)
  deriving DecidableEq, Repr

/-- A row of a line table, without what is not looked at. -/
structure DwarfLine where
  fileno : Nat
  line : Nat
  address : Nat
  beginStatement : Bool
  endSequence : Bool
  deriving DecidableEq, Repr

/-- A compilation unit; files are numbered from 1. -/
structure CompUnit where
  compDir : List Char
  name : List Char
  filenames : List (List Char)
  lines : List DwarfLine
  numbered : ∀ l ∈ lines, 1 ≤ l.fileno ∧ l.fileno ≤ filenames.length

/-! ## The tables -/

/-- `file` -/
structure FileEntry where
  id : Nat
  name : List Char
  path : List Char
  unitId : Nat
  seq : Nat
  deriving DecidableEq, Repr

/-- `unit`, `file` and `statement`; ids are numbered from 1. -/
structure Tables where
  units : List (List Char × List Char)
  files : List FileEntry
  statements : List LineRow
  deriving DecidableEq, Repr

/-! ## The functions -/

/-- `basename(3)` -/
def basename (path : List Char) : List Char :=
  match ((path.splitOn '/').filter (· ≠ [])).getLast? with
  | some name => name
  | none => if path = [] then ['.'] else ['/']

/-- The leading slash is not wanted in the path. -/
def stripSlash : List Char → List Char
  | '/' :: rest => rest
  | text => text

/-- `strncmp` with the acceptable path, and what is left without it. -/
def accept (acceptablePath path : List Char) : Option (List Char) :=
  if acceptablePath <+: path then some (stripSlash (path.drop acceptablePath.length)) else none

/-- Whether a unit is white-listed or, without a white list, not black-listed. -/
def Options.selects (o : Options) (name : List Char) : Bool :=
  if o.processUnit ≠ [] then basename name ∈ o.processUnit else basename name ∉ o.ignoreUnit

/-- `unitdir`, if the unit is not left out. -/
def unitDir (o : Options) (u : CompUnit) : Option (List Char) := do
  let path ← accept o.acceptablePath u.compDir
  if o.selects u.name then some path else none

/-- The loop over the files: rows of table `file`, and `fileids`, from file `seq` and row
`id` on.  The first result of `get_abs_path` that is `NULL` ends the recorder. -/
def procFiles (o : Options) (unitdir : List Char) (unitId : Nat) :
    Nat → Nat → List (List Char) → Option (List FileEntry × List Nat)
  | _, _, [] => some ([], [])
  | seq, id, filename :: filenames => do
      let abspath ← getAbsPath unitdir filename
      match accept o.acceptablePath abspath with
      | some path =>
          let (rows, fileids) ← procFiles o unitdir unitId (seq + 1) (id + 1) filenames
          return (⟨id, basename filename, path, unitId, seq⟩ :: rows, id :: fileids)
      | none =>
          let (rows, fileids) ← procFiles o unitdir unitId (seq + 1) id filenames
          return (rows, 0 :: fileids)

/-- The loop over the lines: what is inserted for one. -/
def procLine (fileids : List Nat) (l : DwarfLine) : Option LineRow :=
  if !l.beginStatement then none
  else if l.endSequence then none
  else
    let fileId := fileids.getD (l.fileno - 1) 0
    if fileId = 0 then none else some ⟨fileId, l.line, l.address⟩

/-- `proc_unit`, up to `proc_lines`. -/
def procUnit (o : Options) (t : Tables) (u : CompUnit) : Option Tables :=
  match unitDir o u with
  | none => some t
  | some unitdir => do
      let unitId := t.units.length + 1
      let (rows, fileids) ← procFiles o unitdir unitId 1 (t.files.length + 1) u.filenames
      return ⟨t.units ++ [(basename u.name, unitdir)], t.files ++ rows,
        t.statements ++ u.lines.filterMap (procLine fileids)⟩

/-- `alter_db`: the unique index. -/
def alterDb (t : Tables) : Option Tables := if t.statements.Nodup then some t else none

/-- `dbg_srcinfo` with an empty database. -/
def dbgSrcinfo (o : Options) (units : List CompUnit) : Option Tables := do
  alterDb (← units.foldlM (procUnit o) ⟨[], [], []⟩)

/-! ## What is asked of them -/

/-- The units that are not left out, numbered as in table `unit`. -/
def imported (o : Options) (units : List CompUnit) : List CompUnit :=
  units.filter fun u => (unitDir o u).isSome

/-- The path of a file, if the file is not left out. -/
def filePath (o : Options) (unitdir filename : List Char) : Option (List Char) :=
  (getAbsPath unitdir filename).bind (accept o.acceptablePath)

/-- The path that is stored for a file of a unit. -/
def storedPath (o : Options) (u : CompUnit) (filename : List Char) : Option (List Char) :=
  (unitDir o u).bind fun unitdir => filePath o unitdir filename

/-- The row is that of a line that begins a statement, does not end a sequence, and
belongs to a file that has a row. -/
def Wanted (us : List CompUnit) (files : List FileEntry) (row : LineRow) : Prop :=
  ∃ k u l f, us[k]? = some u ∧ l ∈ u.lines ∧ l.beginStatement = true ∧ l.endSequence = false ∧
    f ∈ files ∧ f.unitId = k + 1 ∧ f.seq = l.fileno ∧ row = ⟨f.id, l.line, l.address⟩

/-- The import succeeds with every row that is wanted, once, and nothing else. -/
def Imports (o : Options) (units : List CompUnit) : Prop :=
  ∃ t, dbgSrcinfo o units = some t ∧ t.statements.Nodup ∧
    ∀ row, row ∈ t.statements ↔ Wanted (imported o units) t.files row

/-- A line whose row is wanted. -/
def wantedLine (o : Options) (u : CompUnit) (l : DwarfLine) : Bool :=
  l.beginStatement && !l.endSequence &&
    (storedPath o u (u.filenames.getD (l.fileno - 1) [])).isSome

def DwarfLine.key (l : DwarfLine) : Nat × Nat × Nat := (l.fileno, l.line, l.address)

/-- File, line and address of the rows that are wanted. -/
def wantedKeys (o : Options) (u : CompUnit) : List (Nat × Nat × Nat) :=
  (u.lines.filter (wantedLine o u)).map DwarfLine.key

/-- No relative file name of the unit climbs above what `unitdir` has. -/
def Resolvable (o : Options) (u : CompUnit) : Prop :=
  ∀ unitdir ∈ unitDir o u, ∀ filename ∈ u.filenames, (getAbsPath unitdir filename).isSome

/-! ## The files of a unit -/

section
variable {o : Options} {unitdir filename : List Char} {filenames : List (List Char)}
  {unitId seq id : Nat} {rows : List FileEntry} {fileids : List Nat}

theorem procFiles_cons (h : procFiles o unitdir unitId seq id (filename :: filenames) =
      some (rows, fileids)) :
    (∃ path rows' fileids', filePath o unitdir filename = some path ∧
        procFiles o unitdir unitId (seq + 1) (id + 1) filenames = some (rows', fileids') ∧
        rows = ⟨id, basename filename, path, unitId, seq⟩ :: rows' ∧ fileids = id :: fileids') ∨
      (filePath o unitdir filename = none ∧ ∃ fileids',
        procFiles o unitdir unitId (seq + 1) id filenames = some (rows, fileids') ∧
        fileids = 0 :: fileids') := by
  obtain ⟨abspath, habs, hrest⟩ := Option.bind_eq_some_iff.mp h
  cases hpath : accept o.acceptablePath abspath with
  | some path =>
      simp only [hpath] at hrest
      obtain ⟨⟨rows', fileids'⟩, hfiles, heq⟩ := Option.bind_eq_some_iff.mp hrest
      cases heq
      exact .inl ⟨path, rows', fileids', by rw [filePath, habs]; exact hpath, hfiles, rfl, rfl⟩
  | none =>
      simp only [hpath] at hrest
      obtain ⟨⟨rows', fileids'⟩, hfiles, heq⟩ := Option.bind_eq_some_iff.mp hrest
      cases heq
      exact .inr ⟨by rw [filePath, habs]; exact hpath, fileids', hfiles, rfl⟩

/-- The loop gets to its end if every file name makes a path. -/
theorem procFiles_isSome (filenames : List (List Char)) : ∀ seq id,
    (procFiles o unitdir unitId seq id filenames).isSome ↔
      ∀ filename ∈ filenames, (getAbsPath unitdir filename).isSome := by
  induction filenames with
  | nil =>
      intro seq id
      exact ⟨fun _ _ h => absurd h List.not_mem_nil, fun _ => rfl⟩
  | cons filename filenames ih =>
      intro seq id
      rw [List.forall_mem_cons, procFiles]
      cases habs : getAbsPath unitdir filename with
      | none => simp
      | some abspath =>
          cases hpath : accept o.acceptablePath abspath with
          | some path =>
              rw [← ih (seq + 1) (id + 1)]
              cases procFiles o unitdir unitId (seq + 1) (id + 1) filenames <;> simp [hpath]
          | none =>
              rw [← ih (seq + 1) id]
              cases procFiles o unitdir unitId (seq + 1) id filenames <;> simp [hpath]

theorem procFiles_ids
    (h : procFiles o unitdir unitId seq id filenames = some (rows, fileids)) :
    rows.map (·.id) = List.range' id rows.length := by
  induction filenames generalizing seq id rows fileids with
  | nil =>
      cases h
      rfl
  | cons filename filenames ih =>
      rcases procFiles_cons h with ⟨path, rows', fileids', -, hfiles, rfl, -⟩ |
        ⟨-, fileids', hfiles, -⟩
      · rw [List.map_cons, ih hfiles]
        rfl
      · exact ih hfiles

/-- A file has a row if it is not left out, which is the one in `fileids`. -/
theorem procFiles_files
    (h : procFiles o unitdir unitId seq id filenames = some (rows, fileids)) (f : FileEntry) :
    f ∈ rows ↔ ∃ i filename path, filenames[i]? = some filename ∧
      filePath o unitdir filename = some path ∧
      f = ⟨fileids.getD i 0, basename filename, path, unitId, seq + i⟩ := by
  induction filenames generalizing seq id rows fileids with
  | nil =>
      cases h
      simp
  | cons filename filenames ih =>
      have hshift : ∀ i, seq + 1 + i = seq + (i + 1) := fun i => by omega
      rw [← Nat.or_exists_add_one]
      rcases procFiles_cons h with ⟨path, rows', fileids', hpath, hfiles, rfl, rfl⟩ |
        ⟨hpath, fileids', hfiles, rfl⟩
      · rw [List.mem_cons, ih hfiles]
        simp [hpath, hshift]
      · rw [ih hfiles]
        simp [hpath, hshift]

theorem procFiles_left_out
    (h : procFiles o unitdir unitId seq id filenames = some (rows, fileids)) {i : Nat}
    (hfile : filenames[i]? = some filename) (hpath : filePath o unitdir filename = none) :
    fileids.getD i 0 = 0 := by
  induction filenames generalizing seq id rows fileids i with
  | nil => cases hfile
  | cons first filenames ih =>
      rcases procFiles_cons h with ⟨path, rows', fileids', hfirst, hfiles, -, rfl⟩ |
        ⟨-, fileids', hfiles, rfl⟩
      · cases i with
        | zero =>
            cases hfile
            cases hpath.symm.trans hfirst
        | succ i => exact ih hfiles hfile
      · cases i with
        | zero => rfl
        | succ i => exact ih hfiles hfile

end

/-! ## The lines of a unit -/

theorem procLine_eq_some {fileids : List Nat} {l : DwarfLine} {row : LineRow} :
    procLine fileids l = some row ↔ l.beginStatement = true ∧ l.endSequence = false ∧
      fileids.getD (l.fileno - 1) 0 ≠ 0 ∧
      row = ⟨fileids.getD (l.fileno - 1) 0, l.line, l.address⟩ := by
  unfold procLine
  cases l.beginStatement with
  | false => simp
  | true =>
      cases l.endSequence with
      | true => simp
      | false => simp [eq_comm]

section
variable {o : Options} {u : CompUnit} {unitdir : List Char} {unitId n : Nat}
  {rows : List FileEntry} {fileids : List Nat}
  (hdir : unitDir o u = some unitdir)
  (hfiles : procFiles o unitdir unitId 1 (n + 1) u.filenames = some (rows, fileids))

include hfiles in
theorem fileId_bounds {f : FileEntry} (hf : f ∈ rows) : n < f.id ∧ f.id ≤ n + rows.length := by
  have hmem := List.mem_map_of_mem (f := FileEntry.id) hf
  rw [procFiles_ids hfiles, List.mem_range'_1] at hmem
  omega

include hfiles in
theorem fileId_of_mem {f : FileEntry} (hf : f ∈ rows) :
    f.unitId = unitId ∧ f.id = fileids.getD (f.seq - 1) 0 := by
  obtain ⟨i, filename, path, -, -, rfl⟩ := (procFiles_files hfiles f).mp hf
  exact ⟨rfl, by rw [Nat.add_sub_cancel_left]⟩

include hdir hfiles in
theorem fileId_cases {l : DwarfLine} (hl : l ∈ u.lines) :
    (fileids.getD (l.fileno - 1) 0 = 0 ∧
        (storedPath o u (u.filenames.getD (l.fileno - 1) [])).isSome = false) ∨
      ((storedPath o u (u.filenames.getD (l.fileno - 1) [])).isSome ∧
        ∃ f ∈ rows, f.seq = l.fileno ∧ f.id = fileids.getD (l.fileno - 1) 0) := by
  obtain ⟨hlo, hhi⟩ := u.numbered l hl
  have hlt : l.fileno - 1 < u.filenames.length := by omega
  have hfile := List.getElem?_eq_getElem hlt
  have hname : u.filenames.getD (l.fileno - 1) [] = u.filenames[l.fileno - 1] := by
    rw [List.getD_eq_getElem?_getD, hfile, Option.getD_some]
  rw [storedPath, hdir, Option.bind_some, hname]
  cases hpath : filePath o unitdir u.filenames[l.fileno - 1] with
  | none => exact .inl ⟨procFiles_left_out hfiles hfile hpath, rfl⟩
  | some path =>
      refine .inr ⟨rfl, _, (procFiles_files hfiles _).mpr ⟨_, _, path, hfile, hpath, rfl⟩, ?_, rfl⟩
      simp only
      omega

include hdir hfiles in
theorem procLine_wanted {l : DwarfLine} (hl : l ∈ u.lines) {row : LineRow} :
    procLine fileids l = some row ↔ wantedLine o u l = true ∧
      row = ⟨fileids.getD (l.fileno - 1) 0, l.line, l.address⟩ := by
  rw [procLine_eq_some, wantedLine]
  rcases fileId_cases hdir hfiles hl with ⟨hzero, hnone⟩ | ⟨hsome, f, hf, -, hid⟩
  · rw [hnone, hzero]
    simp
  · have hpos := (fileId_bounds hfiles hf).1
    have hne : fileids.getD (l.fileno - 1) 0 ≠ 0 := by omega
    rw [hsome, Bool.and_true, Bool.and_eq_true, Bool.not_eq_true', and_assoc]
    exact and_congr_right' (and_congr_right' (and_iff_right hne))

include hdir hfiles in
theorem mem_procLines {row : LineRow} :
    row ∈ u.lines.filterMap (procLine fileids) ↔
      ∃ l f, l ∈ u.lines ∧ l.beginStatement = true ∧ l.endSequence = false ∧ f ∈ rows ∧
        f.seq = l.fileno ∧ row = ⟨f.id, l.line, l.address⟩ := by
  rw [List.mem_filterMap]
  constructor
  · rintro ⟨l, hl, hrow⟩
    obtain ⟨hbegin, hend, hne, rfl⟩ := procLine_eq_some.mp hrow
    rcases fileId_cases hdir hfiles hl with ⟨hzero, -⟩ | ⟨-, f, hf, hseq, hid⟩
    · exact absurd hzero hne
    · exact ⟨l, f, hl, hbegin, hend, hf, hseq, by rw [hid]⟩
  · rintro ⟨l, f, hl, hbegin, hend, hf, hseq, rfl⟩
    have hid := (fileId_of_mem hfiles hf).2
    have hpos := (fileId_bounds hfiles hf).1
    rw [hseq] at hid
    exact ⟨l, hl, procLine_eq_some.mpr ⟨hbegin, hend, by omega, by rw [hid]⟩⟩

include hdir hfiles in
/-- Two lines make the same row if they agree in file, line and address. -/
theorem procLine_row_iff {l l' : DwarfLine} (hl : l ∈ u.lines) (hl' : l' ∈ u.lines)
    (hwanted : wantedLine o u l = true) (hwanted' : wantedLine o u l' = true) :
    (⟨fileids.getD (l.fileno - 1) 0, l.line, l.address⟩ : LineRow) =
      ⟨fileids.getD (l'.fileno - 1) 0, l'.line, l'.address⟩ ↔ l.key = l'.key := by
  have hfile : ∀ {l : DwarfLine}, l ∈ u.lines → wantedLine o u l = true →
      ∃ f ∈ rows, f.seq = l.fileno ∧ f.id = fileids.getD (l.fileno - 1) 0 := by
    intro l hl hwanted
    rcases fileId_cases hdir hfiles hl with ⟨-, hnone⟩ | ⟨-, hf⟩
    · rw [wantedLine, hnone, Bool.and_false] at hwanted
      cases hwanted
    · exact hf
  obtain ⟨f, hf, hseq, hid⟩ := hfile hl hwanted
  obtain ⟨f', hf', hseq', hid'⟩ := hfile hl' hwanted'
  have hnodup : (rows.map (·.id)).Nodup := procFiles_ids hfiles ▸ List.nodup_range'
  rw [LineRow.mk.injEq, DwarfLine.key, DwarfLine.key, Prod.mk.injEq, Prod.mk.injEq, ← hid, ← hid']
  refine and_congr_left' ⟨fun h => ?_, fun h => ?_⟩
  · rw [← hseq, ← hseq', List.inj_on_of_nodup_map hnodup hf hf' h]
  · rw [hid, hid', h]

include hdir hfiles in
theorem procLines_nodup_iff :
    (u.lines.filterMap (procLine fileids)).Nodup ↔ (wantedKeys o u).Nodup := by
  rw [wantedKeys, List.Nodup, List.Nodup, List.pairwise_filterMap, List.pairwise_map,
    List.pairwise_filter]
  refine List.Pairwise.iff_of_mem fun {l l'} hl hl' => ?_
  constructor
  · intro h hwanted hwanted' hkey
    exact h _ ((procLine_wanted hdir hfiles hl).mpr ⟨hwanted, rfl⟩) _
      ((procLine_wanted hdir hfiles hl').mpr ⟨hwanted', rfl⟩)
      ((procLine_row_iff hdir hfiles hl hl' hwanted hwanted').mpr hkey)
  · intro h row hrow row' hrow' heq
    obtain ⟨hwanted, rfl⟩ := (procLine_wanted hdir hfiles hl).mp hrow
    obtain ⟨hwanted', rfl⟩ := (procLine_wanted hdir hfiles hl').mp hrow'
    exact h hwanted hwanted' ((procLine_row_iff hdir hfiles hl hl' hwanted hwanted').mp heq)

end

/-! ## The run over the units -/

/-- What the tables hold when the units `us` are imported. -/
structure Follows (o : Options) (us : List CompUnit) (t : Tables) : Prop where
  units : t.units.length = us.length
  ids : t.files.map (·.id) = List.range' 1 t.files.length
  files : ∀ f ∈ t.files, ∃ k u n filename, us[k]? = some u ∧ u.filenames[n]? = some filename ∧
    storedPath o u filename = some f.path ∧ f.unitId = k + 1 ∧ f.seq = n + 1
  stored : ∀ k u n filename path, us[k]? = some u → u.filenames[n]? = some filename →
    storedPath o u filename = some path →
      ∃ f ∈ t.files, f.unitId = k + 1 ∧ f.seq = n + 1 ∧ f.path = path
  statements : ∀ row, row ∈ t.statements ↔ Wanted us t.files row
  nodup : t.statements.Nodup ↔ ∀ u ∈ us, (wantedKeys o u).Nodup

theorem Follows.nil (o : Options) : Follows o [] ⟨[], [], []⟩ := by
  constructor <;> simp [Wanted]

theorem getElem?_concat {us : List CompUnit} {u v : CompUnit} {k : Nat} :
    (us ++ [u])[k]? = some v ↔ us[k]? = some v ∨ (k = us.length ∧ v = u) := by
  rw [List.getElem?_append]
  split
  next hlt =>
    refine (or_iff_left ?_).symm
    rintro ⟨rfl, -⟩
    exact absurd hlt (Nat.lt_irrefl _)
  next hge =>
    rw [List.getElem?_eq_none (Nat.not_lt.mp hge), List.getElem?_singleton]
    have hzero : k - us.length = 0 ↔ k = us.length := by omega
    simp [hzero, eq_comm]

section
variable {o : Options} {us : List CompUnit} {u : CompUnit} {t : Tables} {unitdir : List Char}
  {rows : List FileEntry} {fileids : List Nat}

theorem Follows.file_bounds (h : Follows o us t) {f : FileEntry} (hf : f ∈ t.files) :
    f.unitId ≤ us.length ∧ f.id ≤ t.files.length := by
  obtain ⟨k, u, n, filename, hk, -, -, hunit, -⟩ := h.files f hf
  have hlt := (List.getElem?_eq_some_iff.mp hk).1
  have hmem := List.mem_map_of_mem (f := FileEntry.id) hf
  rw [h.ids, List.mem_range'_1] at hmem
  omega

variable (h : Follows o us t) (hdir : unitDir o u = some unitdir)
  (hfiles : procFiles o unitdir (us.length + 1) 1 (t.files.length + 1) u.filenames =
    some (rows, fileids))

include hdir hfiles in
theorem storedPath_of_mem {f : FileEntry} (hf : f ∈ rows) :
    ∃ n filename, u.filenames[n]? = some filename ∧ storedPath o u filename = some f.path ∧
      f.unitId = us.length + 1 ∧ f.seq = n + 1 := by
  obtain ⟨n, filename, path, hn, hpath, rfl⟩ := (procFiles_files hfiles f).mp hf
  exact ⟨n, filename, hn, by rw [storedPath, hdir]; exact hpath, rfl, Nat.add_comm 1 n⟩

include h hdir hfiles in
theorem Follows.files_append : ∀ f ∈ t.files ++ rows, ∃ k v n filename,
    (us ++ [u])[k]? = some v ∧ v.filenames[n]? = some filename ∧
      storedPath o v filename = some f.path ∧ f.unitId = k + 1 ∧ f.seq = n + 1 := by
  intro f hf
  rcases List.mem_append.mp hf with hf | hf
  · obtain ⟨k, v, n, filename, hk, hn, hpath, hunit, hseq⟩ := h.files f hf
    exact ⟨k, v, n, filename, getElem?_concat.mpr (.inl hk), hn, hpath, hunit, hseq⟩
  · obtain ⟨n, filename, hn, hpath, hunit, hseq⟩ := storedPath_of_mem hdir hfiles hf
    exact ⟨us.length, u, n, filename, getElem?_concat.mpr (.inr ⟨rfl, rfl⟩), hn, hpath, hunit,
      hseq⟩

include h hdir hfiles in
theorem Follows.stored_append (k : Nat) (v : CompUnit) (n : Nat) (filename path : List Char)
    (hk : (us ++ [u])[k]? = some v) (hn : v.filenames[n]? = some filename)
    (hpath : storedPath o v filename = some path) :
    ∃ f ∈ t.files ++ rows, f.unitId = k + 1 ∧ f.seq = n + 1 ∧ f.path = path := by
  rcases getElem?_concat.mp hk with hk | ⟨rfl, rfl⟩
  · obtain ⟨f, hf, heq⟩ := h.stored k v n filename path hk hn hpath
    exact ⟨f, List.mem_append_left _ hf, heq⟩
  · rw [storedPath, hdir, Option.bind_some] at hpath
    have hf := (procFiles_files hfiles _).mpr ⟨n, filename, path, hn, hpath, rfl⟩
    exact ⟨_, List.mem_append_right _ hf, rfl, Nat.add_comm 1 n, rfl⟩

include h hdir hfiles in
theorem Follows.statements_append (row : LineRow) :
    row ∈ t.statements ++ u.lines.filterMap (procLine fileids) ↔
      Wanted (us ++ [u]) (t.files ++ rows) row := by
  rw [List.mem_append, h.statements, mem_procLines hdir hfiles]
  constructor
  · rintro (⟨k, v, l, f, hk, hl, hbegin, hend, hf, hrest⟩ | ⟨l, f, hl, hbegin, hend, hf, hrest⟩)
    · exact ⟨k, v, l, f, getElem?_concat.mpr (.inl hk), hl, hbegin, hend,
        List.mem_append_left _ hf, hrest⟩
    · exact ⟨us.length, u, l, f, getElem?_concat.mpr (.inr ⟨rfl, rfl⟩), hl, hbegin, hend,
        List.mem_append_right _ hf, (fileId_of_mem hfiles hf).1, hrest⟩
  · rintro ⟨k, v, l, f, hk, hl, hbegin, hend, hf, hunit, hrest⟩
    -- The number of the unit tells old rows of table `file` from new ones.
    rcases getElem?_concat.mp hk with hk | ⟨rfl, rfl⟩
    · refine .inl ⟨k, v, l, f, hk, hl, hbegin, hend, ?_, hunit, hrest⟩
      have hlt := (List.getElem?_eq_some_iff.mp hk).1
      refine (List.mem_append.mp hf).resolve_right fun hnew => ?_
      have := (fileId_of_mem hfiles hnew).1
      omega
    · refine .inr ⟨l, f, hl, hbegin, hend, ?_, hrest⟩
      refine (List.mem_append.mp hf).resolve_left fun hold => ?_
      have := (h.file_bounds hold).1
      omega

include h hdir hfiles in
theorem Follows.nodup_append :
    (t.statements ++ u.lines.filterMap (procLine fileids)).Nodup ↔
      ∀ v ∈ us ++ [u], (wantedKeys o v).Nodup := by
  have hdisjoint : t.statements.Disjoint (u.lines.filterMap (procLine fileids)) := by
    intro row hold hnew
    obtain ⟨k, v, l, f, -, -, -, -, hf, -, -, rfl⟩ := (h.statements row).mp hold
    obtain ⟨l', f', -, -, -, hf', -, heq⟩ := (mem_procLines hdir hfiles).mp hnew
    have hold := (h.file_bounds hf).2
    have hnew := (fileId_bounds hfiles hf').1
    have hid : f.id = f'.id := congrArg LineRow.fileId heq
    omega
  rw [List.nodup_append', h.nodup, procLines_nodup_iff hdir hfiles, List.forall_mem_append,
    List.forall_mem_singleton]
  exact and_congr_right' (and_iff_left hdisjoint)

include h hdir hfiles in
theorem Follows.append (entry : List Char × List Char) : Follows o (us ++ [u])
    ⟨t.units ++ [entry], t.files ++ rows,
      t.statements ++ u.lines.filterMap (procLine fileids)⟩ where
  units := by rw [List.length_append, List.length_append, h.units]; rfl
  ids := by
    rw [List.map_append, h.ids, procFiles_ids hfiles, List.length_append, Nat.add_comm _ 1,
      List.range'_append_1]
  files := h.files_append hdir hfiles
  stored := h.stored_append hdir hfiles
  statements := h.statements_append hdir hfiles
  nodup := h.nodup_append hdir hfiles

end

section
variable {o : Options} {units us : List CompUnit} {u : CompUnit} {t t' : Tables}

theorem Follows.procUnit (h : Follows o us t) (hstep : procUnit o t u = some t') :
    Follows o (us ++ imported o [u]) t' := by
  unfold LineTable.procUnit at hstep
  cases hdir : unitDir o u with
  | none =>
      rw [imported, List.filter_singleton, hdir]
      rw [hdir] at hstep
      cases hstep
      exact (List.append_nil us).symm ▸ h
  | some unitdir =>
      rw [hdir, h.units] at hstep
      obtain ⟨⟨rows, fileids⟩, hfiles, heq⟩ := Option.bind_eq_some_iff.mp hstep
      cases heq
      rw [imported, List.filter_singleton, hdir]
      exact h.append hdir hfiles _

theorem follows_of_run (h : Follows o us t)
    (hrun : units.foldlM (LineTable.procUnit o) t = some t') :
    Follows o (us ++ imported o units) t' := by
  induction units generalizing us t with
  | nil =>
      cases hrun
      exact (List.append_nil us).symm ▸ h
  | cons u units ih =>
      obtain ⟨t₁, hstep, hrest⟩ := Option.bind_eq_some_iff.mp hrun
      have hall := ih (h.procUnit hstep) hrest
      rw [List.append_assoc] at hall
      rw [← List.singleton_append, imported, List.filter_append]
      exact hall

theorem procUnit_isSome (o : Options) (t : Tables) (u : CompUnit) :
    (LineTable.procUnit o t u).isSome ↔ Resolvable o u := by
  unfold LineTable.procUnit Resolvable
  cases unitDir o u with
  | none => simp
  | some unitdir =>
      simp only [Option.mem_def, Option.some.injEq, forall_eq']
      rw [← @procFiles_isSome o unitdir (t.units.length + 1) u.filenames 1 (t.files.length + 1)]
      cases procFiles o unitdir (t.units.length + 1) 1 (t.files.length + 1) u.filenames <;> simp

theorem run_isSome (o : Options) (units : List CompUnit) : ∀ t,
    (units.foldlM (LineTable.procUnit o) t).isSome ↔ ∀ u ∈ units, Resolvable o u := by
  induction units with
  | nil =>
      intro t
      exact ⟨fun _ _ hu => absurd hu List.not_mem_nil, fun _ => rfl⟩
  | cons u units ih =>
      intro t
      rw [List.forall_mem_cons, ← procUnit_isSome o t u, List.foldlM_cons]
      cases hstep : LineTable.procUnit o t u with
      | none => simp
      | some t₁ => exact (ih t₁).trans (and_iff_right rfl).symm

end

theorem alterDb_eq_some {t t' : Tables} (h : alterDb t = some t') :
    t.statements.Nodup ∧ t' = t := by
  unfold alterDb at h
  split at h
  next hnodup => exact ⟨hnodup, (Option.some.inj h).symm⟩
  next => cases h

theorem dbgSrcinfo_follows {o : Options} {units : List CompUnit} {t : Tables}
    (h : dbgSrcinfo o units = some t) :
    Follows o (imported o units) t ∧ t.statements.Nodup ∧ ∀ u ∈ units, Resolvable o u := by
  obtain ⟨t₁, hall, halter⟩ := Option.bind_eq_some_iff.mp h
  obtain ⟨hnodup, rfl⟩ := alterDb_eq_some halter
  exact ⟨follows_of_run (.nil o) hall, hnodup, (run_isSome o units _).mp (by rw [hall]; rfl)⟩

/-- **The import succeeds unless a unit has two rows of one file, line and address** -/
theorem imports_iff (o : Options) (units : List CompUnit) :
    Imports o units ↔ (∀ u ∈ units, Resolvable o u) ∧
      ∀ u ∈ imported o units, (wantedKeys o u).Nodup := by
  constructor
  · rintro ⟨t, hrun, -⟩
    obtain ⟨hfollows, hnodup, hresolvable⟩ := dbgSrcinfo_follows hrun
    exact ⟨hresolvable, hfollows.nodup.mp hnodup⟩
  · rintro ⟨hresolvable, hkeys⟩
    have hsome := (run_isSome o units ⟨[], [], []⟩).mpr hresolvable
    obtain ⟨t, hall⟩ := Option.isSome_iff_exists.mp hsome
    have hfollows := follows_of_run (.nil o) hall
    have hnodup := hfollows.nodup.mpr hkeys
    refine ⟨t, ?_, hnodup, hfollows.statements⟩
    rw [dbgSrcinfo, hall]
    exact if_pos hnodup

/-- `/a` without a selection of units. -/
def underA : Options := ⟨['/', 'a'], [], []⟩

/-- Two rows that differ in their columns only. -/
def twice : CompUnit where
  compDir := ['/', 'a']
  name := ['x']
  filenames := [['/', 'a', '/', 'x']]
  lines := [⟨1, 3, 16, true, false⟩, ⟨1, 3, 16, true, false⟩]
  numbered := by decide

/-- The import of one unit with one line that is written twice fails. -/
theorem imports_twice : dbgSrcinfo underA [twice] = none ∧ ¬ Imports underA [twice] := by
  have hfails : dbgSrcinfo underA [twice] = none := by decide
  refine ⟨hfails, ?_⟩
  rintro ⟨t, hrun, -⟩
  cases hfails.symm.trans hrun

end FlightRec.LineTable
