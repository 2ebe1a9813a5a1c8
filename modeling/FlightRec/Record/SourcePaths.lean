/-
# `FlightRec.Record.SourcePaths` — which sources are recorded

A source file should be recorded if it is the acceptable path or below it, and its path
in the recording should be what is left, so that Examine finds the file by putting the
two together.

The recorder compares texts, and asks the compilation directory of the unit as well:

    acceptable   directory   file       recorded as   Examine opens
    /a           /a          /a/x       x             /a/x
    /a           /a          /ab/x      b/x           /a/b/x
    /a/          /a/         /a/x       x             /a//x
    /a           /b          /a/x
    /a           /ab         /a/x       x             /a/x

(`acceptsRight_iff`).
-/
import FlightRec.Record.LineTable

namespace FlightRec.SourcePaths

open AbsPath LineTable Paths

/-! ## Paths -/

/-- What is neither nothing nor a step of its own. -/
structure ProperName (p : Piece) : Prop where
  nonempty : p ≠ []
  notDot : p ≠ ['.']
  notDots : p ≠ ['.', '.']
  slashless : '/' ∉ p

/-- An absolute path that is normalised. -/
structure NormalPath where
  names : List Piece
  proper : ∀ p ∈ names, ProperName p

def NormalPath.text (path : NormalPath) : List Char := pathTo path.names

/-- The options as `main` leaves them: the acceptable path is absolute. -/
structure MainOptions where
  path : AbsoluteDir
  processUnit : List (List Char)
  ignoreUnit : List (List Char)
  deriving DecidableEq, Repr

def MainOptions.options (m : MainOptions) : Options := ⟨m.path.text, m.processUnit, m.ignoreUnit⟩

/-- `fullpath` of `process_stack`: `"%s/%s"` -/
def fullpath (sourcePath path : List Char) : List Char := sourcePath ++ '/' :: path

/-! ## What is asked of them -/

/-- The file is the directory, or below it. -/
def AtOrBelow (dir : AbsoluteDir) (file : NormalPath) : Prop :=
  ∃ names, resolve [] dir.pieces = some names ∧ names <+: file.names

/-- File `n` of unit `k` has a row, and its lines have theirs. -/
def HasRows (t : Tables) (k n : Nat) (lines : List DwarfLine) : Prop :=
  ∃ f ∈ t.files, f.unitId = k + 1 ∧ f.seq = n + 1 ∧
    ∀ l ∈ lines, l.beginStatement = true → l.endSequence = false → l.fileno = n + 1 →
      ⟨f.id, l.line, l.address⟩ ∈ t.statements

/-- In a unit that the options select, the file and its lines are recorded if the file is
at or below the acceptable path, and the path that is stored leads back to it. -/
def AcceptsRight (m : MainOptions) (u : CompUnit) (file : NormalPath) : Prop :=
  let asked := m.options.selects u.name = true ∧ AtOrBelow m.path file
  ((storedPath m.options u file.text).isSome ↔ asked) ∧
    (∀ path, storedPath m.options u file.text = some path → fullpath m.path.text path = file.text) ∧
    ∀ units t k n, dbgSrcinfo m.options units = some t → (imported m.options units)[k]? = some u →
      u.filenames[n]? = some file.text → (HasRows t k n u.lines ↔ asked)

/-- The acceptable path is a prefix of the directory and, with a slash, of the file; or the
file is outside, and it is no prefix of one of the two. -/
def PrefixesAgree (m : MainOptions) (u : CompUnit) (file : NormalPath) : Prop :=
  (m.path.text <+: u.compDir ∧ m.path.text ++ ['/'] <+: file.text) ∨
    (¬ AtOrBelow m.path file ∧ ¬ (m.path.text <+: u.compDir ∧ m.path.text <+: file.text))

/-! ## Names -/

theorem resolve_proper {names : List Piece} (h : ∀ p ∈ names, ProperName p) (dir : List Piece) :
    resolve dir names = some (dir ++ names) := by
  induction names generalizing dir with
  | nil => exact congrArg some (List.append_nil dir).symm
  | cons p names ih =>
      have hp := h p List.mem_cons_self
      have hwalk : walk dir p = some (dir ++ [p]) := by
        rw [walk, if_neg fun hstay => hstay.elim hp.nonempty hp.notDot, if_neg hp.notDots]
      rw [resolve_cons, hwalk, Option.bind_some, ih fun q hq => h q (List.mem_cons_of_mem p hq),
        List.append_assoc, List.singleton_append]

section
variable {m : MainOptions} {u : CompUnit} {file : NormalPath}

theorem text_absolute (file : NormalPath) : file.text.head? = some '/' := by
  unfold NormalPath.text pathTo
  split
  next => rfl
  next hne =>
    obtain ⟨p, names, hnames⟩ := List.exists_cons_of_ne_nil hne
    rw [hnames]
    rfl

theorem atOrBelow_of_slash {dir : AbsoluteDir} (h : dir.text ++ ['/'] <+: file.text) :
    AtOrBelow dir file := by
  obtain ⟨rest, hrest⟩ := h
  have hne : file.names ≠ [] := by
    intro hnil
    have hlen := congrArg List.length hrest
    rw [NormalPath.text, hnil] at hlen
    simp only [AbsoluteDir.text, List.length_append, List.length_cons, pathTo, if_true,
      List.length_nil] at hlen
    omega
  have hnames : dir.pieces ++ rest.splitOn '/' = file.names := by
    have hslashless : Slashless file.names := fun p hp => (file.proper p hp).slashless
    refine render_injective ((slashless_splitOn _).append (slashless_splitOn _)) hslashless ?_
    rw [render_append, AbsoluteDir.pieces, render_splitOn, render_splitOn]
    rw [NormalPath.text, pathTo, if_neg hne, List.append_assoc] at hrest
    exact hrest
  refine ⟨dir.pieces, ?_, rest.splitOn '/', hnames⟩
  exact resolve_proper (fun p hp => file.proper p (hnames ▸ List.mem_append_left _ hp)) []

/-! ## What is stored -/

theorem accept_eq_some {acceptable path rest : List Char} :
    accept acceptable path = some rest ↔
      acceptable <+: path ∧ rest = stripSlash (path.drop acceptable.length) := by
  unfold accept
  split
  next h => exact ⟨fun heq => ⟨h, (Option.some.inj heq).symm⟩, fun heq => congrArg some heq.2.symm⟩
  next h =>
    constructor
    · intro heq
      cases heq
    · exact fun heq => absurd heq.1 h

theorem unitDir_isSome : (unitDir m.options u).isSome ↔
    m.path.text <+: u.compDir ∧ m.options.selects u.name = true := by
  rw [Option.isSome_iff_exists]
  constructor
  · rintro ⟨unitdir, hdir⟩
    obtain ⟨path, haccept, hselects⟩ := Option.bind_eq_some_iff.mp hdir
    split at hselects
    next h => exact ⟨(accept_eq_some.mp haccept).1, h⟩
    next => cases hselects
  · rintro ⟨hstart, hselects⟩
    refine ⟨_, Option.bind_eq_some_iff.mpr ⟨_, accept_eq_some.mpr ⟨hstart, rfl⟩, if_pos hselects⟩⟩

theorem storedPath_eq_some {path : List Char} : storedPath m.options u file.text = some path ↔
    m.options.selects u.name = true ∧ m.path.text <+: u.compDir ∧ m.path.text <+: file.text ∧
      path = stripSlash (file.text.drop m.path.text.length) := by
  have habs : ∀ unitdir, filePath m.options unitdir file.text = accept m.path.text file.text := by
    intro unitdir
    rw [filePath, getAbsPath, if_pos (text_absolute file)]
    rfl
  rw [storedPath, Option.bind_eq_some_iff]
  simp only [habs, accept_eq_some]
  rw [exists_and_right, ← Option.isSome_iff_exists, unitDir_isSome]
  constructor
  · rintro ⟨⟨hdir, hselects⟩, hfile⟩
    exact ⟨hselects, hdir, hfile⟩
  · rintro ⟨hselects, hdir, hfile⟩
    exact ⟨⟨hdir, hselects⟩, hfile⟩

theorem storedPath_isSome : (storedPath m.options u file.text).isSome ↔
    m.options.selects u.name = true ∧ m.path.text <+: u.compDir ∧ m.path.text <+: file.text := by
  rw [Option.isSome_iff_exists]
  constructor
  · rintro ⟨path, hpath⟩
    obtain ⟨hselects, hdir, hfile, -⟩ := storedPath_eq_some.mp hpath
    exact ⟨hselects, hdir, hfile⟩
  · rintro ⟨hselects, hdir, hfile⟩
    exact ⟨_, storedPath_eq_some.mpr ⟨hselects, hdir, hfile, rfl⟩⟩

theorem fullpath_stripSlash_iff {path text : List Char} (h : path <+: text) :
    fullpath path (stripSlash (text.drop path.length)) = text ↔ path ++ ['/'] <+: text := by
  obtain ⟨rest, rfl⟩ := h
  rw [List.drop_left, fullpath, List.prefix_append_right_inj, List.append_cancel_left_eq]
  constructor
  · intro heq
    exact ⟨stripSlash rest, heq⟩
  · rintro ⟨below, rfl⟩
    rfl

theorem hasRows_iff {o : Options} {units : List CompUnit} {t : Tables} {k n : Nat}
    {filename : List Char} (hrun : dbgSrcinfo o units = some t)
    (hk : (imported o units)[k]? = some u) (hn : u.filenames[n]? = some filename) :
    HasRows t k n u.lines ↔ (storedPath o u filename).isSome := by
  have hfollows := (dbgSrcinfo_follows hrun).1
  constructor
  · rintro ⟨f, hf, hunit, hseq, -⟩
    obtain ⟨k', u', n', filename', hk', hn', hpath, hunit', hseq'⟩ := hfollows.files f hf
    obtain rfl : k = k' := by omega
    obtain rfl : n = n' := by omega
    cases hk.symm.trans hk'
    cases hn.symm.trans hn'
    rw [hpath]
    rfl
  · intro hsome
    obtain ⟨path, hpath⟩ := Option.isSome_iff_exists.mp hsome
    obtain ⟨f, hf, hunit, hseq, -⟩ := hfollows.stored k u n filename path hk hn hpath
    refine ⟨f, hf, hunit, hseq, fun l hl hbegin hend hfile => ?_⟩
    exact (hfollows.statements _).mpr ⟨k, u, l, f, hk, hl, hbegin, hend, hf, hunit,
      hseq.trans hfile.symm, rfl⟩

end

/-- **A file is accepted right where the prefixes agree with the directories** -/
theorem acceptsRight_iff (m : MainOptions) (u : CompUnit) (file : NormalPath) :
    AcceptsRight m u file ↔ (m.options.selects u.name = true → PrefixesAgree m u file) := by
  constructor
  · rintro ⟨hasked, hfull, -⟩ hselects
    rw [storedPath_isSome] at hasked
    by_cases hboth : m.path.text <+: u.compDir ∧ m.path.text <+: file.text
    · refine .inl ⟨hboth.1, (fullpath_stripSlash_iff hboth.2).mp (hfull _ ?_)⟩
      exact storedPath_eq_some.mpr ⟨hselects, hboth.1, hboth.2, rfl⟩
    · exact .inr ⟨fun hbelow => hboth (hasked.mpr ⟨hselects, hbelow⟩).2, hboth⟩
  · intro hagree
    have hasked : (storedPath m.options u file.text).isSome ↔
        m.options.selects u.name = true ∧ AtOrBelow m.path file := by
      rw [storedPath_isSome]
      refine and_congr_right fun hselects => ?_
      rcases hagree hselects with ⟨hdir, hfile⟩ | ⟨houtside, hboth⟩
      · exact iff_of_true ⟨hdir, (List.prefix_append _ _).trans hfile⟩ (atOrBelow_of_slash hfile)
      · exact iff_of_false hboth houtside
    refine ⟨hasked, fun path hpath => ?_, fun units t k n hrun hk hn => ?_⟩
    · obtain ⟨hselects, hdir, hfile, rfl⟩ := storedPath_eq_some.mp hpath
      rcases hagree hselects with ⟨-, hslash⟩ | ⟨-, hboth⟩
      · exact (fullpath_stripSlash_iff hfile).mpr hslash
      · exact absurd ⟨hdir, hfile⟩ hboth
    · exact (hasRows_iff hrun hk hn).trans hasked

/-- `/a`, without a selection of units. -/
def underA : MainOptions := ⟨⟨['a']⟩, [], []⟩

/-- A unit that is compiled in a directory. -/
def unitIn (compDir : List Char) : CompUnit where
  compDir := compDir
  name := ['x']
  filenames := []
  lines := []
  numbered := by decide

theorem proper_of_letters {names : List Piece} (h : ∀ p ∈ names, p ≠ [] ∧ '/' ∉ p ∧ '.' ∉ p) :
    ∀ p ∈ names, ProperName p := by
  intro p hp
  obtain ⟨hne, hslash, hdot⟩ := h p hp
  refine ⟨hne, ?_, ?_, hslash⟩
  · rintro rfl
    exact hdot List.mem_cons_self
  · rintro rfl
    exact hdot List.mem_cons_self

/-- `/ab/x` -/
def sibling : NormalPath := ⟨[['a', 'b'], ['x']], proper_of_letters (by decide)⟩

/-- `/a/x` -/
def below : NormalPath := ⟨[['a'], ['x']], proper_of_letters (by decide)⟩

/-- A file of a sibling directory is recorded, as one that is not there, and a file below
the path is not, if its unit is compiled elsewhere. -/
theorem not_acceptsRight :
    (storedPath underA.options (unitIn ['/', 'a']) sibling.text = some "b/x".toList ∧
        ¬ AtOrBelow underA.path sibling ∧
        fullpath underA.path.text "b/x".toList ≠ sibling.text ∧
        ¬ AcceptsRight underA (unitIn ['/', 'a']) sibling) ∧
      storedPath underA.options (unitIn ['/', 'b']) below.text = none ∧
        AtOrBelow underA.path below ∧ ¬ AcceptsRight underA (unitIn ['/', 'b']) below := by
  have hsibling : storedPath underA.options (unitIn ['/', 'a']) sibling.text =
      some "b/x".toList := by decide
  have hbelow : storedPath underA.options (unitIn ['/', 'b']) below.text = none := by decide
  have houtside : ¬ AtOrBelow underA.path sibling := by
    rintro ⟨names, hnames, hstart⟩
    cases (show resolve [] underA.path.pieces = some [['a']] by decide).symm.trans hnames
    exact absurd hstart (by decide)
  have hinside : AtOrBelow underA.path below := ⟨[['a']], by decide, by decide⟩
  refine ⟨⟨hsibling, houtside, by decide, fun h => ?_⟩, hbelow, hinside, fun h => ?_⟩
  · exact houtside (h.1.mp (by rw [hsibling]; rfl)).2
  · have hsome := h.1.mpr ⟨by decide, hinside⟩
    rw [hbelow] at hsome
    cases hsome

end FlightRec.SourcePaths
