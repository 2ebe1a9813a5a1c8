/-
# `FlightRec.Record.AbsPath` — relative paths made absolute

`get_abs_path` of record/record.c takes the pieces of a relative path one by one, and
edits the text of the directory: `.` leaves it, `..` cuts it at the last slash, and
everything else is appended with a slash.

So an empty piece adds a slash, pieces of the directory are left as they are, and the
root is a text that has a piece too many (`normalises_iff`):

    directory   path     result      normalised
    /a          b/../c   /a/c        /a/c
    /a          b//c     /a/b//c     /a/b/c
    /           b        //b         /b
    /a          ..                   /
    /a          ../      /           /
-/
import FlightRec.Lib.Paths
import Mathlib.Data.List.TakeWhile

namespace FlightRec.AbsPath

open Paths

/-! ## The function -/

/-- `strrchr`, and the terminator in place of the slash; there may be none. -/
def cutLast (abspath : List Char) : Option (List Char) :=
  match abspath.reverse.dropWhile (· ≠ '/') with
  | [] => none
  | _ :: before => some before.reverse

/-- What the loop does with `dirname`. -/
def enter (abspath dirname : List Char) : Option (List Char) :=
  if dirname = ['.'] then some abspath
  else if dirname = ['.', '.'] then cutLast abspath
  else some (abspath ++ '/' :: dirname)

/-- The loop; `strchr` finds the end of `dirname`, or nothing in the last round. -/
def absPathLoop (path abspath : List Char) : Option (List Char) :=
  let dirname := path.takeWhile (· ≠ '/')
  match _h : path.dropWhile (· ≠ '/') with
  | [] => enter abspath dirname
  | _ :: rest => do absPathLoop rest (← enter abspath dirname)
termination_by path.length
decreasing_by
  have hle := (List.dropWhile_suffix (l := path) (· ≠ '/')).length_le
  rw [‹path.dropWhile _ = _›] at hle
  exact hle

/-- `get_abs_path`; `none` is `NULL`. -/
def getAbsPath (curdir path : List Char) : Option (List Char) :=
  if path.head? = some '/' then some path else absPathLoop path curdir

/-! ## What is asked of it -/

/-- An absolute path, as what is behind its first slash. -/
structure AbsoluteDir where
  below : List Char
  deriving DecidableEq, Repr

def AbsoluteDir.text (dir : AbsoluteDir) : List Char := '/' :: dir.below

def AbsoluteDir.pieces (dir : AbsoluteDir) : List Piece := dir.below.splitOn '/'

structure RelativePath where
  text : List Char
  relative : text.head? ≠ some '/'

def RelativePath.pieces (path : RelativePath) : List Piece := path.text.splitOn '/'

/-- If the path does not climb above the root, the result is the path of where it leads. -/
def Normalises (dir : AbsoluteDir) (path : RelativePath) : Prop :=
  ∀ target, resolve [] (dir.pieces ++ path.pieces) = some target →
    getAbsPath dir.text path.text = some (pathTo target)

/-- The directory has no `.` and no `..`. -/
def Undotted (pieces : List Piece) : Prop := ['.'] ∉ pieces ∧ ['.', '.'] ∉ pieces

instance (pieces : List Piece) : Decidable (Undotted pieces) :=
  inferInstanceAs (Decidable (_ ∧ _))

/-- Below the root no piece may be empty; for the root itself one has to be, at a place
that is the root. -/
def Tidy (dir : AbsoluteDir) (path : RelativePath) (target : List Piece) : Prop :=
  let pieces := dir.pieces ++ path.pieces
  Undotted dir.pieces ∧
    if target = [] then pieces.count [] = 1 ∧ resolve [] (pieces.takeWhile (· ≠ [])) = some []
    else pieces.count [] = 0

/-! ## The loop over the pieces -/

theorem dropWhile_slash {p : Piece} (hp : '/' ∉ p) (rest : List Char) :
    (p ++ '/' :: rest).dropWhile (· ≠ '/') = '/' :: rest := by
  have hall : ∀ c ∈ p, decide (c ≠ '/') = true := fun c hc => decide_eq_true fun h => hp (h ▸ hc)
  rw [List.dropWhile_append_of_pos hall]
  rfl

theorem takeWhile_slash (path : List Char) : '/' ∉ path.takeWhile (· ≠ '/') ∧
    path.takeWhile (· ≠ '/') ++ path.dropWhile (· ≠ '/') = path := by
  refine ⟨fun h => ?_, List.takeWhile_append_dropWhile⟩
  have hne := List.mem_takeWhile_imp h
  exact of_decide_eq_true hne rfl

theorem cutLast_append (text : List Char) {p : Piece} (hp : '/' ∉ p) :
    cutLast (text ++ '/' :: p) = some text := by
  have hdrop : (text ++ '/' :: p).reverse.dropWhile (· ≠ '/') = '/' :: text.reverse := by
    rw [List.reverse_append, List.reverse_cons, List.append_assoc, List.singleton_append]
    exact dropWhile_slash (fun h => hp (List.mem_reverse.mp h)) _
  rw [cutLast, hdrop]
  exact congrArg some (List.reverse_reverse text)

theorem absPathLoop_eq (path abspath : List Char) :
    absPathLoop path abspath = (path.splitOn '/').foldlM enter abspath := by
  fun_induction absPathLoop path abspath with
  | case1 path abspath dirname h =>
      obtain ⟨hname, hpath⟩ := takeWhile_slash path
      rw [h, List.append_nil] at hpath
      rw [← hpath, List.splitOn_eq_singleton hname, List.foldlM_cons]
      cases enter abspath dirname <;> rfl
  | case2 path abspath dirname slash rest h ih =>
      obtain ⟨hname, hpath⟩ := takeWhile_slash path
      have hslash : slash = '/' := by
        have hnot := List.head_dropWhile_not (· ≠ '/') (l := path) (by rw [h]; simp)
        simp only [h, List.head_cons] at hnot
        exact of_not_not (of_decide_eq_false hnot)
      rw [h, hslash] at hpath
      conv_rhs => rw [← hpath, List.splitOn_append_cons_self_of_not_mem hname, List.foldlM_cons]
      exact congrArg _ (funext ih)

/-- What the loop does to the pieces of the text that it edits. -/
def push (dir : List Piece) (piece : Piece) : Option (List Piece) :=
  if piece = ['.'] then some dir
  else if piece = ['.', '.'] then (if dir = [] then none else some dir.dropLast)
  else some (dir ++ [piece])

section
variable {dir dir' target : List Piece} {pieces : List Piece} {piece : Piece}

theorem push_slashless (hdir : Slashless dir) (hpiece : '/' ∉ piece)
    (h : push dir piece = some dir') : Slashless dir' := by
  unfold push at h
  split at h
  next => exact Option.some.inj h ▸ hdir
  next =>
    split at h
    next =>
      split at h
      next => cases h
      next => exact Option.some.inj h ▸ hdir.mono (List.dropLast_subset dir)
    next =>
      exact Option.some.inj h ▸ hdir.append fun p hp => List.mem_singleton.mp hp ▸ hpiece

theorem enter_render (hdir : Slashless dir) :
    enter (render dir) piece = (push dir piece).map render := by
  unfold enter push
  split
  next => rfl
  next =>
    split
    next =>
      split
      next hempty =>
        rw [hempty]
        rfl
      next hne =>
        have hlast := List.dropLast_append_getLast hne
        rw [← hlast, render_append, List.dropLast_concat, render_singleton]
        exact cutLast_append _ (hdir _ (List.getLast_mem hne))
    next => rw [Option.map_some, render_append, render_singleton]

theorem foldlM_enter (hpieces : Slashless pieces) (hdir : Slashless dir) :
    pieces.foldlM enter (render dir) = (pieces.foldlM push dir).map render := by
  induction pieces generalizing dir with
  | nil => rfl
  | cons piece pieces ih =>
      rw [List.foldlM_cons, List.foldlM_cons, enter_render hdir]
      cases hpush : push dir piece with
      | none => rfl
      | some dir' =>
          have hpiece := hpieces piece List.mem_cons_self
          exact ih (hpieces.mono (List.subset_cons_self _ _)) (push_slashless hdir hpiece hpush)

/-! ## Texts and directories -/

theorem foldlM_push_slashless (hpieces : Slashless pieces) (hdir : Slashless dir)
    (h : pieces.foldlM push dir = some dir') : Slashless dir' := by
  induction pieces generalizing dir with
  | nil => exact Option.some.inj h ▸ hdir
  | cons piece pieces ih =>
      obtain ⟨next, hpush, hrest⟩ := Option.bind_eq_some_iff.mp h
      have hpiece := hpieces piece List.mem_cons_self
      exact ih (hpieces.mono (List.subset_cons_self _ _)) (push_slashless hdir hpiece hpush) hrest

theorem foldlM_push_subset (h : pieces.foldlM push dir = some dir') : dir' ⊆ dir ++ pieces := by
  induction pieces generalizing dir with
  | nil => exact Option.some.inj h ▸ List.subset_append_left _ _
  | cons piece pieces ih =>
      obtain ⟨next, hpush, hrest⟩ := Option.bind_eq_some_iff.mp h
      have hnext : next ⊆ dir ++ [piece] := by
        unfold push at hpush
        split at hpush
        next => exact Option.some.inj hpush ▸ List.subset_append_left _ _
        next =>
          split at hpush
          next =>
            split at hpush
            next => cases hpush
            next =>
              cases hpush
              exact List.Subset.trans (List.dropLast_subset dir) (List.subset_append_left _ _)
          next => exact Option.some.inj hpush ▸ List.Subset.refl _
      intro p hp
      have := ih hrest hp
      rcases List.mem_append.mp this with hp | hp
      · rcases List.mem_append.mp (hnext hp) with hp | hp
        · exact List.mem_append_left _ hp
        · exact List.mem_append_right _ (List.mem_singleton.mp hp ▸ List.mem_cons_self)
      · exact List.mem_append_right _ (List.mem_cons_of_mem _ hp)

theorem push_eq_walk (hpiece : piece ≠ []) : push dir piece = walk dir piece := by
  unfold push walk
  by_cases hdot : piece = ['.']
  · rw [if_pos hdot, if_pos (.inr hdot)]
  · have hgo : ¬ (piece = [] ∨ piece = ['.']) := fun h => h.elim hpiece hdot
    rw [if_neg hdot, if_neg hgo]

theorem foldlM_push_eq (hpieces : [] ∉ pieces) : pieces.foldlM push dir = resolve dir pieces := by
  induction pieces generalizing dir with
  | nil => rfl
  | cons piece pieces ih =>
      rw [List.mem_cons, not_or] at hpieces
      rw [resolve, List.foldlM_cons, List.foldlM_cons, push_eq_walk (Ne.symm hpieces.1)]
      exact congrArg _ (funext fun next => ih hpieces.2)

theorem foldlM_push_undotted (hpieces : Undotted pieces) :
    pieces.foldlM push dir = some (dir ++ pieces) := by
  induction pieces generalizing dir with
  | nil => rw [List.append_nil, List.foldlM_nil]; rfl
  | cons piece pieces ih =>
      obtain ⟨hdot, hdots⟩ := hpieces
      rw [List.mem_cons, not_or] at hdot hdots
      have hpush : push dir piece = some (dir ++ [piece]) := by
        rw [push, if_neg (Ne.symm hdot.1), if_neg (Ne.symm hdots.1)]
      rw [List.foldlM_cons, hpush]
      refine (ih ⟨hdot.2, hdots.2⟩).trans ?_
      rw [List.append_assoc]
      rfl

/-- The text keeps up with the directory: it loses a piece only where there is one. -/
theorem push_walk {stack stack' : List Piece} (hwalk : walk stack piece = some stack')
    (hle : stack.length ≤ dir.length) :
    ∃ dir', push dir piece = some dir' ∧
      dir'.length + stack.length = stack'.length + dir.length + [piece].count [] := by
  unfold walk at hwalk
  split at hwalk
  next hstay =>
    cases hwalk
    rcases hstay with rfl | rfl
    · refine ⟨dir ++ [[]], rfl, ?_⟩
      rw [List.length_append, List.length_singleton, List.count_singleton_self]
      omega
    · exact ⟨dir, rfl, Nat.add_comm _ _⟩
  next hgo =>
    rw [not_or] at hgo
    have hcount : [piece].count [] = 0 := List.count_eq_zero.mpr fun h =>
      hgo.1 (List.mem_singleton.mp h).symm
    rw [push, if_neg hgo.2, hcount]
    split at hwalk
    next hup =>
      split at hwalk
      next => cases hwalk
      next hne =>
        cases hwalk
        have hpos := List.length_pos_iff.mpr hne
        rw [if_pos hup, if_neg (List.length_pos_iff.mp (by omega))]
        refine ⟨_, rfl, ?_⟩
        rw [List.length_dropLast, List.length_dropLast]
        omega
    next hdown =>
      cases hwalk
      rw [if_neg hdown]
      refine ⟨_, rfl, ?_⟩
      rw [List.length_append, List.length_append, List.length_singleton]
      omega

theorem foldlM_push_length {stack : List Piece} (h : resolve stack pieces = some target)
    (hle : stack.length ≤ dir.length) :
    ∃ dir', pieces.foldlM push dir = some dir' ∧
      dir'.length + stack.length = target.length + dir.length + pieces.count [] := by
  induction pieces generalizing stack dir with
  | nil =>
      cases h
      exact ⟨dir, rfl, Nat.add_comm _ _⟩
  | cons piece pieces ih =>
      rw [resolve_cons] at h
      obtain ⟨next, hwalk, hrest⟩ := Option.bind_eq_some_iff.mp h
      obtain ⟨dir₁, hpush, hone⟩ := push_walk hwalk hle
      obtain ⟨dir', hrun, hmany⟩ := ih hrest (show next.length ≤ dir₁.length by omega)
      refine ⟨dir', ?_, ?_⟩
      · rw [List.foldlM_cons, hpush]
        exact hrun
      · rw [← List.singleton_append, List.count_append]
        omega

theorem push_head (hpush : push dir piece = some dir') (hne : dir ≠ []) (hne' : dir' ≠ []) :
    dir'.head? = dir.head? := by
  obtain ⟨first, rest, rfl⟩ := List.exists_cons_of_ne_nil hne
  unfold push at hpush
  split at hpush
  next => exact Option.some.inj hpush ▸ rfl
  next =>
    split at hpush
    next =>
      cases hpush
      cases rest with
      | nil => exact absurd rfl hne'
      | cons => rfl
    next => exact Option.some.inj hpush ▸ rfl

theorem foldlM_push_head {stack : List Piece} (h : resolve stack pieces = some target)
    (hlt : stack.length < dir.length) (hrun : pieces.foldlM push dir = some dir') :
    dir'.head? = dir.head? := by
  induction pieces generalizing stack dir with
  | nil => exact Option.some.inj hrun ▸ rfl
  | cons piece pieces ih =>
      rw [resolve_cons] at h
      obtain ⟨next, hwalk, hrest⟩ := Option.bind_eq_some_iff.mp h
      obtain ⟨dir₁, hpush, hone⟩ := push_walk hwalk (Nat.le_of_lt hlt)
      rw [List.foldlM_cons, hpush] at hrun
      have hlt₁ : next.length < dir₁.length := by omega
      have hhead := push_head hpush (List.length_pos_iff.mp (by omega))
        (List.length_pos_iff.mp (by omega))
      exact (ih hrest hlt₁ hrun).trans hhead

end

theorem getAbsPath_eq (dir : AbsoluteDir) (path : RelativePath) :
    getAbsPath dir.text path.text = (path.pieces.foldlM push dir.pieces).map render := by
  rw [getAbsPath, if_neg path.relative, absPathLoop_eq, AbsoluteDir.text, ← render_splitOn]
  exact foldlM_enter (slashless_splitOn _) (slashless_splitOn _)

/-! ## When the result is right -/

section
variable {dir : AbsoluteDir} {path : RelativePath} {target : List Piece}

theorem getAbsPath_pieces (h : resolve [] (dir.pieces ++ path.pieces) = some target) :
    ∃ result, path.pieces.foldlM push dir.pieces = some result ∧
      getAbsPath dir.text path.text = some (render result) ∧ Slashless result ∧
      result.length = target.length + dir.pieces.count ['.'] + 2 * dir.pieces.count ['.', '.'] +
        (dir.pieces ++ path.pieces).count [] := by
  rw [resolve_append] at h
  obtain ⟨start, hdir, hpath⟩ := Option.bind_eq_some_iff.mp h
  have hdeep := length_resolve hdir
  rw [List.length_nil] at hdeep
  obtain ⟨result, hrun, hlength⟩ :=
    foldlM_push_length hpath (show start.length ≤ dir.pieces.length by omega)
  refine ⟨result, hrun, by rw [getAbsPath_eq, hrun]; rfl, ?_, ?_⟩
  · exact foldlM_push_slashless (slashless_splitOn _) (slashless_splitOn _) hrun
  · rw [List.count_append]
    omega

theorem undotted_iff {pieces : List Piece} :
    Undotted pieces ↔ pieces.count ['.'] = 0 ∧ pieces.count ['.', '.'] = 0 :=
  and_congr List.count_eq_zero.symm List.count_eq_zero.symm

theorem run_undotted (hdots : Undotted dir.pieces) :
    path.pieces.foldlM push dir.pieces = (dir.pieces ++ path.pieces).foldlM push [] := by
  rw [List.foldlM_append, foldlM_push_undotted hdots]
  rfl

/-- Below the root nothing may be superfluous. -/
theorem result_below_iff (h : resolve [] (dir.pieces ++ path.pieces) = some target) :
    path.pieces.foldlM push dir.pieces = some target ↔
      Undotted dir.pieces ∧ (dir.pieces ++ path.pieces).count [] = 0 := by
  constructor
  · intro hright
    obtain ⟨result, hrun, -, -, hlength⟩ := getAbsPath_pieces h
    cases hrun.symm.trans hright
    rw [undotted_iff]
    omega
  · rintro ⟨hdots, hempty⟩
    rw [run_undotted hdots, foldlM_push_eq (List.count_eq_zero.mp hempty), h]

theorem resolve_before_empty {before behind : List Piece} (hbefore : [] ∉ before)
    (h : resolve [] (before ++ [] :: behind) = some [])
    (hrun : (before ++ [] :: behind).foldlM push [] = some [[]]) :
    resolve [] before = some [] := by
  rw [List.foldlM_append] at hrun
  obtain ⟨top, hpush, hrest⟩ := Option.bind_eq_some_iff.mp hrun
  have htop : resolve [] before = some top := (foldlM_push_eq hbefore).symm.trans hpush
  rw [resolve_append, htop] at h
  have hbehind : behind.foldlM push (top ++ [[]]) = some [[]] := hrest
  have hlt : top.length < (top ++ [[]]).length := by
    rw [List.length_append]
    exact Nat.lt_succ_self _
  have hbelow : resolve top behind = some [] := h
  have hhead := foldlM_push_head hbelow hlt hbehind
  cases top with
  | nil => exact htop
  | cons first rest =>
      have hfirst : [] = first := Option.some.inj hhead
      have hmem := foldlM_push_subset hpush (List.mem_cons_self (a := first) (l := rest))
      exact absurd (hfirst ▸ hmem) hbefore

theorem result_root_iff (h : resolve [] (dir.pieces ++ path.pieces) = some []) :
    path.pieces.foldlM push dir.pieces = some [[]] ↔
      Undotted dir.pieces ∧ (dir.pieces ++ path.pieces).count [] = 1 ∧
        resolve [] ((dir.pieces ++ path.pieces).takeWhile (· ≠ [])) = some [] := by
  have hsplit : ∀ {before behind : List Piece}, [] ∉ before →
      (before ++ [] :: behind).takeWhile (· ≠ []) = before := by
    intro before behind hbefore
    have hall : ∀ p ∈ before, decide (p ≠ []) = true := fun p hp =>
      decide_eq_true fun hnil => hbefore (hnil ▸ hp)
    rw [List.takeWhile_append_of_pos hall]
    exact List.append_nil _
  constructor
  · intro hright
    obtain ⟨result, hrun, -, -, hlength⟩ := getAbsPath_pieces h
    cases hrun.symm.trans hright
    have hmem : [] ∈ dir.pieces ++ path.pieces :=
      foldlM_push_subset hright List.mem_cons_self
    have hpos := List.count_pos_iff.mpr hmem
    simp only [List.length_nil, List.length_singleton] at hlength
    have hdots : Undotted dir.pieces := undotted_iff.mpr (by omega)
    refine ⟨hdots, by omega, ?_⟩
    rw [run_undotted hdots] at hright
    obtain ⟨before, behind, hpieces, hbefore⟩ := List.eq_append_cons_of_mem hmem
    rw [hpieces] at h hright ⊢
    rw [hsplit hbefore]
    exact resolve_before_empty hbefore h hright
  · rintro ⟨hdots, hcount, hbase⟩
    rw [run_undotted hdots]
    have hmem : [] ∈ dir.pieces ++ path.pieces := List.count_pos_iff.mp (by omega)
    obtain ⟨before, behind, hpieces, hbefore⟩ := List.eq_append_cons_of_mem hmem
    rw [hpieces] at h hcount hbase ⊢
    rw [hsplit hbefore] at hbase
    have hbehind : [] ∉ behind := by
      rw [List.count_append, List.count_cons_self, List.count_eq_zero.mpr hbefore] at hcount
      exact List.count_eq_zero.mp (by omega)
    rw [resolve_append, hbase] at h
    rw [List.foldlM_append, foldlM_push_eq hbefore, hbase]
    -- Above the empty piece the text is the directory.
    refine (foldlM_push_eq hbehind).trans ?_
    exact @resolve_below [] [] [[]] behind h

end

/-- **`get_abs_path` normalises tidy paths** -/
theorem normalises_iff (dir : AbsoluteDir) (path : RelativePath) :
    Normalises dir path ↔ ∀ target, resolve [] (dir.pieces ++ path.pieces) = some target →
      Tidy dir path target := by
  refine forall_congr' fun target => forall_congr' fun h => ?_
  have hpieces := (slashless_splitOn dir.below).append (slashless_splitOn path.text)
  have hnone : Slashless [] := fun p hp => absurd hp List.not_mem_nil
  have htarget : Slashless target := hnone.resolve hpieces h
  obtain ⟨result, hrun, habs, hslashless, -⟩ := getAbsPath_pieces h
  rw [habs, Option.some.injEq]
  by_cases hroot : target = []
  · subst hroot
    rw [Tidy, if_pos rfl, ← result_root_iff h, hrun, Option.some.injEq]
    have hone : Slashless [[]] := fun p hp => List.mem_singleton.mp hp ▸ List.not_mem_nil
    exact ⟨fun heq => render_injective hslashless hone heq, fun heq => congrArg render heq⟩
  · rw [Tidy, if_neg hroot, ← result_below_iff h, hrun, Option.some.injEq, pathTo, if_neg hroot]
    exact ⟨fun heq => render_injective hslashless htarget heq, fun heq => congrArg render heq⟩

/-- `/a` -/
def aDir : AbsoluteDir := ⟨['a']⟩

/-- `b//c/` -/
def doubled : RelativePath := ⟨['b', '/', '/', 'c', '/'], by decide⟩

/-- `b` -/
def name : RelativePath := ⟨['b'], by decide⟩

/-- `..` -/
def parent : RelativePath := ⟨['.', '.'], by decide⟩

/-- Slashes are doubled and trailing, the root is doubled, or empty. -/
theorem not_normalises :
    (getAbsPath aDir.text doubled.text = some "/a/b//c/".toList ∧ ¬ Normalises aDir doubled) ∧
      (getAbsPath ['/'] name.text = some "//b".toList ∧ ¬ Normalises ⟨[]⟩ name) ∧
        getAbsPath aDir.text parent.text = some [] ∧ ¬ Normalises aDir parent := by
  have hdoubled : getAbsPath aDir.text doubled.text = some "/a/b//c/".toList := by
    rw [getAbsPath_eq]
    decide
  have hroot : getAbsPath ['/'] name.text = some "//b".toList :=
    (getAbsPath_eq ⟨[]⟩ name).trans (by decide)
  have hparent : getAbsPath aDir.text parent.text = some [] := by
    rw [getAbsPath_eq]
    decide
  refine ⟨⟨hdoubled, fun h => ?_⟩, ⟨hroot, fun h => ?_⟩, hparent, fun h => ?_⟩
  · have hright := h [['a'], ['b'], ['c']] (by decide)
    exact absurd (hdoubled.symm.trans hright) (by decide)
  · have hright := h [['b']] (by decide)
    exact absurd (hroot.symm.trans hright) (by decide)
  · have hright := h [] (by decide)
    exact absurd (hparent.symm.trans hright) (by decide)

end FlightRec.AbsPath
