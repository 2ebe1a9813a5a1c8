/-
# `FlightRec.Lib.Paths` — paths as texts and as components

A text is split at its slashes into pieces; a piece may be empty, `.` or `..`, and the
others are names.  An absolute path leads from the root along its pieces (`resolve`), to
what names it, if it does not climb above the root.

Texts of the form `/p₁/p₂/…` are `render [p₁, p₂, …]`, and determine their pieces
(`render_injective`).
-/
import Mathlib.Data.List.Basic

namespace FlightRec.Paths

/-- What is between slashes. -/
abbrev Piece := List Char

/-- A slash before every piece. -/
def render (pieces : List Piece) : List Char := pieces.flatMap ('/' :: ·)

/-- No piece has a slash. -/
def Slashless (pieces : List Piece) : Prop := ∀ p ∈ pieces, '/' ∉ p

/-- One step of a path, down from a directory. -/
def walk (dir : List Piece) (piece : Piece) : Option (List Piece) :=
  if piece = [] ∨ piece = ['.'] then some dir
  else if piece = ['.', '.'] then (if dir = [] then none else some dir.dropLast)
  else some (dir ++ [piece])

/-- Where pieces lead from a directory. -/
def resolve (dir : List Piece) (pieces : List Piece) : Option (List Piece) :=
  pieces.foldlM walk dir

/-- The path of a directory, without anything superfluous. -/
def pathTo (dir : List Piece) : List Char := if dir = [] then ['/'] else render dir

section
variable {cs ds : List Piece} {p : Piece} {text : List Char}

@[simp] theorem render_nil : render [] = [] := rfl

theorem render_cons (p : Piece) (cs : List Piece) : render (p :: cs) = '/' :: p ++ render cs := rfl

theorem render_singleton (p : Piece) : render [p] = '/' :: p := List.append_nil _

theorem render_append (cs ds : List Piece) : render (cs ++ ds) = render cs ++ render ds :=
  List.flatMap_append

theorem Slashless.append (hcs : Slashless cs) (hds : Slashless ds) : Slashless (cs ++ ds) :=
  fun p hp => (List.mem_append.mp hp).elim (hcs p) (hds p)

theorem Slashless.mono (h : Slashless ds) (hsub : cs ⊆ ds) : Slashless cs :=
  fun p hp => h p (hsub hp)

/-! ## Splitting -/

theorem splitOn_cons_slash (text : List Char) :
    ('/' :: text).splitOn '/' = [] :: text.splitOn '/' :=
  List.splitOn_append_cons_self [] text

theorem splitOn_render (hcs : Slashless cs) : ∀ text, '/' ∉ text →
    (text ++ render cs).splitOn '/' = text :: cs := by
  induction cs with
  | nil =>
      intro text htext
      rw [render_nil, List.append_nil, List.splitOn_eq_singleton htext]
  | cons p cs ih =>
      intro text htext
      rw [render_cons, List.cons_append, List.splitOn_append_cons_self_of_not_mem htext,
        ih (fun q hq => hcs q (List.mem_cons_of_mem p hq)) p (hcs p List.mem_cons_self)]

theorem render_injective (hcs : Slashless cs) (hds : Slashless ds) (h : render cs = render ds) :
    cs = ds := by
  have hsplit := congrArg (List.splitOn '/') h
  rw [← List.nil_append (render cs), ← List.nil_append (render ds),
    splitOn_render hcs _ List.not_mem_nil, splitOn_render hds _ List.not_mem_nil] at hsplit
  exact (List.cons.inj hsplit).2

theorem slashless_splitOn (text : List Char) : Slashless (text.splitOn '/') := by
  induction text with
  | nil =>
      intro p hp
      rw [List.splitOn_nil, List.mem_singleton] at hp
      exact hp ▸ List.not_mem_nil
  | cons c text ih =>
      by_cases hc : c = '/'
      · rw [hc, splitOn_cons_slash]
        intro p hp
        rcases List.mem_cons.mp hp with rfl | hp
        · exact List.not_mem_nil
        · exact ih p hp
      · rw [List.splitOn_cons_eq_if_modifyHead, if_neg (by simpa using hc)]
        obtain ⟨first, rest, hsplit⟩ := List.exists_cons_of_ne_nil (List.splitOn_ne_nil '/' text)
        rw [hsplit] at ih ⊢
        intro p hp
        rcases List.mem_cons.mp hp with rfl | hp
        · have hfirst := ih first List.mem_cons_self
          exact fun h => (List.mem_cons.mp h).elim (fun h => hc h.symm) hfirst
        · exact ih p (List.mem_cons_of_mem first hp)

theorem render_splitOn (text : List Char) : render (text.splitOn '/') = '/' :: text := by
  induction text with
  | nil => rfl
  | cons c text ih =>
      by_cases hc : c = '/'
      · rw [hc, splitOn_cons_slash, render_cons, ih]
        rfl
      · rw [List.splitOn_cons_eq_if_modifyHead, if_neg (by simpa using hc)]
        obtain ⟨first, rest, hsplit⟩ := List.exists_cons_of_ne_nil (List.splitOn_ne_nil '/' text)
        rw [hsplit, render_cons] at ih
        rw [hsplit, List.modifyHead_cons, render_cons, List.cons_append, List.cons_append]
        exact congrArg (fun t => '/' :: c :: t) (List.cons.inj ih).2

/-! ## Walking -/

variable {dir dir' base : List Piece} {pieces : List Piece}

theorem resolve_cons (dir : List Piece) (p : Piece) (pieces : List Piece) :
    resolve dir (p :: pieces) = (walk dir p).bind (resolve · pieces) := List.foldlM_cons

theorem resolve_append (dir : List Piece) (cs ds : List Piece) :
    resolve dir (cs ++ ds) = (resolve dir cs).bind (resolve · ds) := List.foldlM_append

theorem walk_below (h : walk dir p = some dir') : walk (base ++ dir) p = some (base ++ dir') := by
  unfold walk at h ⊢
  split at h
  next hstay => rw [if_pos hstay, Option.some.inj h]
  next hgo =>
    rw [if_neg hgo]
    split at h
    next hup =>
      rw [if_pos hup]
      split at h
      next => cases h
      next hne =>
        rw [if_neg fun hnil => hne (List.append_eq_nil_iff.mp hnil).2,
          List.dropLast_append_of_ne_nil hne, Option.some.inj h]
    next hdown => rw [if_neg hdown, List.append_assoc, Option.some.inj h]

theorem resolve_below (h : resolve dir pieces = some dir') :
    resolve (base ++ dir) pieces = some (base ++ dir') := by
  induction pieces generalizing dir with
  | nil => exact congrArg (fun d => some (base ++ d)) (Option.some.inj h)
  | cons p pieces ih =>
      rw [resolve_cons] at h ⊢
      obtain ⟨next, hwalk, hrest⟩ := Option.bind_eq_some_iff.mp h
      rw [walk_below hwalk]
      exact ih hrest

theorem length_walk (h : walk dir p = some dir') :
    dir'.length + [p].count [] + [p].count ['.'] + 2 * [p].count ['.', '.'] = dir.length + 1 := by
  unfold walk at h
  split at h
  next hstay =>
    cases h
    rcases hstay with rfl | rfl <;> rfl
  next hgo =>
    rw [not_or] at hgo
    split at h
    next hup =>
      split at h
      next => cases h
      next hne =>
        cases h
        have hpos := List.length_pos_iff.mpr hne
        rw [hup, List.length_dropLast]
        change dir.length - 1 + 0 + 0 + 2 = dir.length + 1
        omega
    next hdown =>
      cases h
      rw [List.count_singleton, List.count_singleton, List.count_singleton]
      simp [hgo.1, hgo.2, hdown]

theorem length_resolve (h : resolve dir pieces = some dir') :
    dir'.length + pieces.count [] + pieces.count ['.'] + 2 * pieces.count ['.', '.'] =
      dir.length + pieces.length := by
  induction pieces generalizing dir with
  | nil =>
      cases h
      rfl
  | cons p pieces ih =>
      rw [resolve_cons] at h
      obtain ⟨next, hwalk, hrest⟩ := Option.bind_eq_some_iff.mp h
      have hone := length_walk hwalk
      have hmany := ih hrest
      rw [← List.singleton_append, List.count_append, List.count_append, List.count_append,
        List.length_append, List.length_singleton]
      omega

theorem Slashless.walk (hdir : Slashless dir) (hp : '/' ∉ p) (h : walk dir p = some dir') :
    Slashless dir' := by
  unfold Paths.walk at h
  split at h
  next => exact Option.some.inj h ▸ hdir
  next =>
    split at h
    next =>
      split at h
      next => cases h
      next => exact Option.some.inj h ▸ hdir.mono (List.dropLast_subset dir)
    next => exact Option.some.inj h ▸ hdir.append fun q hq => List.mem_singleton.mp hq ▸ hp

theorem Slashless.resolve (hdir : Slashless dir) (hpieces : Slashless pieces)
    (h : resolve dir pieces = some dir') : Slashless dir' := by
  induction pieces generalizing dir with
  | nil => exact Option.some.inj h ▸ hdir
  | cons p pieces ih =>
      rw [resolve_cons] at h
      obtain ⟨next, hwalk, hrest⟩ := Option.bind_eq_some_iff.mp h
      have hnext := hdir.walk (hpieces p List.mem_cons_self) hwalk
      exact ih hnext (hpieces.mono (List.subset_cons_self _ _)) hrest

end

end FlightRec.Paths
