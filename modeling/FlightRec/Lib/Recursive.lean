/-
# `FlightRec.Lib.Recursive` — recursive queries

`WITH RECURSIVE r AS (init UNION step)`: rows are taken from a queue one after another,
and what the step makes of a row is added to the result and to the queue, unless it is
in the result already.  If only finitely many rows can be reached the queue runs empty,
and the result has each of them once (`mem_union_iff`, `union_nodup`).
-/
import Mathlib.Data.List.Dedup
import Mathlib.Data.List.Perm.Subperm
import Mathlib.Logic.Relation

namespace FlightRec.Recursive

variable {α : Type*} [DecidableEq α] (next : α → List α)

/-- What the step makes of a row that is not in the result yet. -/
def fresh (seen : List α) (r : α) : List α := ((next r).filter (· ∉ seen)).dedup

/-- One row of the queue after another. -/
def loop : Nat → List α → List α → List α
  | 0, _, seen => seen
  | _ + 1, [], seen => seen
  | fuel + 1, r :: queue, seen =>
      loop fuel (queue ++ fresh next seen r) (seen ++ fresh next seen r)

/-- The rows of a recursive query. -/
def union (fuel : Nat) (init : List α) : List α := loop next fuel init.dedup init.dedup

/-- Rows that follow from a row. -/
def Reaches : α → α → Prop := Relation.ReflTransGen fun a b => b ∈ next a

/-- All of the result but what is still in the queue has been taken care of. -/
structure Progress (init queue seen : List α) : Prop where
  sound : ∀ x ∈ seen, ∃ r ∈ init, Reaches next r x
  started : init ⊆ seen
  nodup : seen.Nodup
  queued : queue ⊆ seen
  done : ∀ x ∈ seen, x ∉ queue → next x ⊆ seen

section
variable {next} {init queue seen : List α} {r : α}

theorem mem_fresh {x : α} : x ∈ fresh next seen r ↔ x ∈ next r ∧ x ∉ seen := by
  rw [fresh, List.mem_dedup, List.mem_filter, decide_eq_true_iff]

theorem progress_init : Progress next init init.dedup init.dedup where
  sound := fun x hx => ⟨x, List.mem_dedup.mp hx, .refl⟩
  started := fun _ hx => List.mem_dedup.mpr hx
  nodup := List.nodup_dedup init
  queued := List.Subset.refl _
  done := fun _ hx hnot => absurd hx hnot

theorem Progress.step (h : Progress next init (r :: queue) seen) :
    Progress next init (queue ++ fresh next seen r) (seen ++ fresh next seen r) where
  sound := by
    intro x hx
    rcases List.mem_append.mp hx with hx | hx
    · exact h.sound x hx
    · obtain ⟨s, hs, hreach⟩ := h.sound r (h.queued List.mem_cons_self)
      exact ⟨s, hs, hreach.tail (mem_fresh.mp hx).1⟩
  started := fun _ hx => List.mem_append_left _ (h.started hx)
  nodup := by
    refine h.nodup.append (List.nodup_dedup _) fun _ hx hfresh => ?_
    exact (mem_fresh.mp hfresh).2 hx
  queued := by
    intro x hx
    rcases List.mem_append.mp hx with hx | hx
    · exact List.mem_append_left _ (h.queued (List.mem_cons_of_mem _ hx))
    · exact List.mem_append_right _ hx
  done := by
    intro x hx hnot y hy
    rcases List.mem_append.mp hx with hx | hx
    · by_cases hxr : x = r
      · by_cases hseen : y ∈ seen
        · exact List.mem_append_left _ hseen
        · exact List.mem_append_right _ (mem_fresh.mpr ⟨hxr ▸ hy, hseen⟩)
      · refine List.mem_append_left _ (h.done x hx (fun hqueue => ?_) hy)
        rcases List.mem_cons.mp hqueue with heq | hqueue
        · exact hxr heq
        · exact hnot (List.mem_append_left _ hqueue)
    · exact absurd (List.mem_append_right _ hx) hnot

omit [DecidableEq α] in
theorem mem_of_reaches {all : List α} (hall : ∀ x ∈ all, next x ⊆ all) {x y : α} (hx : x ∈ all)
    (h : Reaches next x y) : y ∈ all := by
  induction h with
  | refl => exact hx
  | tail _ hstep ih => exact hall _ ih hstep

/-- The queue is empty in the end, since every row that can be reached is one of `all`. -/
theorem Progress.loop {all : List α} (hall : ∀ x ∈ all, next x ⊆ all) (hinit : init ⊆ all) :
    ∀ {fuel : Nat} {queue seen : List α}, Progress next init queue seen →
      all.length + queue.length ≤ fuel + seen.length →
      Progress next init [] (loop next fuel queue seen)
  | 0, queue, seen, h, hfuel => by
      have hsub : seen ⊆ all := by
        intro x hx
        obtain ⟨s, hs, hreach⟩ := h.sound x hx
        exact mem_of_reaches hall (hinit hs) hreach
      have hlen := (h.nodup.subperm hsub).length_le
      have hempty : queue = [] := List.length_eq_zero_iff.mp (by omega)
      rwa [hempty] at h
  | fuel + 1, [], seen, h, hfuel => h
  | fuel + 1, r :: queue, seen, h, hfuel => by
      refine h.step.loop hall hinit ?_
      rw [List.length_append, List.length_append]
      rw [List.length_cons] at hfuel
      omega

theorem progress_union {all : List α} (hall : ∀ x ∈ all, next x ⊆ all) (hinit : init ⊆ all)
    {fuel : Nat} (hfuel : all.length ≤ fuel) : Progress next init [] (union next fuel init) :=
  progress_init.loop hall hinit (Nat.add_le_add_right hfuel _)

theorem mem_union_iff {all : List α} (hall : ∀ x ∈ all, next x ⊆ all) (hinit : init ⊆ all)
    {fuel : Nat} (hfuel : all.length ≤ fuel) {x : α} :
    x ∈ union next fuel init ↔ ∃ s ∈ init, Reaches next s x := by
  have h := progress_union hall hinit hfuel
  constructor
  · exact h.sound x
  · rintro ⟨s, hs, hreach⟩
    induction hreach with
    | refl => exact h.started hs
    | tail _ hstep ih => exact h.done _ ih List.not_mem_nil hstep

theorem union_nodup {all : List α} (hall : ∀ x ∈ all, next x ⊆ all) (hinit : init ⊆ all)
    {fuel : Nat} (hfuel : all.length ≤ fuel) : (union next fuel init).Nodup :=
  (progress_union hall hinit hfuel).nodup

end

end FlightRec.Recursive
