/-
# `FlightRec.Lib.Completion` — runs that come to an end

A run is a number of steps.  Where every step keeps an invariant and leaves less to do
(`Winds`), no run is longer than there is to do at its beginning (`Winds.run_le`), and
from wherever a run has got, it can be continued to a state without a step
(`Winds.completes`).  Among finitely many states it is enough that no run comes back to a
state where it was (`acyclic_induction`).

The steps may be the calls of a recursive function, which fails where it does something wrong
itself or where a call that it makes fails.  If its calls come to an end, it fails exactly if
some call that it comes to does something wrong itself (`fails_iff_reaches`).  Calls may be
followed as long as they keep a condition.
-/
import Mathlib.Data.Fintype.Card
import Mathlib.Logic.Relation

namespace FlightRec.Completion

open Relation

variable {σ : Type*}

/-- So many steps lead from the first state to the second. -/
inductive Run (R : σ → σ → Prop) (s : σ) : Nat → σ → Prop
  | refl : Run R s 0 s
  | tail {n : Nat} {t u : σ} : Run R s n t → R t u → Run R s (n + 1) u

/-- Steps keep the invariant and leave less to do. -/
structure Winds (R : σ → σ → Prop) (Inv : σ → Prop) (left : σ → Nat) : Prop where
  keeps : ∀ {s t : σ}, Inv s → R s t → Inv t
  uses : ∀ {s t : σ}, Inv s → R s t → left t < left s

section
variable {R : σ → σ → Prop} {Inv : σ → Prop} {left : σ → Nat} {s t : σ} {n : Nat}

theorem Run.head {u : σ} (hst : R s t) (hrun : Run R t n u) : Run R s (n + 1) u := by
  induction hrun with
  | refl => exact .tail .refl hst
  | tail _ hlast ih => exact .tail ih hlast

theorem Winds.run (h : Winds R Inv left) (hs : Inv s) (hrun : Run R s n t) :
    Inv t ∧ n + left t ≤ left s := by
  induction hrun with
  | refl => exact ⟨hs, Nat.le_of_eq (Nat.zero_add _)⟩
  | tail _ hstep ih =>
      obtain ⟨ht, hle⟩ := ih
      have hlt := h.uses ht hstep
      exact ⟨h.keeps ht hstep, by omega⟩

theorem Winds.run_le (h : Winds R Inv left) (hs : Inv s) (hrun : Run R s n t) : n ≤ left s := by
  have hle := (h.run hs hrun).2
  omega

theorem Winds.completes (h : Winds R Inv left) : ∀ {s : σ}, Inv s →
    ∃ n t, Run R s n t ∧ Inv t ∧ ∀ u, ¬ R t u := by
  intro s
  induction hk : left s using Nat.strongRecOn generalizing s with
  | ind k ih =>
      intro hs
      by_cases hstep : ∃ t, R s t
      · obtain ⟨t, hst⟩ := hstep
        obtain ⟨n, u, hrun, hu, hend⟩ := ih (left t) (hk ▸ h.uses hs hst) rfl (h.keeps hs hst)
        exact ⟨n + 1, u, hrun.head hst, hu, hend⟩
      · exact ⟨0, s, .refl, hs, fun u hu => hstep ⟨u, hu⟩⟩

end

/-! ## Runs that do not come back -/

/-- A property that passes from the states behind a state to the state itself holds at the
beginning, if finitely many states are reached and no run comes back to one. -/
theorem acyclic_induction {R : σ → σ → Prop} {P : σ → Prop} {s : σ}
    [Finite {t // ReflTransGen R s t}] (hacyclic : ∀ t, ReflTransGen R s t → ¬ TransGen R t t)
    (hstep : ∀ t, ReflTransGen R s t → (∀ u, R t u → P u) → P t) : P s := by
  let behind (u t : {t // ReflTransGen R s t}) : Prop := TransGen R t.1 u.1
  have : IsTrans _ behind := ⟨fun _ _ _ hab hbc => hbc.trans hab⟩
  have : Std.Irrefl behind := ⟨fun t => hacyclic t.1 t.2⟩
  have hwf : WellFounded behind := Finite.wellFounded_of_trans_of_irrefl behind
  have hall : ∀ t : {t // ReflTransGen R s t}, P t.1 := by
    intro t
    induction t using hwf.induction with
    | _ t ih => exact hstep t.1 t.2 fun u hu => ih ⟨u, t.2.tail hu⟩ (.single hu)
  exact hall ⟨s, .refl⟩

/-! ## Calls -/

variable {calls : σ → σ → Prop} {fails own inv : σ → Prop} {a b : σ}

theorem fails_iff_reaches (hwf : WellFounded fun b a => calls a b)
    (hinv : ∀ a b, inv a → calls a b → inv b)
    (hstep : ∀ a, inv a → (fails a ↔ own a ∨ ∃ b, calls a b ∧ fails b)) (ha : inv a) :
    fails a ↔ ∃ b, ReflTransGen calls a b ∧ own b := by
  constructor
  · intro hfails
    induction a using hwf.induction with
    | _ a ih =>
      obtain hown | ⟨b, hcall, hb⟩ := (hstep a ha).mp hfails
      · exact ⟨a, .refl, hown⟩
      · obtain ⟨c, hreach, hown⟩ := ih b hcall (hinv a b ha hcall) hb
        exact ⟨c, .head hcall hreach, hown⟩
  · rintro ⟨b, hreach, hown⟩
    induction hreach using ReflTransGen.head_induction_on with
    | refl => exact (hstep _ ha).mpr (.inl hown)
    | head hcall _ ih => exact (hstep _ ha).mpr (.inr ⟨_, hcall, ih (hinv _ _ ha hcall)⟩)

end FlightRec.Completion
