/-
# `FlightRec.Lib.Loops` — computations that may not end

A computation with fuel has a result, or no result yet; with more fuel a result stays as it
is, so it does not matter how much there was (`Returns.unique`).  Computations are put
together with `bind` (`returns_bind_iff`).  A loop repeats a step that goes on from a state
or ends with a result.  It gets from state to state (`Steps.returns_iff`), and never ends if
it keeps to states from which it goes on (`not_returns_loop`).
-/
import Mathlib.Logic.Relation

namespace FlightRec.Loops

/-- What is computed with so much fuel, if that is enough. -/
structure Fuelled (α : Type*) where
  run : Nat → Option α
  mono : ∀ {m n : Nat} {a : α}, m ≤ n → run m = some a → run n = some a

variable {σ α β ε : Type*}

namespace Fuelled

/-- The computation ends with the result. -/
def Returns (x : Fuelled α) (a : α) : Prop := ∃ fuel, x.run fuel = some a

theorem Returns.unique {x : Fuelled α} {a b : α} (ha : x.Returns a) (hb : x.Returns b) :
    a = b := by
  obtain ⟨m, hm⟩ := ha
  obtain ⟨n, hn⟩ := hb
  have hm' := x.mono (Nat.le_max_left m n) hm
  rw [x.mono (Nat.le_max_right m n) hn] at hm'
  exact (Option.some.inj hm').symm

/-! ## Sequences -/

def pure (a : α) : Fuelled α where
  run _ := some a
  mono _ h := h

def bind (x : Fuelled α) (f : α → Fuelled β) : Fuelled β where
  run fuel := (x.run fuel).bind fun a => (f a).run fuel
  mono := by
    intro m n b hle h
    obtain ⟨a, ha, hb⟩ := Option.bind_eq_some_iff.mp h
    exact Option.bind_eq_some_iff.mpr ⟨a, x.mono hle ha, (f a).mono hle hb⟩

/-- Goes on with a result that is no error. -/
def andThen (x : Fuelled (Except ε α)) (f : α → Fuelled (Except ε β)) : Fuelled (Except ε β) :=
  x.bind fun
    | .error e => pure (.error e)
    | .ok a => f a

theorem returns_pure (a : α) : (pure a).Returns a := ⟨0, rfl⟩

@[simp] theorem returns_pure_iff {a b : α} : (pure a).Returns b ↔ b = a :=
  ⟨fun h => h.unique (returns_pure a), fun h => h ▸ returns_pure a⟩

theorem returns_bind_iff {x : Fuelled α} {f : α → Fuelled β} {b : β} :
    (x.bind f).Returns b ↔ ∃ a, x.Returns a ∧ (f a).Returns b := by
  constructor
  · rintro ⟨fuel, h⟩
    obtain ⟨a, ha, hb⟩ := Option.bind_eq_some_iff.mp h
    exact ⟨a, ⟨fuel, ha⟩, fuel, hb⟩
  · rintro ⟨a, ⟨m, hm⟩, n, hn⟩
    exact ⟨max m n, Option.bind_eq_some_iff.mpr
      ⟨a, x.mono (Nat.le_max_left m n) hm, (f a).mono (Nat.le_max_right m n) hn⟩⟩

section
variable {x : Fuelled (Except ε α)} {f : α → Fuelled (Except ε β)} {r : Except ε β} {a : α} {e : ε}

theorem andThen_error (h : x.Returns (.error e)) : (x.andThen f).Returns (.error e) :=
  returns_bind_iff.mpr ⟨_, h, returns_pure _⟩

theorem andThen_ok_iff (h : x.Returns (.ok a)) : (x.andThen f).Returns r ↔ (f a).Returns r := by
  constructor
  · intro hr
    obtain ⟨a', ha', hf⟩ := returns_bind_iff.mp hr
    rw [ha'.unique h] at hf
    exact hf
  · intro hf
    exact returns_bind_iff.mpr ⟨_, h, hf⟩

theorem not_returns_andThen (h : ∀ a, ¬ x.Returns a) : ¬ (x.andThen f).Returns r := by
  intro hr
  obtain ⟨a, ha, -⟩ := returns_bind_iff.mp hr
  exact h a ha

end

end Fuelled

open Fuelled

/-! ## Loops -/

variable {step : σ → σ ⊕ α} {s s' : σ} {a : α}

/-- The loop for a bounded number of rounds. -/
def rounds (step : σ → σ ⊕ α) : Nat → σ → Option α
  | 0, _ => none
  | fuel + 1, s =>
      match step s with
      | .inl s' => rounds step fuel s'
      | .inr a => some a

theorem rounds_le {fuel : Nat} : ∀ {fuel' : Nat} {s : σ}, fuel ≤ fuel' →
    rounds step fuel s = some a → rounds step fuel' s = some a := by
  induction fuel with
  | zero =>
      intro fuel' s _ h
      cases h
  | succ fuel ih =>
      intro fuel' s hle h
      obtain ⟨more, rfl⟩ := Nat.exists_eq_add_of_le hle
      rw [Nat.add_right_comm, rounds]
      rw [rounds] at h
      cases hstep : step s with
      | inl s' =>
          rw [hstep] at h
          exact ih (Nat.le_add_right fuel more) h
      | inr b =>
          rw [hstep] at h
          exact h

/-- Repeats a step until it ends with a result. -/
def loop (step : σ → σ ⊕ α) (s : σ) : Fuelled α where
  run fuel := rounds step fuel s
  mono hle h := rounds_le hle h

/-- The loop gets from one state to another. -/
def Steps (step : σ → σ ⊕ α) : σ → σ → Prop := Relation.ReflTransGen fun s s' => step s = .inl s'

theorem Steps.refl (s : σ) : Steps step s s := Relation.ReflTransGen.refl

theorem Steps.head {s'' : σ} (h : step s = .inl s') (hs' : Steps step s' s'') :
    Steps step s s'' := Relation.ReflTransGen.head h hs'

theorem returns_loop_of_inr (h : step s = .inr a) : (loop step s).Returns a := by
  refine ⟨1, ?_⟩
  change rounds step 1 s = some a
  rw [rounds, h]

theorem returns_loop_of_inl (h : step s = .inl s') :
    (loop step s).Returns a ↔ (loop step s').Returns a := by
  constructor
  · rintro ⟨_ | fuel, hfuel⟩
    · cases hfuel
    · change rounds step (fuel + 1) s = some a at hfuel
      rw [rounds, h] at hfuel
      exact ⟨fuel, hfuel⟩
  · rintro ⟨fuel, hfuel⟩
    refine ⟨fuel + 1, ?_⟩
    change rounds step (fuel + 1) s = some a
    rw [rounds, h]
    exact hfuel

/-- What a loop returns does not change along its way. -/
theorem Steps.returns_iff (h : Steps step s s') :
    (loop step s).Returns a ↔ (loop step s').Returns a := by
  induction h using Relation.ReflTransGen.head_induction_on with
  | refl => exact Iff.rfl
  | head hstep _ ih => exact (returns_loop_of_inl hstep).trans ih

theorem not_returns_loop {I : σ → Prop} (goesOn : ∀ s, I s → ∃ s', step s = .inl s' ∧ I s')
    (hs : I s) : ¬ (loop step s).Returns a := by
  rintro ⟨fuel, hfuel⟩
  change rounds step fuel s = some a at hfuel
  induction fuel generalizing s with
  | zero => cases hfuel
  | succ fuel ih =>
      obtain ⟨s', hstep, hs'⟩ := goesOn s hs
      rw [rounds, hstep] at hfuel
      exact ih hs' hfuel

end FlightRec.Loops
