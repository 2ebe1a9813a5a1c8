/-
# `FlightRec.Lib.Hoare` — computations that keep a condition on their state

A computation over a state that may stop half way keeps a condition if every
result is reached in a state that meets it, whatever state it was started in.
There is one rule for each way a computation is put together, so that a recursive
interpreter is followed clause by clause; `keeps_run` is what a caller takes away.
What its results can be, in any state, is followed in the same way (`Returns`).  One that
has a known result in every good state, and leaves it good, or else never ends in a good
one, is followed by `Gives`.  And `Below` compares two: where the first ends, the second ends
the same.
-/

namespace FlightRec.Hoare

universe u
variable {σ α β : Type u}

theorem bind_run {x : StateT σ Option α} {f : α → StateT σ Option β} {s : σ} {r : β × σ} :
    (x >>= f) s = some r ↔ ∃ a s₁, x s = some (a, s₁) ∧ f a s₁ = some r := by
  change (x s).bind _ = _ ↔ _
  rw [Option.bind_eq_some_iff]
  constructor
  · rintro ⟨⟨a, s₁⟩, hx, hf⟩
    exact ⟨a, s₁, hx, hf⟩
  · rintro ⟨a, s₁, hx, hf⟩
    exact ⟨(a, s₁), hx, hf⟩

/-- From a state that meets `I` the computation ends, if it ends, in one that does. -/
def Keeps (I : σ → Prop) (x : StateT σ Option α) : Prop :=
  ∀ s, I s → ∀ a s', x s = some (a, s') → I s'

section
variable {I : σ → Prop}

theorem keeps_run {x : StateT σ Option α} {s s' : σ} {a : α} (h : Keeps I x) (hs : I s)
    (hrun : x s = some (a, s')) : I s' := h s hs a s' hrun

theorem keeps_pure (a : α) : Keeps I (pure a : StateT σ Option α) := by
  intro s hs b s' hrun
  cases hrun
  exact hs

theorem keeps_none : Keeps I ((fun _ => none) : StateT σ Option α) := by
  intro s _ a s' hrun
  cases hrun

theorem keeps_get : Keeps I (get : StateT σ Option σ) := by
  intro s hs a s' hrun
  cases hrun
  exact hs

theorem keeps_modify {f : σ → σ} (hf : ∀ s, I s → I (f s)) :
    Keeps I (modify f : StateT σ Option PUnit) := by
  intro s hs a s' hrun
  cases hrun
  exact hf s hs

theorem keeps_bind {x : StateT σ Option α} {f : α → StateT σ Option β} (hx : Keeps I x)
    (hf : ∀ a, Keeps I (f a)) : Keeps I (x >>= f) := by
  intro s hs b s' hrun
  obtain ⟨a, s₁, hmid, hrest⟩ := bind_run.mp hrun
  exact hf a s₁ (hx s hs a s₁ hmid) b s' hrest

theorem keeps_ite {c : Prop} [Decidable c] {x y : StateT σ Option α} (hx : c → Keeps I x)
    (hy : ¬ c → Keeps I y) : Keeps I (if c then x else y) := by
  split
  next h => exact hx h
  next h => exact hy h

end

/-- The results of the computation, whatever state it is started in, meet `P`. -/
def Returns (P : α → Prop) (x : StateT σ Option α) : Prop :=
  ∀ s a s', x s = some (a, s') → P a

section
variable {P : α → Prop} {Q : β → Prop}

theorem returns_pure {a : α} (h : P a) : Returns P (pure a : StateT σ Option α) := by
  intro s b s' hrun
  cases hrun
  exact h

theorem returns_none : Returns P ((fun _ => none) : StateT σ Option α) := by
  intro s a s' hrun
  cases hrun

theorem returns_bind {x : StateT σ Option α} {f : α → StateT σ Option β}
    (hf : ∀ a, Returns Q (f a)) : Returns Q (x >>= f) := by
  intro s b s' hrun
  obtain ⟨a, s₁, _, hrest⟩ := bind_run.mp hrun
  exact hf a s₁ b s' hrest

theorem returns_ite {c : Prop} [Decidable c] {x y : StateT σ Option α} (hx : c → Returns P x)
    (hy : ¬ c → Returns P y) : Returns P (if c then x else y) := by
  split
  next h => exact hx h
  next h => exact hy h

end

/-- From a good state the computation has the result and stays where it is; without one it
does not end in a good state. -/
def Gives (Good : σ → Prop) (x : StateT σ Option α) (r : Option α) : Prop :=
  ∀ s, Good s → match r with
    | some a => x s = some (a, s)
    | none => ∀ a s', x s = some (a, s') → ¬ Good s'

section
variable {Good : σ → Prop} {x : StateT σ Option α} {r : Option α} {s : σ}

theorem gives_pure (a : α) : Gives Good (pure a) (some a) := fun _ _ => rfl

theorem gives_none : Gives Good ((fun _ => none) : StateT σ Option α) none := by
  intro s _ a s' hrun
  cases hrun

/-- Bad states stay bad, so nothing is made good by what follows. -/
theorem Gives.bind {f : α → StateT σ Option β} {p : α → Option β} (hx : Gives Good x r)
    (hf : ∀ a, r = some a → Gives Good (f a) (p a))
    (hbad : ∀ a, Keeps (fun s => ¬ Good s) (f a)) : Gives Good (x >>= f) (r.bind p) := by
  intro s hs
  have hrun := hx s hs
  cases r with
  | none =>
      intro b s' hbind
      obtain ⟨a, s₁, hmid, hrest⟩ := bind_run.mp hbind
      exact hbad a s₁ (hrun a s₁ hmid) b s' hrest
  | some a =>
      have hstep : (x >>= f) s = f a s := by
        show (x s).bind _ = _
        rw [hrun]
        rfl
      have hrest := hf a rfl s hs
      show match p a with
        | some b => (x >>= f) s = some (b, s)
        | none => ∀ b s', (x >>= f) s = some (b, s') → ¬ Good s'
      rw [hstep]
      exact hrest

theorem Gives.map (hx : Gives Good x r) (f : α → β) :
    Gives Good (x >>= fun a => pure (f a)) (r.map f) := by
  rw [Option.map_eq_bind]
  exact hx.bind (fun a _ => gives_pure (f a)) fun a => keeps_pure (f a)

theorem gives_ite {c : Prop} [Decidable c] {y : StateT σ Option α} {q : Option α}
    (hx : c → Gives Good x r) (hy : ¬ c → Gives Good y q) :
    Gives Good (if c then x else y) (if c then r else q) := by
  split
  next h => exact hx h
  next h => exact hy h

theorem Gives.eq_some_iff (hx : Gives Good x r) (hs : Good s) {a : α} :
    r = some a ↔ x s = some (a, s) := by
  have hrun := hx s hs
  cases r with
  | none => exact iff_of_false (by nofun) fun h => hrun a s h hs
  | some b =>
      have hrun : x s = some (b, s) := hrun
      rw [hrun]
      constructor
      · rintro ⟨⟩
        rfl
      · rintro ⟨⟩
        rfl

end

/-- Where the first computation comes to an end, the second ends the same. -/
def Below (x y : StateT σ Option α) : Prop := ∀ s r, x s = some r → y s = some r

section
variable {x x' y y' : StateT σ Option α}

theorem below_refl (x : StateT σ Option α) : Below x x := fun _ _ h => h

theorem below_none : Below ((fun _ => none) : StateT σ Option α) y := by
  intro s r hrun
  cases hrun

theorem Below.bind {f g : α → StateT σ Option β} (hx : Below x y) (hf : ∀ a, Below (f a) (g a)) :
    Below (x >>= f) (y >>= g) := by
  intro s r hrun
  obtain ⟨a, s₁, hmid, hrest⟩ := bind_run.mp hrun
  exact bind_run.mpr ⟨a, s₁, hx s _ hmid, hf a s₁ r hrest⟩

theorem below_ite {c : Prop} [Decidable c] (hx : c → Below x y) (hx' : ¬ c → Below x' y') :
    Below (if c then x else x') (if c then y else y') := by
  split
  next h => exact hx h
  next h => exact hx' h

end

end FlightRec.Hoare
