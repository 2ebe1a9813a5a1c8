/-
# `FlightRec.Lib.Chain` — following a partial function

A chain of references has no end only if it comes back to where it was.  So in a table
without cycles it can be followed with the number of rows for a bound
(`mem_chain_iff`).
-/
import Mathlib.Data.List.Basic
import Mathlib.Logic.Relation

namespace FlightRec.Chain

variable {α : Type*} (next : α → Option α)

/-- What is found on the way, at most so many. -/
def chain : Nat → α → List α
  | 0, _ => []
  | fuel + 1, a => a :: ((next a).map (chain fuel)).getD []

/-- The next one. -/
def Next (a b : α) : Prop := next a = some b

/-- Nothing comes back to where it was. -/
def Acyclic : Prop := ∀ a, ¬ Relation.TransGen (Next next) a a

/-- The chain ends in so many steps, and here. -/
inductive Steps : Nat → α → α → Prop
  | done {a : α} : next a = none → Steps 0 a a
  | step {n : Nat} {a b c : α} : next a = some b → Steps n b c → Steps (n + 1) a c

/-- One is so many steps behind the other. -/
inductive Walk : Nat → α → α → Prop
  | refl (a : α) : Walk 0 a a
  | step {n : Nat} {a b c : α} : next a = some b → Walk n b c → Walk (n + 1) a c

section
variable {next} {a b c x : α}

theorem acyclic_of_lt {f : α → Nat} (h : ∀ a b, next a = some b → f b < f a) : Acyclic next := by
  have hless : ∀ a b, Relation.TransGen (Next next) a b → f b < f a := by
    intro a b hab
    induction hab with
    | single hnext => exact h _ _ hnext
    | tail _ hnext ih => exact Nat.lt_trans (h _ _ hnext) ih
  intro a ha
  exact Nat.lt_irrefl _ (hless a a ha)

theorem chain_succ_none {fuel : Nat} (h : next a = none) : chain next (fuel + 1) a = [a] := by
  rw [chain, h]
  rfl

theorem chain_succ_some {fuel : Nat} (h : next a = some b) :
    chain next (fuel + 1) a = a :: chain next fuel b := by
  rw [chain, h]
  rfl

theorem Steps.ends {n : Nat} (h : Steps next n a c) : next c = none := by
  induction h with
  | done hnone => exact hnone
  | step _ _ ih => exact ih

theorem Steps.unique {n m : Nat} (h : Steps next n a c) : Steps next m a c → n = m := by
  induction h generalizing m with
  | done hnone =>
      intro h'
      cases h' with
      | done => rfl
      | step hnext => cases hnone.symm.trans hnext
  | step hnext _ ih =>
      intro h'
      cases h' with
      | done hnone => cases hnone.symm.trans hnext
      | step hnext' hrest =>
          cases hnext.symm.trans hnext'
          exact congrArg (· + 1) (ih hrest)

/-- A chain that ends passes each row of the table once at most. -/
theorem Steps.le_length [DecidableEq α] :
    ∀ {n : Nat} {a : α} {rows : List α}, Steps next n a c →
      (∀ m y z, m ≤ n → Steps next m y c → next y = some z → y ∈ rows) → n ≤ rows.length
  | 0, _, _, _, _ => Nat.zero_le _
  | n + 1, a, rows, h, hrows => by
      cases h with
      | step hnext hrest =>
          have ha : a ∈ rows := hrows (n + 1) a _ (Nat.le_refl _) (.step hnext hrest) hnext
          have hlength : n ≤ (rows.erase a).length := by
            refine Steps.le_length hrest fun m y z hm hy hyz => ?_
            refine (List.mem_erase_of_ne ?_).mpr (hrows m y z (Nat.le_succ_of_le hm) hy hyz)
            rintro rfl
            exact absurd (hy.unique (.step hnext hrest)) (Nat.ne_of_lt (Nat.lt_succ_of_le hm))
          rw [List.length_erase_of_mem ha] at hlength
          have := List.length_pos_of_mem ha
          omega

theorem Walk.tail {n : Nat} (h : Walk next n a b) (hbc : next b = some c) :
    Walk next (n + 1) a c := by
  induction h with
  | refl _ => exact .step hbc (.refl c)
  | step hnext _ ih => exact .step hnext (ih hbc)

theorem Walk.le_length [DecidableEq α] (hacyclic : Acyclic next) {n : Nat} {rows : List α}
    (h : Walk next n a b)
    (hrows : ∀ y z, Relation.ReflTransGen (Next next) a y → next y = some z → y ∈ rows) :
    n ≤ rows.length := by
  induction h generalizing rows with
  | refl _ => exact Nat.zero_le _
  | @step n a b c hnext _ ih =>
      have ha : a ∈ rows := hrows a b .refl hnext
      have hrest : n ≤ (rows.erase a).length := by
        refine ih fun y z hby hyz => ?_
        refine (List.mem_erase_of_ne ?_).mpr (hrows y z (.head hnext hby) hyz)
        rintro rfl
        exact hacyclic y (Relation.TransGen.head' hnext hby)
      rw [List.length_erase_of_mem ha] at hrest
      have := List.length_pos_of_mem ha
      omega

theorem reaches_of_mem_chain : ∀ {fuel : Nat} {a : α}, x ∈ chain next fuel a →
    Relation.ReflTransGen (Next next) a x
  | 0, _, h => by cases h
  | fuel + 1, a, h => by
      cases hnext : next a with
      | none =>
          rw [chain_succ_none hnext, List.mem_singleton] at h
          exact h ▸ .refl
      | some b =>
          rw [chain_succ_some hnext] at h
          rcases List.mem_cons.mp h with rfl | h
          · exact .refl
          · exact .head hnext (reaches_of_mem_chain h)

theorem mem_chain_of_reaches [DecidableEq α] (hacyclic : Acyclic next) :
    ∀ {fuel : Nat} {a : α} {rows : List α},
      (∀ y z, Relation.ReflTransGen (Next next) a y → next y = some z → y ∈ rows) →
      rows.length < fuel → Relation.ReflTransGen (Next next) a x → x ∈ chain next fuel a
  | 0, _, _, _, hfuel, _ => absurd hfuel (Nat.not_lt_zero _)
  | fuel + 1, a, rows, hrows, hfuel, h => by
      rcases Relation.ReflTransGen.cases_head h with rfl | ⟨b, hab, hbx⟩
      · exact List.mem_cons_self
      · have hnext : next a = some b := hab
        rw [chain_succ_some hnext]
        have ha := hrows a b .refl hnext
        have hrest (y z : α) (hby : Relation.ReflTransGen (Next next) b y)
            (hyz : next y = some z) : y ∈ rows.erase a := by
          refine (List.mem_erase_of_ne ?_).mpr (hrows y z (.head hab hby) hyz)
          rintro rfl
          exact hacyclic y (Relation.TransGen.head' hab hby)
        have hlength : (rows.erase a).length < fuel := by
          rw [List.length_erase_of_mem ha]
          have := List.length_pos_of_mem ha
          omega
        exact List.mem_cons_of_mem _ (mem_chain_of_reaches hacyclic hrest hlength hbx)

/-- With the number of rows for a bound the whole chain is followed. -/
theorem mem_chain_iff [DecidableEq α] (hacyclic : Acyclic next) {rows : List α}
    (hrows : ∀ y z, next y = some z → y ∈ rows) {fuel : Nat} (hfuel : rows.length < fuel) :
    x ∈ chain next fuel a ↔ Relation.ReflTransGen (Next next) a x :=
  ⟨reaches_of_mem_chain,
    mem_chain_of_reaches hacyclic (fun y z _ hyz => hrows y z hyz) hfuel⟩

end

end FlightRec.Chain
