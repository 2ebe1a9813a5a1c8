/-
# `FlightRec.Lib.CallStack` — call stacks of a run in which each step may push or pop

A run is a sequence of steps numbered from 1.  A step may enter a new
activation (`push`), and a step may be the last one of the activation that
executes it (`pop`), in which case that activation is gone at the next step.
Activations are named by the number of the step that entered them, so that two
activations of one routine stay different.

The only observation this module is interested in is the *height* of the stack
at every step.  The results say how much the heights alone reveal:

    the frame under an activation never changes while it lives     (`stackAt_frame`)
    an activation always executes at one and the same height        (`height_of_running`)
    the last step of height `d` up to `n` runs the activation
    that is at height `d` of the stack at `n`                       (`running_of_last`)
    the first later step of smaller height runs the caller          (`running_of_firstBelow`)
-/
import Mathlib.Data.List.Basic
import Mathlib.Data.List.Sort

namespace FlightRec.CallStack

section
variable (push pop : Nat → Bool)

/-- What step `n` leaves of the stack: the running activation goes if `n` was its last step. -/
def leave (n : Nat) (st : List Nat) : List Nat :=
  if pop n then st.tail else st

/-- What step `n` adds to the stack: itself, if it enters an activation. -/
def enter (n : Nat) (st : List Nat) : List Nat :=
  if push n then n :: st else st

/-- The live activations while step `n` executes, innermost first. -/
def stackAt : Nat → List Nat
  | 0 => []
  | n + 1 => enter push (n + 1) (leave pop n (stackAt n))

/-- The number of live activations while step `n` executes. -/
def height (n : Nat) : Nat := (stackAt push pop n).length

/-- The activation that executes step `n`. -/
def running (n : Nat) : Option Nat := (stackAt push pop n).head?

end

variable {push pop : Nat → Bool}

/-! ## Shape of the stack -/

theorem leave_suffix (n : Nat) (st : List Nat) : leave pop n st <:+ st := by
  unfold leave
  split
  · exact List.tail_suffix st
  · exact List.suffix_refl st

theorem stackAt_bounds : ∀ {n p : Nat}, p ∈ stackAt push pop n → 1 ≤ p ∧ p ≤ n
  | 0, _, h => by cases h
  | n + 1, p, h => by
      have old : p ∈ leave pop n (stackAt push pop n) → 1 ≤ p ∧ p ≤ n + 1 := fun hp => by
        have := stackAt_bounds ((leave_suffix n _).mem hp)
        omega
      simp only [stackAt, enter] at h
      split at h
      · rcases List.mem_cons.mp h with rfl | hp
        · omega
        · exact old hp
      · exact old h

theorem stackAt_sorted : ∀ n : Nat, (stackAt push pop n).Pairwise (· > ·)
  | 0 => List.Pairwise.nil
  | n + 1 => by
      have rest : (leave pop n (stackAt push pop n)).Pairwise (· > ·) :=
        (stackAt_sorted n).sublist (leave_suffix n _).sublist
      simp only [stackAt, enter]
      split
      · refine List.pairwise_cons.mpr ⟨fun q hq => ?_, rest⟩
        have := stackAt_bounds ((leave_suffix n _).mem hq)
        omega
      · exact rest

theorem stackAt_top {p : Nat} {a b : List Nat} (h : stackAt push pop p = a ++ p :: b) :
    a = [] := by
  cases a with
  | nil => rfl
  | cons q a =>
      have hq : q ∈ stackAt push pop p := by rw [h]; simp
      have sorted : (stackAt push pop p).Pairwise (· > ·) := stackAt_sorted p
      rw [h] at sorted
      have : q > p := (List.pairwise_cons.mp sorted).1 p (by simp)
      have := (stackAt_bounds hq).2
      omega

/-! ## The frame below an activation -/

theorem stackAt_frame_pred {n p : Nat} {a b : List Nat} (hp : p ≤ n)
    (h : stackAt push pop (n + 1) = a ++ p :: b) :
    ∃ a', stackAt push pop n = a' ++ p :: b := by
  have kept : ∃ a', leave pop n (stackAt push pop n) = a' ++ p :: b := by
    simp only [stackAt, enter] at h
    split at h
    · cases a with
      | nil =>
          have : n + 1 = p := (List.cons.inj h).1
          omega
      | cons q a => exact ⟨a, (List.cons.inj h).2⟩
    · exact ⟨a, h⟩
  obtain ⟨a', ha'⟩ := kept
  have suffix : leave pop n (stackAt push pop n) <:+ stackAt push pop n := leave_suffix n _
  obtain ⟨t, ht⟩ := suffix
  exact ⟨t ++ a', by rw [← ht, ha', List.append_assoc]⟩

theorem stackAt_frame {p : Nat} {b : List Nat} :
    ∀ {n : Nat} {a : List Nat}, stackAt push pop n = a ++ p :: b →
      ∀ {k : Nat}, p ≤ k → k ≤ n → ∃ a', stackAt push pop k = a' ++ p :: b
  | 0, a, h, _, _, _ => by
      have hl := congrArg List.length h
      simp [stackAt] at hl
  | n + 1, a, h, k, hpk, hkn => by
      by_cases hk : k = n + 1
      · exact ⟨a, hk ▸ h⟩
      · obtain ⟨a', ha'⟩ := stackAt_frame_pred (by omega) h
        exact stackAt_frame ha' hpk (by omega)

theorem stackAt_entry {n p : Nat} {a b : List Nat} (h : stackAt push pop n = a ++ p :: b) :
    stackAt push pop p = p :: b := by
  have hp : p ≤ n := (stackAt_bounds (by rw [h]; simp : p ∈ stackAt push pop n)).2
  obtain ⟨a', ha'⟩ := stackAt_frame h (Nat.le_refl p) hp
  rw [ha', stackAt_top ha', List.nil_append]

theorem running_eq_some {n p : Nat} :
    running push pop n = some p ↔ ∃ b, stackAt push pop n = p :: b := by
  unfold running
  cases stackAt push pop n with
  | nil => simp
  | cons q b => simp

/-- An activation executes only at the height it was entered at. -/
theorem height_of_running {m n p : Nat} (hm : running push pop m = some p)
    (hn : running push pop n = some p) : height push pop m = height push pop n := by
  obtain ⟨b, hb⟩ := running_eq_some.mp hm
  obtain ⟨c, hc⟩ := running_eq_some.mp hn
  have same : p :: b = p :: c :=
    (stackAt_entry (a := []) hb).symm.trans (stackAt_entry (a := []) hc)
  simp only [height, hb, hc, same]

/-! ## What the heights reveal -/

section
variable {n k p : Nat} {a b : List Nat}

theorem running_of_height (h : stackAt push pop n = a ++ p :: b)
    (hh : height push pop n ≤ b.length + 1) : running push pop n = some p := by
  have : a = [] := by
    simp only [height, h, List.length_append, List.length_cons] at hh
    exact List.eq_nil_of_length_eq_zero (by omega)
  exact running_eq_some.mpr ⟨b, by rw [h, this, List.nil_append]⟩

/-- **The last step of a height.**  If `p` is live at `n` on a frame `b`, then
the last step up to `n` whose height is that of `p` is executed by `p`, and no
step up to `n` executed by `p` comes after it. -/
theorem running_of_last (h : stackAt push pop n = a ++ p :: b) (hk : k ≤ n)
    (hd : height push pop k = b.length + 1)
    (last : ∀ j ≤ n, height push pop j = b.length + 1 → j ≤ k) :
    running push pop k = some p ∧
      ∀ j ≤ n, running push pop j = some p → j ≤ k := by
  have entry : running push pop p = some p := running_eq_some.mpr ⟨b, stackAt_entry h⟩
  have hp : height push pop p = b.length + 1 := by
    simp only [height, stackAt_entry h, List.length_cons]
  have hpn : p ≤ n := (stackAt_bounds (by rw [h]; simp : p ∈ stackAt push pop n)).2
  have hpk : p ≤ k := last p hpn hp
  constructor
  · obtain ⟨a', ha'⟩ := stackAt_frame h hpk hk
    exact running_of_height ha' (le_of_eq hd)
  · intro j hj hrun
    exact last j hj ((height_of_running hrun entry).trans hp)

theorem caller_step {c q : Nat} (h : stackAt push pop k = q :: (a ++ c :: b)) :
    ∃ a', stackAt push pop (k + 1) = a' ++ c :: b := by
  have left : ∃ a', leave pop k (stackAt push pop k) = a' ++ c :: b := by
    rw [h, leave]
    split
    · exact ⟨a, rfl⟩
    · exact ⟨q :: a, rfl⟩
  obtain ⟨a', ha'⟩ := left
  rw [stackAt, ha', enter]
  split
  · exact ⟨(k + 1) :: a', rfl⟩
  · exact ⟨a', rfl⟩

/-- As long as the height does not drop to that of the caller, the caller's
frame stays and something runs on top of it. -/
theorem caller_stays {c : Nat} (h : stackAt push pop n = p :: c :: b) :
    ∀ {k : Nat}, n ≤ k → (∀ j, n < j → j ≤ k → b.length + 1 < height push pop j) →
      ∃ q a, stackAt push pop k = q :: (a ++ c :: b)
  | 0, hn, _ => by
      have : n = 0 := by omega
      exact ⟨p, [], this ▸ h⟩
  | k + 1, hn, above => by
      by_cases hk : n = k + 1
      · exact ⟨p, [], hk ▸ h⟩
      · obtain ⟨q, a, ha⟩ := caller_stays h (by omega : n ≤ k)
          (fun j hj hjk => above j hj (by omega))
        obtain ⟨a', ha'⟩ := caller_step ha
        have high := above (k + 1) (by omega) (Nat.le_refl _)
        cases a' with
        | nil => simp [height, ha'] at high
        | cons q' a' => exact ⟨q', a', ha'⟩

theorem caller_waits {c q : Nat} (h : stackAt push pop k = q :: (a ++ c :: b)) :
    running push pop k ≠ some c := by
  intro hc
  have hq : q = c := by
    simpa [running, h] using hc
  have sorted : (stackAt push pop k).Pairwise (· > ·) := stackAt_sorted k
  rw [h] at sorted
  have : q > c := (List.pairwise_cons.mp sorted).1 c (by simp)
  omega

/-- **The first lower step.**  If `c` called the activation that executes `n`,
the first step after `n` of smaller height is executed by `c`, and it is the
first step after `n` that `c` executes. -/
theorem running_of_firstBelow {c : Nat} (h : stackAt push pop n = p :: c :: b)
    (hk : n < k) (low : height push pop k < height push pop n)
    (first : ∀ j, n < j → j < k → height push pop n ≤ height push pop j) :
    running push pop k = some c ∧ ∀ j, n < j → j < k → running push pop j ≠ some c := by
  have hn : height push pop n = b.length + 2 := by
    simp only [height, h, List.length_cons]
  obtain ⟨k, rfl⟩ : ∃ m, k = m + 1 := ⟨k - 1, by omega⟩
  have above : ∀ j, n < j → j < k + 1 → b.length + 1 < height push pop j := by
    intro j hj hjk
    have := first j hj hjk
    omega
  constructor
  · obtain ⟨q, a, ha⟩ := caller_stays h (by omega : n ≤ k) (fun j hj hjk => above j hj (by omega))
    have drop : height push pop (k + 1) ≤ b.length + 1 := by omega
    obtain ⟨a', ha'⟩ := caller_step ha
    exact running_of_height ha' drop
  · intro j hj hjk
    obtain ⟨q, a, ha⟩ := caller_stays h (Nat.le_of_lt hj)
      (fun i hi hij => above i hi (by omega))
    exact caller_waits ha

theorem caller_never {c m : Nat} (h : stackAt push pop n = p :: c :: b)
    (high : ∀ j, n < j → j ≤ m → height push pop n ≤ height push pop j) :
    ∀ j, n < j → j ≤ m → running push pop j ≠ some c := by
  intro j hj hjm
  have hn : height push pop n = b.length + 2 := by
    simp only [height, h, List.length_cons]
  obtain ⟨q, a, ha⟩ := caller_stays h (Nat.le_of_lt hj) (fun i hi hij => by
    have := high i hi (by omega)
    omega)
  exact caller_waits ha

/-- A live activation that ran at `n` also runs every step whose height is not greater. -/
theorem running_of_live {t : Nat} (hn : running push pop n = some p)
    (live : p ∈ stackAt push pop t) (hh : height push pop t ≤ height push pop n) :
    running push pop t = some p := by
  obtain ⟨b, hb⟩ := running_eq_some.mp hn
  obtain ⟨a, c, hc⟩ := List.append_of_mem live
  have same : p :: b = p :: c :=
    (stackAt_entry (a := []) hb).symm.trans (stackAt_entry hc)
  have hbc : b = c := (List.cons.inj same).2
  refine running_of_height hc ?_
  simpa only [height, hb, List.length_cons, hbc] using hh

end

end FlightRec.CallStack
