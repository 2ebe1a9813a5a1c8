/-
# `FlightRec.Lib.Scanner` — patterns, and scanners that take the longest match

A scanner is a list of rules, each a pattern with an action.  Of the beginnings of the
text that a rule matches it takes the longest, of the rules that match it the first, and
goes on behind it.  `Pattern.Matches` says what a pattern matches and `Pattern.accepts`
decides it, by derivatives; classes of characters are predicates, so that a pattern can
leave out a few characters of any number.

    what a scanner does with a text    (`longest`, `scanText`)
    one match at a time                (`longest_append`)
    words with gaps, read back         (`scan_layout`)

Which characters can stand where in the words of a pattern is found on the pattern
(`mayContain`, `mayStart`, `mayEnd`, `mayFollow`, `headsIn`).
-/
import Mathlib.Data.List.Basic

namespace FlightRec.Scanner

universe u v
variable {α : Type u} {β : Type v}

/-! ## Patterns -/

inductive Pattern (α : Type u) where
  | zero
  | one
  | char (a : α)
  | cls (p : α → Bool)
  | seq (r s : Pattern α)
  | alt (r s : Pattern α)
  | star (r : Pattern α)

namespace Pattern

/-- The characters, one after the other. -/
def lit : List α → Pattern α
  | [] => .one
  | a :: as => .seq (.char a) (lit as)

def opt (r : Pattern α) : Pattern α := .alt .one r

def plus (r : Pattern α) : Pattern α := .seq r (.star r)

def oneOf : List α → Pattern α
  | [] => .zero
  | a :: as => .alt (.char a) (oneOf as)

inductive Matches : Pattern α → List α → Prop where
  | one : Matches .one []
  | char (a : α) : Matches (.char a) [a]
  | cls {p : α → Bool} {a : α} : p a = true → Matches (.cls p) [a]
  | seq {r s : Pattern α} {x y : List α} : Matches r x → Matches s y → Matches (.seq r s) (x ++ y)
  | left {r s : Pattern α} {x : List α} : Matches r x → Matches (.alt r s) x
  | right {r s : Pattern α} {x : List α} : Matches s x → Matches (.alt r s) x
  | nil {r : Pattern α} : Matches (.star r) []
  | cons {r : Pattern α} {x y : List α} : Matches r x → Matches (.star r) y →
      Matches (.star r) (x ++ y)

theorem matches_lit_iff {x as : List α} : (lit as).Matches x ↔ x = as := by
  induction as generalizing x with
  | nil =>
      constructor
      · rintro ⟨⟩
        rfl
      · rintro rfl
        exact .one
  | cons a as ih =>
      constructor
      · intro h
        cases h with
        | seq ha has =>
            cases ha
            rw [ih.mp has]
            rfl
      · rintro rfl
        exact .seq (.char a) (ih.mpr rfl)

/-- Whether nothing is matched, too. -/
def nullable : Pattern α → Bool
  | .zero | .char _ | .cls _ => false
  | .one | .star _ => true
  | .seq r s => r.nullable && s.nullable
  | .alt r s => r.nullable || s.nullable

theorem nullable_iff (r : Pattern α) : r.nullable = true ↔ r.Matches [] := by
  constructor
  · intro h
    induction r with
    | zero | char a | cls p => cases h
    | one => exact .one
    | star r => exact .nil
    | seq r s ihr ihs =>
        obtain ⟨hr, hs⟩ := Bool.and_eq_true_iff.mp h
        exact .seq (ihr hr) (ihs hs)
    | alt r s ihr ihs =>
        obtain hr | hs := Bool.or_eq_true_iff.mp h
        · exact .left (ihr hr)
        · exact .right (ihs hs)
  · intro h
    generalize hx : ([] : List α) = x at h
    induction h with
    | one | nil => rfl
    | char a => cases hx
    | cls hp => cases hx
    | seq _ _ ihr ihs =>
        obtain ⟨rfl, rfl⟩ := List.append_eq_nil_iff.mp hx.symm
        exact Bool.and_eq_true_iff.mpr ⟨ihr rfl, ihs rfl⟩
    | left _ ih => exact Bool.or_eq_true_iff.mpr (.inl (ih hx))
    | right _ ih => exact Bool.or_eq_true_iff.mpr (.inr (ih hx))
    | cons => rfl

section
variable [DecidableEq α]

/-- What is left to match behind a character. -/
def deriv (a : α) : Pattern α → Pattern α
  | .zero | .one => .zero
  | .char b => if b = a then .one else .zero
  | .cls p => if p a then .one else .zero
  | .seq r s => if r.nullable then .alt (.seq (r.deriv a) s) (s.deriv a) else .seq (r.deriv a) s
  | .alt r s => .alt (r.deriv a) (s.deriv a)
  | .star r => .seq (r.deriv a) (.star r)

def accepts (r : Pattern α) : List α → Bool
  | [] => r.nullable
  | a :: as => (r.deriv a).accepts as

theorem Matches.of_deriv {a : α} {x : List α} {r : Pattern α} (h : (r.deriv a).Matches x) :
    r.Matches (a :: x) := by
  induction r generalizing x with
  | zero | one => cases h
  | char b =>
      unfold deriv at h
      split at h
      next hb =>
        cases h
        exact hb ▸ .char b
      next => cases h
  | cls p =>
      unfold deriv at h
      split at h
      next hp =>
        cases h
        exact .cls hp
      next => cases h
  | seq r s ihr ihs =>
      have hfirst {x : List α} (h : Matches (.seq (r.deriv a) s) x) :
          Matches (.seq r s) (a :: x) := by
        cases h with
        | seq hr hs => exact .seq (ihr hr) hs
      unfold deriv at h
      split at h
      next hnull =>
        cases h with
        | left h => exact hfirst h
        | right h => exact .seq ((nullable_iff r).mp hnull) (ihs h)
      next => exact hfirst h
  | alt r s ihr ihs =>
      cases h with
      | left h => exact .left (ihr h)
      | right h => exact .right (ihs h)
  | star r ih =>
      cases h with
      | seq hr hs => exact .cons (ih hr) hs

theorem Matches.deriv {a : α} {x : List α} {r : Pattern α} (h : r.Matches (a :: x)) :
    (r.deriv a).Matches x := by
  generalize hy : a :: x = y at h
  induction h generalizing x with
  | one | nil => cases hy
  | char b =>
      cases hy
      unfold Pattern.deriv
      rw [if_pos rfl]
      exact .one
  | cls hp =>
      cases hy
      unfold Pattern.deriv
      rw [if_pos hp]
      exact .one
  | @seq r s y z hr hs ihr ihs =>
      unfold Pattern.deriv
      cases y with
      | nil =>
          rw [if_pos ((nullable_iff r).mpr hr)]
          exact .right (ihs hy)
      | cons b y =>
          cases hy
          have hfirst : Matches (.seq (r.deriv a) s) (y ++ z) := .seq (ihr rfl) hs
          split
          · exact .left hfirst
          · exact hfirst
  | left _ ih => exact .left (ih hy)
  | right _ ih => exact .right (ih hy)
  | @cons r y z hr hs ihr ihs =>
      cases y with
      | nil => exact ihs hy
      | cons b y =>
          cases hy
          exact .seq (ihr rfl) hs

theorem accepts_iff (r : Pattern α) (x : List α) : r.accepts x = true ↔ r.Matches x := by
  induction x generalizing r with
  | nil => exact nullable_iff r
  | cons a x ih => exact (ih (r.deriv a)).trans ⟨Matches.of_deriv, Matches.deriv⟩

end

/-! ### What stands where in a word -/

/-- No word has more than one character. -/
def short : Pattern α → Bool
  | .zero | .one | .char _ | .cls _ => true
  | .alt r s => r.short && s.short
  | .seq _ _ | .star _ => false

/-- There is no word, by the form of the pattern. -/
def dead : Pattern α → Bool
  | .zero => true
  | .one | .char _ | .cls _ | .star _ => false
  | .seq r s => r.dead || s.dead
  | .alt r s => r.dead && s.dead

theorem Matches.length_le {r : Pattern α} {x : List α} (hshort : r.short = true)
    (h : r.Matches x) : x.length ≤ 1 := by
  induction h with
  | one => exact Nat.zero_le _
  | char a => exact Nat.le_refl _
  | cls hp => exact Nat.le_refl _
  | left _ ih => exact ih (Bool.and_eq_true_iff.mp hshort).1
  | right _ ih => exact ih (Bool.and_eq_true_iff.mp hshort).2
  | seq | nil | cons => cases hshort

theorem not_matches_of_dead {r : Pattern α} {x : List α} (hdead : r.dead = true) :
    ¬ r.Matches x := by
  intro h
  induction h with
  | one | nil => cases hdead
  | char a => cases hdead
  | cls hp => cases hdead
  | seq _ _ ihr ihs =>
      obtain hr | hs := Bool.or_eq_true_iff.mp hdead
      · exact ihr hr
      · exact ihs hs
  | left _ ih => exact ih (Bool.and_eq_true_iff.mp hdead).1
  | right _ ih => exact ih (Bool.and_eq_true_iff.mp hdead).2
  | cons => cases hdead

theorem neighbours_append {a b : α} {u v l m : List α} (h : u ++ v = l ++ a :: b :: m) :
    (∃ m', u = l ++ a :: b :: m') ∨ (u = l ++ [a] ∧ v = b :: m) ∨
      ∃ l', v = l' ++ a :: b :: m := by
  obtain ⟨k, hl, hv⟩ | ⟨k, hu, hm⟩ := List.append_eq_append_iff.mp h
  · exact .inr (.inr ⟨k, hv⟩)
  · cases k with
    | nil => exact .inr (.inr ⟨[], hm.symm⟩)
    | cons c k =>
        rw [List.cons_append, List.cons.injEq] at hm
        obtain ⟨rfl, hm⟩ := hm
        cases k with
        | nil => exact .inr (.inl ⟨hu, hm.symm⟩)
        | cons d k =>
            rw [List.cons_append, List.cons.injEq] at hm
            exact .inl ⟨k, hm.1 ▸ hu⟩

section
variable [DecidableEq α]

/-- A word may have the character in it. -/
def mayContain (a : α) : Pattern α → Bool
  | .zero | .one => false
  | .char b => b = a
  | .cls p => p a
  | .seq r s | .alt r s => r.mayContain a || s.mayContain a
  | .star r => r.mayContain a

/-- A word may start with the character. -/
def mayStart (a : α) : Pattern α → Bool
  | .zero | .one => false
  | .char b => b = a
  | .cls p => p a
  | .seq r s => r.mayStart a || (r.nullable && s.mayStart a)
  | .alt r s => r.mayStart a || s.mayStart a
  | .star r => r.mayStart a

/-- A word may end with the character. -/
def mayEnd (a : α) : Pattern α → Bool
  | .zero | .one => false
  | .char b => b = a
  | .cls p => p a
  | .seq r s => s.mayEnd a || (s.nullable && r.mayEnd a)
  | .alt r s => r.mayEnd a || s.mayEnd a
  | .star r => r.mayEnd a

/-- A word may have `b` right behind `a`. -/
def mayFollow (a b : α) : Pattern α → Bool
  | .zero | .one | .char _ | .cls _ => false
  | .seq r s => r.mayFollow a b || s.mayFollow a b || (r.mayEnd a && s.mayStart b)
  | .alt r s => r.mayFollow a b || s.mayFollow a b
  | .star r => r.mayFollow a b || (r.mayEnd a && r.mayStart b)

/-- All words start with a character of the list, except the empty one. -/
def headsIn (l : List α) : Pattern α → Bool
  | .zero | .one => true
  | .char a => a ∈ l
  | .cls _ => false
  | .seq r s => r.headsIn l && (!r.nullable || s.headsIn l)
  | .alt r s => r.headsIn l && s.headsIn l
  | .star r => r.headsIn l

/-- What is left to match behind a text. -/
def after (r : Pattern α) (x : List α) : Pattern α := x.foldl (fun r a => r.deriv a) r

variable {a b : α} {x : List α} {r : Pattern α}

theorem Matches.mayContain (h : r.Matches x) (ha : a ∈ x) : r.mayContain a = true := by
  induction h with
  | one | nil => cases ha
  | char b => exact decide_eq_true (List.mem_singleton.mp ha).symm
  | cls hp => exact List.mem_singleton.mp ha ▸ hp
  | seq _ _ ihr ihs =>
      obtain hx | hy := List.mem_append.mp ha
      · exact Bool.or_eq_true_iff.mpr (.inl (ihr hx))
      · exact Bool.or_eq_true_iff.mpr (.inr (ihs hy))
  | left _ ih => exact Bool.or_eq_true_iff.mpr (.inl (ih ha))
  | right _ ih => exact Bool.or_eq_true_iff.mpr (.inr (ih ha))
  | cons _ _ ihr ihs =>
      obtain hx | hy := List.mem_append.mp ha
      · exact ihr hx
      · exact ihs hy

theorem Matches.mayStart (h : r.Matches (a :: x)) : r.mayStart a = true := by
  generalize hy : a :: x = y at h
  induction h generalizing x with
  | one | nil => cases hy
  | char b =>
      cases hy
      exact decide_eq_true rfl
  | cls hp =>
      cases hy
      exact hp
  | @seq r s y z hr _ ihr ihs =>
      cases y with
      | nil =>
          have hnull := (nullable_iff r).mpr hr
          exact Bool.or_eq_true_iff.mpr (.inr (Bool.and_eq_true_iff.mpr ⟨hnull, ihs hy⟩))
      | cons b y =>
          cases hy
          exact Bool.or_eq_true_iff.mpr (.inl (ihr rfl))
  | left _ ih => exact Bool.or_eq_true_iff.mpr (.inl (ih hy))
  | right _ ih => exact Bool.or_eq_true_iff.mpr (.inr (ih hy))
  | @cons r y z _ _ ihr ihs =>
      cases y with
      | nil => exact ihs hy
      | cons b y =>
          cases hy
          exact ihr rfl

theorem Matches.mayEnd (h : r.Matches (x ++ [a])) : r.mayEnd a = true := by
  generalize hy : x ++ [a] = y at h
  induction h generalizing x with
  | one | nil => exact absurd hy (List.append_ne_nil_of_right_ne_nil _ (List.cons_ne_nil _ _))
  | char b =>
      have hsplit : x ++ [a] = [] ++ [b] := hy
      exact decide_eq_true (List.singleton_inj.mp (List.append_inj' hsplit rfl).2).symm
  | @cls p b hp =>
      have hsplit : x ++ [a] = [] ++ [b] := hy
      exact List.singleton_inj.mp (List.append_inj' hsplit rfl).2 ▸ hp
  | @seq r s y z _ hs ihr ihs =>
      obtain rfl | ⟨z, c, rfl⟩ := List.eq_nil_or_concat z
      · have hnull := (nullable_iff s).mpr hs
        exact Bool.or_eq_true_iff.mpr (.inr (Bool.and_eq_true_iff.mpr
          ⟨hnull, ihr (hy.trans (List.append_nil y))⟩))
      · rw [List.concat_eq_append, ← List.append_assoc] at hy
        obtain ⟨-, hac⟩ := List.append_inj' hy rfl
        exact Bool.or_eq_true_iff.mpr (.inl (ihs (by rw [hac, List.concat_eq_append])))
  | left _ ih => exact Bool.or_eq_true_iff.mpr (.inl (ih hy))
  | right _ ih => exact Bool.or_eq_true_iff.mpr (.inr (ih hy))
  | @cons r y z _ _ ihr ihs =>
      obtain rfl | ⟨z, c, rfl⟩ := List.eq_nil_or_concat z
      · exact ihr (hy.trans (List.append_nil y))
      · rw [List.concat_eq_append, ← List.append_assoc] at hy
        obtain ⟨-, hac⟩ := List.append_inj' hy rfl
        exact ihs (by rw [hac, List.concat_eq_append])

theorem Matches.mayFollow (h : r.Matches x) :
    ∀ l m : List α, x = l ++ a :: b :: m → r.mayFollow a b = true := by
  have hshort (c : α) (l m : List α) (hc : [c] = l ++ a :: b :: m) : False := by
    have hlength := congrArg List.length hc
    simp only [List.length_append, List.length_cons, List.length_nil] at hlength
    omega
  induction h with
  | one | nil =>
      intro l m hx
      exact absurd hx.symm (List.append_ne_nil_of_right_ne_nil _ (List.cons_ne_nil _ _))
  | char c => exact fun l m hx => (hshort c l m hx).elim
  | @cls p c hp => exact fun l m hx => (hshort c l m hx).elim
  | @seq r s y z hr hs ihr ihs =>
      intro l m hx
      simp only [Pattern.mayFollow, Bool.or_eq_true, Bool.and_eq_true]
      obtain ⟨m', hy⟩ | ⟨hy, hz⟩ | ⟨l', hz⟩ := neighbours_append hx
      · exact .inl (.inl (ihr l m' hy))
      · exact .inr ⟨(hy ▸ hr).mayEnd, (hz ▸ hs).mayStart⟩
      · exact .inl (.inr (ihs l' m hz))
  | left _ ih => exact fun l m hx => Bool.or_eq_true_iff.mpr (.inl (ih l m hx))
  | right _ ih => exact fun l m hx => Bool.or_eq_true_iff.mpr (.inr (ih l m hx))
  | @cons r y z hr hs ihr ihs =>
      intro l m hx
      obtain ⟨m', hy⟩ | ⟨hy, hz⟩ | ⟨l', hz⟩ := neighbours_append hx
      · exact Bool.or_eq_true_iff.mpr (.inl (ihr l m' hy))
      · have hstart : (Pattern.star r).mayStart b = true := (hz ▸ hs).mayStart
        exact Bool.or_eq_true_iff.mpr (.inr (Bool.and_eq_true_iff.mpr
          ⟨(hy ▸ hr).mayEnd, hstart⟩))
      · exact ihs l' m hz

theorem Matches.headsIn {l : List α} (hin : r.headsIn l = true) (h : r.Matches (a :: x)) :
    a ∈ l := by
  generalize hy : a :: x = y at h
  induction h generalizing x with
  | one | nil => cases hy
  | char b =>
      cases hy
      exact of_decide_eq_true hin
  | cls hp => cases hin
  | @seq r s y z hr _ ihr ihs =>
      obtain ⟨hinr, hins⟩ := Bool.and_eq_true_iff.mp hin
      cases y with
      | nil =>
          rw [(nullable_iff r).mpr hr] at hins
          exact ihs hins hy
      | cons b y =>
          cases hy
          exact ihr hinr rfl
  | left _ ih => exact ih (Bool.and_eq_true_iff.mp hin).1 hy
  | right _ ih => exact ih (Bool.and_eq_true_iff.mp hin).2 hy
  | @cons r y z _ _ ihr ihs =>
      cases y with
      | nil => exact ihs hin hy
      | cons b y =>
          cases hy
          exact ihr hin rfl

theorem Matches.after {y : List α} (h : r.Matches (x ++ y)) : (r.after x).Matches y := by
  induction x generalizing r with
  | nil => exact h
  | cons a x ih => exact ih h.deriv

end

end Pattern

/-! ## Scanners -/

/-- What is done with a match. -/
inductive Action (β : Type v) where
  | skip
  | token (b : β)
  | reject
  deriving DecidableEq, Repr

structure Rule (α : Type u) (β : Type v) where
  pattern : Pattern α
  action : List α → Action β

section
variable [DecidableEq α] (rules : List (Rule α β))

/-- The action for a text that is matched whole, by the first rule that does. -/
def classify (x : List α) : Option (Action β) :=
  (rules.find? fun r => r.pattern.accepts x).map fun r => r.action x

/-- The longest match of at most so many characters. -/
def longestUpTo (text : List α) : Nat → Option (Action β × Nat)
  | 0 => none
  | n + 1 =>
      match classify rules (text.take (n + 1)) with
      | some a => some (a, n + 1)
      | none => longestUpTo text n

def longest (text : List α) : Option (Action β × Nat) := longestUpTo rules text text.length

/-- The tokens of the text, unless a part of it is rejected or not matched at all.  The
first argument bounds the number of matches. -/
def scanUpTo : Nat → List α → Option (List β)
  | _, [] => some []
  | 0, _ :: _ => none
  | fuel + 1, a :: as =>
      match longest rules (a :: as) with
      | some (.token b, n) => (scanUpTo fuel ((a :: as).drop n)).map (b :: ·)
      | some (.skip, n) => scanUpTo fuel ((a :: as).drop n)
      | some (.reject, _) | none => none

/-- A match takes at least one character. -/
def scanText (text : List α) : Option (List β) := scanUpTo rules text.length text

/-- No rule matches `x` with anything of what is behind it. -/
def Maximal (x rest : List α) : Prop :=
  ∀ u, u ≠ [] → u <+: rest → classify rules (x ++ u) = none

variable {rules}

theorem classify_eq_none {x : List α} (h : ∀ r ∈ rules, ¬ r.pattern.Matches x) :
    classify rules x = none := by
  rw [classify, Option.map_eq_none_iff, List.find?_eq_none]
  intro r hr haccepts
  exact h r hr ((r.pattern.accepts_iff x).mp haccepts)

theorem classify_ne_none {r : Rule α β} {x : List α} (hr : r ∈ rules) (h : r.pattern.Matches x) :
    classify rules x ≠ none := by
  intro hnone
  rw [classify, Option.map_eq_none_iff, List.find?_eq_none] at hnone
  exact hnone r hr ((r.pattern.accepts_iff x).mpr h)

theorem exists_rule_of_classify {x : List α} {a : Action β} (h : classify rules x = some a) :
    ∃ r ∈ rules, r.pattern.Matches x ∧ r.action x = a := by
  obtain ⟨r, hfind, hact⟩ := Option.map_eq_some_iff.mp h
  have haccepts := List.find?_some hfind
  exact ⟨r, List.mem_of_find?_eq_some hfind, (r.pattern.accepts_iff x).mp haccepts, hact⟩

theorem longest_append {x rest : List α} {a : Action β} (hx : x ≠ [])
    (ha : classify rules x = some a) (hmax : Maximal rules x rest) :
    longest rules (x ++ rest) = some (a, x.length) := by
  have hbehind (k : Nat) (hk : k ≤ rest.length) :
      longestUpTo rules (x ++ rest) (x.length + k) = some (a, x.length) := by
    induction k with
    | zero =>
        obtain ⟨n, hn⟩ : ∃ n, x.length = n + 1 := Nat.exists_eq_succ_of_ne_zero fun h =>
          hx (List.length_eq_zero_iff.mp h)
        have htake : (x ++ rest).take (n + 1) = x := by
          rw [← hn]
          exact List.take_left
        rw [Nat.add_zero, hn, longestUpTo, htake, ha]
    | succ k ih =>
        have hnone : classify rules (x ++ rest.take (k + 1)) = none := by
          refine hmax _ (fun h => ?_) (List.take_prefix _ _)
          have hlength := congrArg List.length h
          rw [List.length_take, List.length_nil] at hlength
          omega
        have htake : (x ++ rest).take (x.length + k + 1) = x ++ rest.take (k + 1) := by
          rw [Nat.add_assoc, List.take_length_add_append]
        rw [← Nat.add_assoc, longestUpTo, htake, hnone]
        exact ih (by omega)
  rw [longest, List.length_append]
  exact hbehind _ (Nat.le_refl _)

theorem scanUpTo_token {x rest : List α} {b : β} {fuel : Nat} (hx : x ≠ [])
    (hb : classify rules x = some (.token b)) (hmax : Maximal rules x rest) :
    scanUpTo rules (fuel + 1) (x ++ rest) = (scanUpTo rules fuel rest).map (b :: ·) := by
  have hlongest := longest_append hx hb hmax
  have hdrop : (x ++ rest).drop x.length = rest := List.drop_left
  cases x with
  | nil => exact absurd rfl hx
  | cons c x =>
      rw [List.cons_append] at hlongest hdrop ⊢
      rw [scanUpTo, hlongest]
      dsimp only
      rw [hdrop]

theorem scanUpTo_skip {x rest : List α} {fuel : Nat} (hx : x ≠ [])
    (hskip : classify rules x = some .skip) (hmax : Maximal rules x rest) :
    scanUpTo rules (fuel + 1) (x ++ rest) = scanUpTo rules fuel rest := by
  have hlongest := longest_append hx hskip hmax
  have hdrop : (x ++ rest).drop x.length = rest := List.drop_left
  cases x with
  | nil => exact absurd rfl hx
  | cons c x =>
      rw [List.cons_append] at hlongest hdrop ⊢
      rw [scanUpTo, hlongest]
      dsimp only
      rw [hdrop]

/-- No text is left over: a scanner that takes each character takes something of each text. -/
theorem longest_ne_none (hall : ∀ a, classify rules [a] ≠ none) {text : List α}
    (htext : text ≠ []) : longest rules text ≠ none := by
  have hone (n : Nat) : longestUpTo rules text (n + 1) ≠ none := by
    induction n with
    | zero =>
        obtain ⟨a, as, rfl⟩ := List.exists_cons_of_ne_nil htext
        obtain ⟨action, haction⟩ := Option.ne_none_iff_exists'.mp (hall a)
        have htake : (a :: as).take (0 + 1) = [a] := rfl
        rw [longestUpTo, htake, haction]
        exact Option.some_ne_none _
    | succ n ih =>
        rw [longestUpTo]
        split
        · exact Option.some_ne_none _
        · exact ih
  obtain ⟨n, hn⟩ := Nat.exists_eq_succ_of_ne_zero fun h =>
    htext (List.length_eq_zero_iff.mp h)
  rw [longest, hn]
  exact hone n

/-! ### Words with gaps behind them -/

/-- Each word, and the gap behind it. -/
def layout (row : List (List α × List α)) : List α := row.flatMap fun w => w.1 ++ w.2

/-- No word goes on into what is behind it. -/
def Apart (rules : List (Rule α β)) : List (List α × List α) → Prop
  | [] => True
  | w :: row => Maximal rules w.1 (w.2 ++ layout row) ∧ Apart rules row

/-- Characters that are skipped one by one. -/
def Blank (rules : List (Rule α β)) (a : α) : Prop :=
  classify rules [a] = some .skip ∧ ∀ u, u ≠ [] → classify rules (a :: u) = none

theorem scanUpTo_gap {gap rest : List α} {fuel : Nat} (h : ∀ a ∈ gap, Blank rules a) :
    scanUpTo rules (fuel + gap.length) (gap ++ rest) = scanUpTo rules fuel rest := by
  induction gap with
  | nil => rfl
  | cons a gap ih =>
      obtain ⟨hskip, hnone⟩ := h a List.mem_cons_self
      have hmax : Maximal rules [a] (gap ++ rest) := fun u hu _ => hnone u hu
      have hfirst : scanUpTo rules (fuel + gap.length + 1) ([a] ++ (gap ++ rest)) =
          scanUpTo rules (fuel + gap.length) (gap ++ rest) :=
        scanUpTo_skip (List.cons_ne_nil a []) hskip hmax
      exact hfirst.trans (ih fun b hb => h b (List.mem_cons_of_mem a hb))

/-- **Reading back.**  Words that do not go on into what is behind them are read one by one. -/
theorem scan_layout {row : List (List α × List α)} {tokens : List β}
    (h : List.Forall₂ (fun w b => w.1 ≠ [] ∧ classify rules w.1 = some (.token b)) row tokens)
    (hgaps : ∀ w ∈ row, ∀ a ∈ w.2, Blank rules a) (hapart : Apart rules row) :
    scanText rules (layout row) = some tokens := by
  suffices hfuel : ∀ fuel, (layout row).length ≤ fuel →
      scanUpTo rules fuel (layout row) = some tokens from hfuel _ (Nat.le_refl _)
  induction h with
  | nil =>
      intro fuel _
      cases fuel <;> rfl
  | @cons w b row tokens hw _ ih =>
      intro fuel hfuel
      have htext : layout (w :: row) = w.1 ++ (w.2 ++ layout row) := by
        rw [layout, List.flatMap_cons, List.append_assoc]
        rfl
      rw [htext, List.length_append, List.length_append] at hfuel
      have hpos := List.length_pos_of_ne_nil hw.1
      obtain ⟨n, rfl⟩ : ∃ n, fuel = n + w.2.length + 1 := ⟨fuel - w.2.length - 1, by omega⟩
      have hgap : ∀ a ∈ w.2, Blank rules a := hgaps w List.mem_cons_self
      have hrow : scanUpTo rules n (layout row) = some tokens :=
        ih (fun v hv => hgaps v (List.mem_cons_of_mem w hv)) hapart.2 n (by omega)
      rw [htext, scanUpTo_token hw.1 hw.2 hapart.1, scanUpTo_gap hgap, hrow]
      rfl

end

end FlightRec.Scanner
