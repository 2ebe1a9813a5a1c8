/-
# `FlightRec.Lib.Numerals` — numbers in a text

`strtol(3)` on the characters of a string, and the number that a row of digits stands
for.  The conversion ends at the first character that is no digit of the base, and a
value that is out of range becomes the nearest `long` (`strtol_digits`).
-/
import Mathlib.Data.Nat.Digits.Defs

namespace FlightRec.Numerals

/-- A character as a digit; letters are the digits from ten on. -/
def digitValue (c : Char) : Nat :=
  if '0' ≤ c ∧ c ≤ '9' then c.toNat - '0'.toNat
  else if 'a' ≤ c ∧ c ≤ 'z' then c.toNat - 'a'.toNat + 10
  else if 'A' ≤ c ∧ c ≤ 'Z' then c.toNat - 'A'.toNat + 10
  else 36

/-- The number that the digits of a base stand for, the highest first. -/
def number (base : Nat) (digits : List Char) : Nat :=
  Nat.ofDigits base (digits.map digitValue).reverse

/-- The conversion of a text, behind digits of value `v`. -/
def convertFrom (base v : Nat) : List Char → Nat
  | [] => v
  | c :: cs => if digitValue c < base then convertFrom base (v * base + digitValue c) cs else v

/-- `isspace(3)` -/
def isSpace (c : Char) : Bool := c = ' ' ∨ (9 ≤ c.toNat ∧ c.toNat ≤ 13)

/-- A sign, and what is behind it. -/
def splitSign : List Char → Bool × List Char
  | '-' :: text => (true, text)
  | '+' :: text => (false, text)
  | text => (false, text)

/-- Base 16 may be announced in the text, if a digit follows. -/
def dropPrefix (base : Nat) : List Char → List Char
  | '0' :: x :: d :: text =>
      if base = 16 ∧ (x = 'x' ∨ x = 'X') ∧ digitValue d < 16 then d :: text
      else '0' :: x :: d :: text
  | text => text

/-- `LONG_MAX` -/
def longMax : Nat := 2 ^ 63 - 1

/-- `strtol(text, NULL, base)` -/
def strtol (text : List Char) (base : Nat) : Int :=
  let (negative, text) := splitSign (text.dropWhile isSpace)
  let value := convertFrom base 0 (dropPrefix base text)
  if negative then -(min value (longMax + 1) : Nat) else (min value longMax : Nat)

/-! ## A text of digits -/

section
variable {base : Nat} {digits rest : List Char}

theorem convertFrom_stop {v : Nat} (hrest : ∀ c ∈ rest.head?, base ≤ digitValue c) :
    convertFrom base v rest = v := by
  cases rest with
  | nil => rfl
  | cons c cs => exact if_neg (Nat.not_lt.mpr (hrest c rfl))

theorem number_cons (d : Char) (ds : List Char) :
    number base (d :: ds) = digitValue d * base ^ ds.length + number base ds := by
  simp only [number, List.map_cons, List.reverse_cons, Nat.ofDigits_append, List.length_reverse,
    List.length_map, Nat.ofDigits_singleton]
  ring

theorem convertFrom_append (hdigits : ∀ d ∈ digits, digitValue d < base)
    (hrest : ∀ c ∈ rest.head?, base ≤ digitValue c) :
    ∀ v, convertFrom base v (digits ++ rest) = v * base ^ digits.length + number base digits := by
  induction digits with
  | nil =>
      intro v
      rw [List.nil_append, convertFrom_stop hrest]
      simp [number]
  | cons d ds ih =>
      intro v
      have hd := hdigits d List.mem_cons_self
      have hds := ih fun e he => hdigits e (List.mem_cons_of_mem d he)
      calc convertFrom base v (d :: ds ++ rest)
          = convertFrom base (v * base + digitValue d) (ds ++ rest) := if_pos hd
        _ = (v * base + digitValue d) * base ^ ds.length + number base ds := hds _
        _ = v * base ^ (d :: ds).length + number base (d :: ds) := by
            rw [number_cons, List.length_cons]
            ring

theorem digit_plain {d : Char} (hd : digitValue d < 36) :
    isSpace d = false ∧ d ≠ '-' ∧ d ≠ '+' := by
  refine ⟨?_, ?_, ?_⟩
  · by_contra hspace
    have hlow : d.toNat ≤ 32 := by
      simp only [isSpace, Bool.not_eq_false, decide_eq_true_eq] at hspace
      rcases hspace with rfl | ⟨-, h⟩
      · decide
      · omega
    have hle : ∀ c : Char, 32 < c.toNat → ¬ c ≤ d := fun c hc h =>
      absurd (show c.toNat ≤ d.toNat from h) (by omega)
    rw [digitValue, if_neg fun h => hle _ (by decide) h.1, if_neg fun h => hle _ (by decide) h.1,
      if_neg fun h => hle _ (by decide) h.1] at hd
    exact absurd hd (Nat.lt_irrefl _)
  · rintro rfl
    exact absurd hd (by decide)
  · rintro rfl
    exact absurd hd (by decide)

/-- The conversion of digits, where the base is not announced once more. -/
theorem strtol_digits (hbase : base ≤ 36) (hne : digits ≠ [])
    (hdigits : ∀ d ∈ digits, digitValue d < base)
    (hrest : ∀ c ∈ rest.head?, base ≤ digitValue c)
    (hmark : dropPrefix base (digits ++ rest) = digits ++ rest) :
    strtol (digits ++ rest) base = (min (number base digits) longMax : Nat) := by
  obtain ⟨d, ds, rfl⟩ := List.exists_cons_of_ne_nil hne
  obtain ⟨hspace, hminus, hplus⟩ :=
    digit_plain (Nat.lt_of_lt_of_le (hdigits d List.mem_cons_self) hbase)
  have hdrop : (d :: ds ++ rest).dropWhile isSpace = d :: ds ++ rest := by
    rw [List.cons_append, List.dropWhile_cons_of_neg (by rw [hspace]; exact Bool.false_ne_true)]
  have hsign : splitSign (d :: ds ++ rest) = (false, d :: ds ++ rest) := by
    rw [List.cons_append, splitSign]
    · exact fun _ h => hminus (List.cons.inj h).1
    · exact fun _ h => hplus (List.cons.inj h).1
  simp only [strtol, hdrop, hsign, hmark, convertFrom_append hdigits hrest, Nat.zero_mul,
    Nat.zero_add, Bool.false_eq_true, if_false]

end

end FlightRec.Numerals
