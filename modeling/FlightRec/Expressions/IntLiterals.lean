/-
# `FlightRec.Expressions.IntLiterals` — numbers in expressions

The four rules for integers of examine/expressions/expr.l make an unsigned node of eight
bytes, and take its value from `strtol`, which is signed:

    notation      token                      conversion
    hexadecimal   `0[xX]{H}+{IS}?`           `strtol(yytext+2, NULL, 16)`
    binary        `0[bB][01]+`               `strtol(yytext+2, NULL, 2)`
    octal         `0{O}*{IS}?`               `strtol(yytext, NULL, 8)`
    decimal       `[1-9]{D}*{IS}?`           `strtol(yytext, NULL, 10)`

So a literal is read right up to `LONG_MAX`, and everything above is `LONG_MAX`
(`readRight_iff`).
-/
import FlightRec.Examine.Agreement
import FlightRec.Examine.Formatting
import FlightRec.Expressions.Parse
import FlightRec.Lib.Numerals

namespace FlightRec.IntLiterals

open Agreement Expressions Formatting Numerals Printf

/-! ## The rules -/

/-- `(u|U)` -/
def unsignedSuffixes : List (List Char) := [['u'], ['U']]

/-- `(l|L|ll|LL)` -/
def longSuffixes : List (List Char) := [['l'], ['L'], ['l', 'l'], ['L', 'L']]

/-- `{IS}?` -/
def suffixes : List (List Char) :=
  [] :: unsignedSuffixes
    ++ ([] :: unsignedSuffixes).flatMap (fun u => longSuffixes.map (u ++ ·))
    ++ longSuffixes.flatMap (fun l => unsignedSuffixes.map (l ++ ·))

/-- `{D}` -/
def isD (c : Char) : Bool := '0' ≤ c ∧ c ≤ '9'

/-- `{O}` -/
def isO (c : Char) : Bool := '0' ≤ c ∧ c ≤ '7'

/-- `{H}` -/
def isH (c : Char) : Bool := ('a' ≤ c ∧ c ≤ 'f') ∨ ('A' ≤ c ∧ c ≤ 'F') ∨ ('0' ≤ c ∧ c ≤ '9')

/-- A token that one of the rules matches. -/
inductive IntLiteral where
  | hexadecimal (x : Char) (digits suffix : List Char) (hx : x = 'x' ∨ x = 'X')
      (hne : digits ≠ []) (hdigits : ∀ d ∈ digits, isH d) (hsuffix : suffix ∈ suffixes)
  | binary (b : Char) (digits : List Char) (hb : b = 'b' ∨ b = 'B') (hne : digits ≠ [])
      (hdigits : ∀ d ∈ digits, d = '0' ∨ d = '1')
  | octal (digits suffix : List Char) (hdigits : ∀ d ∈ digits, isO d) (hsuffix : suffix ∈ suffixes)
  | decimal (first : Char) (digits suffix : List Char) (hfirst : '1' ≤ first ∧ first ≤ '9')
      (hdigits : ∀ d ∈ digits, isD d) (hsuffix : suffix ∈ suffixes)

/-- `yytext` -/
def IntLiteral.text : IntLiteral → List Char
  | .hexadecimal x digits suffix .. => '0' :: x :: (digits ++ suffix)
  | .binary b digits .. => '0' :: b :: digits
  | .octal digits suffix .. => '0' :: digits ++ suffix
  | .decimal first digits suffix .. => first :: digits ++ suffix

/-- The actions of the rules: `int_value`. -/
def IntLiteral.value (l : IntLiteral) : BitVec 64 :=
  BitVec.ofInt 64 (match l with
    | .hexadecimal .. => strtol (l.text.drop 2) 16
    | .binary .. => strtol (l.text.drop 2) 2
    | .octal .. => strtol l.text 8
    | .decimal .. => strtol l.text 10)

/-- The constant that the lexer returns. -/
def IntLiteral.constant (l : IntLiteral) : Constant := .integer l.value

/-- The number that is written. -/
def IntLiteral.number : IntLiteral → Nat
  | .hexadecimal _ digits .. => Numerals.number 16 digits
  | .binary _ digits .. => Numerals.number 2 digits
  | .octal digits .. => Numerals.number 8 digits
  | .decimal first digits .. => Numerals.number 10 (first :: digits)

/-! ## The response -/

/-- The text of the result, if the request succeeds with one. -/
def shownText (env : Env) (id : Nat) (ast : AstNode) (step : Nat) : Option (List UInt8) :=
  match getEvalResult env id ast step {} with
  | some (some r, _) => (r.result.bind resultBuffer).map (·.text)
  | _ => none

/-- The token has the value that is written, and the literal alone prints it. -/
def ReadRight (l : IntLiteral) : Prop :=
  l.value.toNat = l.number ∧
    ∀ (T : Tables) (scope : Nat) (env : Env) (id step : Nat) (ast : AstNode),
      ExprParse T scope [.constant l.constant] ast →
        shownText env id ast step = some (unsigned l.number)

theorem exprParse_constant {T : Tables} {scope : Nat} {c : Constant} {ast : AstNode} :
    ExprParse T scope [.constant c] ast ↔ ast = c.node := by
  constructor
  · rintro ⟨tokens, e, hlex, hderives, hast⟩
    cases hlex
    rcases hderives.of_single with ⟨name, htok, -⟩ | ⟨d, htok, rfl⟩
    · cases htok
    · cases htok
      cases hast
      rfl
  · rintro rfl
    exact ⟨[.constant c], .constant c, rfl, (Derives.constant c).ofPrimary _, rfl⟩

theorem shownText_integer (env : Env) (id step : Nat) (v : BitVec 64) :
    shownText env id (Constant.integer v).node step = some (unsigned v.toNat) := by
  have hrun : getEvalResult env id (Constant.integer v).node step {} =
      some (some { result := some (.unsigned v.toNat none) }, {}) :=
    (getEvalResult_basic ⟨rfl, rfl⟩).mpr ⟨v, rfl, rfl, rfl⟩
  simp only [shownText, hrun]
  exact congrArg some (List.append_nil _)

/-! ## The conversion -/

theorem toNat_le {c d : Char} (h : c ≤ d) : c.toNat ≤ d.toNat := h

theorem digit_of_isD {c : Char} (h : isD c) : digitValue c < 10 := by
  have hc : '0' ≤ c ∧ c ≤ '9' := of_decide_eq_true h
  have hle := toNat_le hc.2
  rw [digitValue, if_pos hc]
  simp only [Char.reduceToNat] at hle ⊢
  omega

theorem digit_of_isO {c : Char} (h : isO c) : digitValue c < 8 := by
  have hc : '0' ≤ c ∧ c ≤ '7' := of_decide_eq_true h
  have hle := toNat_le hc.2
  rw [digitValue, if_pos ⟨hc.1, le_trans hc.2 (by decide)⟩]
  simp only [Char.reduceToNat] at hle ⊢
  omega

theorem digit_of_isH {c : Char} (h : isH c) : digitValue c < 16 := by
  have hc : ('a' ≤ c ∧ c ≤ 'f') ∨ ('A' ≤ c ∧ c ≤ 'F') ∨ ('0' ≤ c ∧ c ≤ '9') := of_decide_eq_true h
  rcases hc with hlower | hupper | hdigit
  · have hlo := toNat_le hlower.1
    have hhi := toNat_le hlower.2
    have hdigit : ¬ ('0' ≤ c ∧ c ≤ '9') := fun hd => by
      have hle := toNat_le hd.2
      simp only [Char.reduceToNat] at hlo hle
      omega
    rw [digitValue, if_neg hdigit, if_pos ⟨hlower.1, le_trans hlower.2 (by decide)⟩]
    simp only [Char.reduceToNat] at hlo hhi ⊢
    omega
  · have hlo := toNat_le hupper.1
    have hhi := toNat_le hupper.2
    have hdigit : ¬ ('0' ≤ c ∧ c ≤ '9') := fun hd => by
      have hle := toNat_le hd.2
      simp only [Char.reduceToNat] at hlo hle
      omega
    have hlower : ¬ ('a' ≤ c ∧ c ≤ 'z') := fun hd => by
      have hle := toNat_le hd.1
      simp only [Char.reduceToNat] at hhi hle
      omega
    rw [digitValue, if_neg hdigit, if_neg hlower, if_pos ⟨hupper.1, le_trans hupper.2 (by decide)⟩]
    simp only [Char.reduceToNat] at hlo hhi ⊢
    omega
  · exact lt_trans (digit_of_isD (decide_eq_true hdigit)) (by decide)

theorem suffix_letters {suffix : List Char} (h : suffix ∈ suffixes) :
    ∀ c ∈ suffix, c ∈ ['u', 'U', 'l', 'L'] := by
  have hall : suffixes.all (fun s => s.all (· ∈ ['u', 'U', 'l', 'L'])) = true := by decide
  intro c hc
  exact of_decide_eq_true (List.all_eq_true.mp (List.all_eq_true.mp hall suffix h) c hc)

theorem suffix_stops {base : Nat} (hbase : base ≤ 16) {suffix : List Char}
    (h : suffix ∈ suffixes) : ∀ c ∈ suffix.head?, base ≤ digitValue c := by
  intro c hc
  have hletters : ∀ c ∈ ['u', 'U', 'l', 'L'], 16 ≤ digitValue c := by simp [digitValue]
  exact le_trans hbase (hletters c (suffix_letters h c (List.mem_of_mem_head? hc)))

theorem dropPrefix_of_ne {base : Nat} (hbase : base ≠ 16) (text : List Char) :
    dropPrefix base text = text := by
  rw [dropPrefix.eq_def]
  split
  · exact if_neg fun h => hbase h.1
  · rfl

/-- No hexadecimal digit is `x`, so the base is not announced once more. -/
theorem dropPrefix_of_isH {digits suffix : List Char} (hdigits : ∀ d ∈ digits, isH d)
    (hsuffix : suffix ∈ suffixes) : dropPrefix 16 (digits ++ suffix) = digits ++ suffix := by
  have hplain : ∀ c ∈ digits ++ suffix, ¬ (c = 'x' ∨ c = 'X') := by
    intro c hc hx
    rcases List.mem_append.mp hc with hc | hc
    · rcases hx with rfl | rfl
      · exact absurd (hdigits _ hc) (by decide)
      · exact absurd (hdigits _ hc) (by decide)
    · rcases hx with rfl | rfl
      · exact absurd (suffix_letters hsuffix _ hc) (by decide)
      · exact absurd (suffix_letters hsuffix _ hc) (by decide)
  generalize digits ++ suffix = text at hplain
  rw [dropPrefix.eq_def]
  split
  next x d rest => exact if_neg fun h => hplain x (by simp) h.2.1
  next => rfl

/-- The action of each rule stops behind the digits, and stays within a `long`. -/
theorem value_eq (l : IntLiteral) : l.value = BitVec.ofNat 64 (min l.number longMax) := by
  rw [← BitVec.ofInt_natCast]
  refine congrArg (BitVec.ofInt 64) ?_
  cases l with
  | hexadecimal x digits suffix hx hne hdigits hsuffix =>
      exact strtol_digits (by decide) hne (fun d hd => digit_of_isH (hdigits d hd))
        (suffix_stops (by decide) hsuffix) (dropPrefix_of_isH hdigits hsuffix)
  | binary b digits hb hne hdigits =>
      have hbinary : ∀ d ∈ digits, digitValue d < 2 := fun d hd => by
        rcases hdigits d hd with rfl | rfl <;> decide
      have h : strtol (digits ++ []) 2 = (min (Numerals.number 2 digits) longMax : Nat) :=
        strtol_digits (by decide) hne hbinary (by simp) (dropPrefix_of_ne (by decide) _)
      rwa [List.append_nil] at h
  | octal digits suffix hdigits hsuffix =>
      have h : strtol (('0' :: digits) ++ suffix) 8 =
          (min (Numerals.number 8 ('0' :: digits)) longMax : Nat) :=
        strtol_digits (by decide) (by simp)
          (by simpa using ⟨by decide, fun d hd => digit_of_isO (hdigits d hd)⟩)
          (suffix_stops (by decide) hsuffix) (dropPrefix_of_ne (by decide) _)
      rwa [number_cons, show digitValue '0' = 0 from by decide, Nat.zero_mul, Nat.zero_add] at h
  | decimal first digits suffix hfirst hdigits hsuffix =>
      have hd : isD first := decide_eq_true ⟨le_trans (by decide) hfirst.1, hfirst.2⟩
      have h : strtol ((first :: digits) ++ suffix) 10 =
          (min (Numerals.number 10 (first :: digits)) longMax : Nat) :=
        strtol_digits (by decide) (by simp)
          (by simpa using ⟨digit_of_isD hd, fun d hd => digit_of_isD (hdigits d hd)⟩)
          (suffix_stops (by decide) hsuffix) (dropPrefix_of_ne (by decide) _)
      exact h

theorem value_toNat (l : IntLiteral) : l.value.toNat = min l.number longMax := by
  rw [value_eq, BitVec.toNat_ofNat]
  refine Nat.mod_eq_of_lt (lt_of_le_of_lt (Nat.min_le_right _ _) ?_)
  decide

/-- **A literal is read right up to `LONG_MAX`** -/
theorem readRight_iff (l : IntLiteral) : ReadRight l ↔ l.number < 2 ^ 63 := by
  have hmax : longMax + 1 = 2 ^ 63 := rfl
  have hvalue := value_toNat l
  constructor
  · rintro ⟨hright, -⟩
    omega
  · intro hlt
    have hright : l.value.toNat = l.number := by omega
    refine ⟨hright, fun T scope env id step ast hparse => ?_⟩
    rw [exprParse_constant.mp hparse, IntLiteral.constant, shownText_integer, hright]

/-- All bits, in hexadecimal. -/
def allOnes : IntLiteral :=
  .hexadecimal 'x' (List.replicate 16 'F') [] (.inl rfl) (by simp)
    (fun d hd => List.eq_of_mem_replicate hd ▸ by decide) List.mem_cons_self

/-- `0xFFFFFFFFFFFFFFFF` prints 9223372036854775807. -/
theorem readRight_allOnes : allOnes.number = 2 ^ 64 - 1 ∧ ¬ ReadRight allOnes ∧
    ∀ env id step, shownText env id allOnes.constant.node step =
      some (bytes "9223372036854775807") := by
  have hvalue : allOnes.value.toNat = 9223372036854775807 := by decide +kernel
  refine ⟨by decide, fun h => absurd h.1 (by rw [hvalue]; decide), fun env id step => ?_⟩
  rw [IntLiteral.constant, shownText_integer, hvalue]
  decide

end FlightRec.IntLiterals
