/-
# `FlightRec.Expressions.StringLiterals` — strings in expressions

`decode_string` and `decode_char` of examine/expressions/expr.l copy the text of a token
into a new buffer.  The quotes are copied, what an escape consumes is copied again,
every escape moves the target ahead by what all of them have consumed so far, and the
result is the target itself, which stands at the terminator by then.

    token                                  result
    no escape has digits                   the empty string
    an escape has digits                   the terminator is stored behind the buffer

(`decodeString_eq`).  So of the strings that C assigns to literals it returns one, that
of `""` (`decodesRight_iff`).
-/
import FlightRec.Lib.CString
import Mathlib.Data.UInt

namespace FlightRec.StringLiterals

open CString

/-- A character constant of the source. -/
def char (c : Char) : UInt8 := UInt8.ofNat c.toNat

/-! ## The decoder -/

/-- `'0' ... '7'` -/
def isOctal (c : UInt8) : Bool := char '0' ≤ c ∧ c ≤ char '7'

/-- `isxdigit(3)` -/
def isXDigit (c : UInt8) : Bool :=
  (char '0' ≤ c ∧ c ≤ char '9') ∨ (char 'A' ≤ c ∧ c ≤ char 'F') ∨ (char 'a' ≤ c ∧ c ≤ char 'f')

/-- A hexadecimal digit as `decode_char` reads it. -/
def xdigit (c : UInt8) : UInt8 :=
  if c ≤ char '9' then c - char '0'
  else if c ≤ char 'F' then c - char 'A' + 10
  else c - char 'a' + 10

/-- The loop over hexadecimal digits: `res`, and how many there are. -/
def hexLoop (res : UInt8) (digits : Nat) : List UInt8 → UInt8 × Nat
  | c :: rest =>
      if isXDigit c then hexLoop (res <<< 4 ||| xdigit c) (digits + 1) rest else (res, digits)
  | [] => (res, digits)

/-- The loop over octal digits. -/
def octalLoop (res : UInt8) (digits : Nat) : List UInt8 → UInt8 × Nat
  | c :: rest =>
      if isOctal c then octalLoop (res <<< 3 ||| (c - char '0')) (digits + 1) rest
      else (res, digits)
  | [] => (res, digits)

/-- The escapes of one letter; any other character stands for itself. -/
def simpleEscape (c : UInt8) : UInt8 :=
  if c = char 'a' then 7
  else if c = char 'b' then 8
  else if c = char 'f' then 12
  else if c = char 'n' then 10
  else if c = char 'r' then 13
  else if c = char 't' then 9
  else if c = char 'v' then 11
  else c

/-- `decode_char`: the character, and what is added to `*consumed`. -/
def decodeChar (source : List UInt8) : UInt8 × Nat :=
  match source with
  | [] => (0, 0)
  | c :: rest =>
      if c = char 'x' then hexLoop 0 0 rest
      else if isOctal c then octalLoop 0 0 source
      else (simpleEscape c, 0)

/-- The locals of `decode_string`; `target` is an index into the buffer. -/
structure Decoding where
  res : Block
  target : Nat
  consumed : Nat
  deriving DecidableEq, Repr

/-- One round of the loop, at `*src = c`. -/
def decodeStep (c : UInt8) (rest : List UInt8) (d : Decoding) : Option Decoding :=
  if c = char '\\' then do
    let res ← store d.res d.target (decodeChar rest).1
    let consumed := d.consumed + (decodeChar rest).2
    return ⟨res, d.target + consumed + 1, consumed⟩
  else do
    let res ← store d.res d.target c
    return ⟨res, d.target + 1, d.consumed⟩

def decodeLoop : List UInt8 → Decoding → Option Decoding
  | [], d => some d
  | c :: rest, d => do decodeLoop rest (← decodeStep c rest d)

/-- `decode_string`: the memory that the result points to, up to the end of the block. -/
def decodeString (source : List UInt8) : Option Block := do
  let d ← decodeLoop source ⟨alloc (source.length + 1), 0, 0⟩
  let res ← store d.res d.target 0
  return res.drop d.target

/-! ## What C assigns -/

/-- The value of octal digits. -/
def octalValue (digits : List UInt8) : Nat :=
  digits.foldl (fun v c => v * 8 + (c.toNat - (char '0').toNat)) 0

/-- The value of hexadecimal digits. -/
def hexValue (digits : List UInt8) : Nat :=
  digits.foldl (fun v c => v * 16 + (xdigit c).toNat) 0

/-- What an escape stands for, and the rest of the text: one to three octal digits, or as
many hexadecimal digits as there are, but at least one.  Values are cut to a `char`. -/
def escape : List UInt8 → Option (UInt8 × List UInt8)
  | [] => none
  | c :: rest =>
      if c = char 'x' then
        let digits := rest.takeWhile isXDigit
        if digits = [] then none
        else some (UInt8.ofNat (hexValue digits), rest.drop digits.length)
      else if isOctal c then
        let digits := ((c :: rest).take 3).takeWhile isOctal
        some (UInt8.ofNat (octalValue digits), (c :: rest).drop digits.length)
      else some (simpleEscape c, rest)

theorem length_escape {text rest : List UInt8} {c : UInt8} (h : escape text = some (c, rest)) :
    rest.length < text.length := by
  cases text with
  | nil => cases h
  | cons e text =>
      simp only [escape] at h
      split at h
      next =>
        split at h
        next => cases h
        next =>
          cases h
          exact Nat.lt_succ_of_le (List.length_drop ▸ Nat.sub_le _ _)
      next =>
        split at h
        next hoctal =>
          cases h
          have hdigits : 0 < (((e :: text).take 3).takeWhile isOctal).length := by
            rw [List.take_succ_cons, List.takeWhile_cons_of_pos hoctal]
            exact Nat.succ_pos _
          rw [List.length_drop]
          exact Nat.sub_lt (Nat.succ_pos _) hdigits
        next =>
          cases h
          exact Nat.lt_succ_self _

/-- The string that C assigns to what is between the quotes, without the terminator. -/
def cValue : List UInt8 → Option (List UInt8)
  | [] => some []
  | c :: text =>
      if c = char '\\' then
        match _h : escape text with
        | none => none
        | some (value, rest) => (cValue rest).map (value :: ·)
      else (cValue text).map (c :: ·)
termination_by text => text.length
decreasing_by
  · exact Nat.lt_succ_of_lt (length_escape ‹_›)
  · exact Nat.lt_succ_self _

theorem cValue_plain {c : UInt8} (h : c ≠ char '\\') (text : List UInt8) :
    cValue (c :: text) = (cValue text).map (c :: ·) := by
  rw [cValue, if_neg h]

theorem cValue_escape {text rest : List UInt8} {value : UInt8}
    (h : escape text = some (value, rest)) :
    cValue (char '\\' :: text) = (cValue rest).map (value :: ·) := by
  rw [cValue, if_pos rfl]
  split
  next hnone => cases hnone.symm.trans h
  next hsome =>
    cases hsome.symm.trans h
    rfl

/-! ## Tokens -/

/-- `(\\.|[^\\"\n])*`, of a text without the terminator. -/
inductive Accepted : List UInt8 → Prop
  | nil : Accepted []
  | plain {c : UInt8} {cs : List UInt8} : c ≠ 0 → c ≠ char '\\' → c ≠ char '"' → c ≠ char '\n' →
      Accepted cs → Accepted (c :: cs)
  | escape {c : UInt8} {cs : List UInt8} : c ≠ 0 → c ≠ char '\n' →
      Accepted cs → Accepted (char '\\' :: c :: cs)

/-- A token that the rule for strings matches. -/
structure StringLiteral where
  body : List UInt8
  accepted : Accepted body

/-- `yytext` -/
def StringLiteral.text (l : StringLiteral) : List UInt8 := char '"' :: l.body ++ [char '"']

/-- If C assigns a string to the literal, the result points to it. -/
def DecodesRight (l : StringLiteral) : Prop :=
  ∀ value, cValue l.body = some value →
    ∃ memory, decodeString l.text = some memory ∧ (value ++ [0]).map some <+: memory

/-! ## The loop -/

/-- Behind some backslash of the text, escaped itself or not, are digits. -/
def hasDigits : List UInt8 → Bool
  | [] => false
  | c :: rest => (c = char '\\' ∧ (decodeChar rest).2 ≠ 0) ∨ hasDigits rest

section
variable {c : UInt8} {rest text : List UInt8} {d d' : Decoding}

theorem decodeStep_eq_some (h : decodeStep c rest d = some d') :
    d'.res.length = d.res.length ∧ d.target + 1 ≤ d'.target ∧
      (c = char '\\' → (decodeChar rest).2 ≠ 0 → d.target + 1 < d'.target) := by
  unfold decodeStep at h
  split at h
  next hescape =>
    obtain ⟨res, hstore, hd⟩ := Option.bind_eq_some_iff.mp h
    cases hd
    obtain ⟨-, rfl⟩ := store_eq_some hstore
    refine ⟨List.length_set, ?_, fun _ hdigits => ?_⟩
    · simp only
      omega
    · simp only
      omega
  next hplain =>
    obtain ⟨res, hstore, hd⟩ := Option.bind_eq_some_iff.mp h
    cases hd
    obtain ⟨-, rfl⟩ := store_eq_some hstore
    exact ⟨List.length_set, le_refl _, fun hescape => absurd hescape hplain⟩

theorem decodeLoop_eq_some (h : decodeLoop text d = some d') :
    d'.res.length = d.res.length ∧ d.target + text.length ≤ d'.target ∧
      (hasDigits text → d.target + text.length < d'.target) := by
  induction text generalizing d with
  | nil =>
      cases h
      exact ⟨rfl, le_refl _, fun hdigits => absurd hdigits Bool.false_ne_true⟩
  | cons c rest ih =>
      obtain ⟨d₁, hstep, hrest⟩ := Option.bind_eq_some_iff.mp h
      obtain ⟨hlen, hle, hlt⟩ := decodeStep_eq_some hstep
      obtain ⟨hlen', hle', hlt'⟩ := ih hrest
      simp only [List.length_cons]
      refine ⟨hlen'.trans hlen, by omega, fun hdigits => ?_⟩
      rcases of_decide_eq_true hdigits with ⟨hescape, hhere⟩ | hthere
      · have := hlt hescape hhere
        omega
      · have := hlt' hthere
        omega

theorem decodeStep_plain (hplain : ¬ (c = char '\\' ∧ (decodeChar rest).2 ≠ 0))
    (hconsumed : d.consumed = 0) (hroom : d.target < d.res.length) :
    ∃ b, decodeStep c rest d = some ⟨d.res.set d.target (some b), d.target + 1, 0⟩ := by
  have hstore : ∀ b, store d.res d.target b = some (d.res.set d.target (some b)) := fun _ =>
    store_of_lt hroom
  by_cases hescape : c = char '\\'
  · have hnone : (decodeChar rest).2 = 0 := by_contra fun h => hplain ⟨hescape, h⟩
    refine ⟨(decodeChar rest).1, ?_⟩
    rw [decodeStep, if_pos hescape, hstore, hnone, hconsumed]
    rfl
  · refine ⟨c, ?_⟩
    rw [decodeStep, if_neg hescape, hstore, hconsumed]
    rfl

theorem decodeLoop_plain (hdigits : hasDigits text = false) (hconsumed : d.consumed = 0)
    (hroom : d.target + text.length < d.res.length) :
    ∃ d', decodeLoop text d = some d' ∧ d'.res.length = d.res.length ∧
      d'.target = d.target + text.length := by
  induction text generalizing d with
  | nil => exact ⟨d, rfl, rfl, rfl⟩
  | cons c rest ih =>
      rw [List.length_cons] at hroom
      have hboth := of_decide_eq_false hdigits
      have hrest : hasDigits rest = false := Bool.eq_false_iff.mpr fun h => hboth (.inr h)
      obtain ⟨b, hstep⟩ := decodeStep_plain (fun h => hboth (.inl h)) hconsumed (by omega)
      obtain ⟨d', hloop, hlen, htarget⟩ :=
        ih (d := ⟨d.res.set d.target (some b), d.target + 1, 0⟩) hrest rfl
          (by simp only [List.length_set]; omega)
      refine ⟨d', ?_, hlen.trans List.length_set, ?_⟩
      · rw [decodeLoop, hstep]
        exact hloop
      · rw [htarget, List.length_cons]
        simp only
        omega

end

/-- **`decode_string` returns the empty string, or stores behind its buffer** -/
theorem decodeString_eq (source : List UInt8) :
    decodeString source = if hasDigits source then none else some [some 0] := by
  have hlen : (alloc (source.length + 1)).length = source.length + 1 := length_alloc _
  cases hdigits : hasDigits source with
  | true =>
      rw [if_pos rfl, decodeString]
      refine Option.bind_eq_none_iff.mpr fun d hloop => ?_
      obtain ⟨hkept, -, hlt⟩ := decodeLoop_eq_some hloop
      rw [store_of_le]
      · rfl
      · have := hlt hdigits
        simp only at hkept this
        omega
  | false =>
      rw [if_neg Bool.false_ne_true, decodeString]
      obtain ⟨d, hloop, hkept, htarget⟩ :=
        decodeLoop_plain (d := ⟨alloc (source.length + 1), 0, 0⟩) hdigits rfl
          (by simp only [hlen]; omega)
      simp only at hkept htarget
      have hend : d.target + 1 = d.res.length := by omega
      have hstore := store_of_lt (c := 0) (show d.target < d.res.length by omega)
      rw [hloop]
      change (store d.res d.target 0).bind _ = _
      rw [hstore]
      refine congrArg some ?_
      -- The last byte of the block is the terminator.
      calc (d.res.set d.target (some 0)).drop d.target
          = (d.res.drop d.target).set 0 (some 0) := by
            rw [List.drop_set, if_neg (Nat.lt_irrefl _), Nat.sub_self]
        _ = [some 0] := by
            obtain ⟨b, hb⟩ := List.length_eq_one_iff.mp
              (show (d.res.drop d.target).length = 1 by rw [List.length_drop]; omega)
            rw [hb]
            rfl

theorem cValue_eq_nil {body : List UInt8} (h : cValue body = some []) : body = [] := by
  cases body with
  | nil => rfl
  | cons c text =>
      rw [cValue] at h
      split at h
      next =>
        split at h
        next => cases h
        next =>
          obtain ⟨value, -, hvalue⟩ := Option.map_eq_some_iff.mp h
          cases hvalue
      next =>
        obtain ⟨value, -, hvalue⟩ := Option.map_eq_some_iff.mp h
        cases hvalue

/-- **Only `""` is decoded right** -/
theorem decodesRight_iff (l : StringLiteral) :
    DecodesRight l ↔ l.body = [] ∨ cValue l.body = none := by
  constructor
  · intro hright
    cases hvalue : cValue l.body with
    | none => exact .inr rfl
    | some value =>
        obtain ⟨memory, hdecode, hstart⟩ := hright value hvalue
        rw [decodeString_eq] at hdecode
        split at hdecode
        next => cases hdecode
        next =>
          cases hdecode
          have hlen := hstart.length_le
          simp only [List.length_map, List.length_append, List.length_singleton] at hlen
          have hempty : value = [] := List.length_eq_zero_iff.mp (by omega)
          exact .inl (cValue_eq_nil (hempty ▸ hvalue))
  · rintro (hempty | hnone) value hvalue
    · rw [hempty, cValue] at hvalue
      cases hvalue
      refine ⟨[some 0], ?_, List.prefix_refl _⟩
      rw [StringLiteral.text, hempty]
      decide
    · rw [hnone] at hvalue
      cases hvalue

/-- `"\101B"`, which is `AB` -/
def octalLetter : StringLiteral :=
  ⟨[char '\\', char '1', char '0', char '1', char 'B'],
    .escape (by decide) (by decide) (.plain (by decide) (by decide) (by decide) (by decide)
      (.plain (by decide) (by decide) (by decide) (by decide)
        (.plain (by decide) (by decide) (by decide) (by decide) .nil)))⟩

/-- `"B"` -/
def letter : StringLiteral :=
  ⟨[char 'B'], .plain (by decide) (by decide) (by decide) (by decide) .nil⟩

/-- The letter is lost; with the escape before it the buffer is overrun. -/
theorem decodes_letters :
    (cValue letter.body = some [char 'B'] ∧ decodeString letter.text = some [some 0] ∧
        ¬ DecodesRight letter) ∧
      cValue octalLetter.body = some [char 'A', char 'B'] ∧
        decodeString octalLetter.text = none ∧ ¬ DecodesRight octalLetter := by
  have hletter : cValue [char 'B'] = some [char 'B'] := by
    rw [cValue_plain (by decide), cValue]
    rfl
  have hoctal : cValue octalLetter.body = some [char 'A', char 'B'] := by
    have hescape : escape [char '1', char '0', char '1', char 'B'] =
        some (char 'A', [char 'B']) := by
      decide
    rw [octalLetter, cValue_escape hescape, hletter]
    rfl
  refine ⟨⟨hletter, by decide, fun h => ?_⟩, hoctal, by decide, fun h => ?_⟩
  · obtain ⟨memory, hdecode, hstart⟩ := h _ hletter
    cases (show decodeString letter.text = some [some 0] by decide).symm.trans hdecode
    exact absurd hstart.length_le (by decide)
  · obtain ⟨memory, hdecode, -⟩ := h _ hoctal
    cases (show decodeString octalLetter.text = none by decide).symm.trans hdecode

end FlightRec.StringLiterals
