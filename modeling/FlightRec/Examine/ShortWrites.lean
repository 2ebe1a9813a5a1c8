/-
# `FlightRec.Examine.ShortWrites` — what `write` takes of a message

`send_message` (examine/comms.c) writes the keyword, the length and the message with one
`write` each, and fails if one of them takes nothing.  How much it takes is not looked
at, so what is left of a piece is missing in the stream.

    a message is not sent in part    if it is empty, which fails, or each `write` takes
                                     all of its piece               (`sent_whole_iff`)
    if each takes all of it          this is `send_message` of `FlightRec.Examine.Comms`
                                                                    (`sendMessage_whole`)

The length is printed into a buffer of 16 bytes, which has room for eleven digits.
-/
import FlightRec.Examine.Comms
import FlightRec.Lib.CString
import FlightRec.Lib.Writer

namespace FlightRec.ShortWrites

open Comms CString

/-! ## The code -/

/-- `SUCCESS` and `FAILURE` -/
inductive Status where
  | success
  | failure
  deriving DecidableEq, Repr

/-- `"%zu\r\n\r\n"` -/
def lengthLine (text : List UInt8) : List UInt8 :=
  (Nat.toDigits 10 text.length).map byte ++ separator

/-- A `write` that fails if it takes nothing; else what comes next. -/
def writeOr (w : Writer) (fd : Sink UInt8) (data : List UInt8)
    (next : Sink UInt8 → Option (Status × Sink UInt8)) : Option (Status × Sink UInt8) :=
  if w.takes fd.calls data.length = 0 then some (.failure, w.write fd data)
  else next (w.write fd data)

/-- `send_message`; access outside `buffer` is undefined. -/
def sendMessage (w : Writer) (message : List UInt8) (fd : Sink UInt8) :
    Option (Status × Sink UInt8) :=
  let text := beforeZero message
  writeOr w fd keyword fun fd =>
  (CString.write (alloc 16) 0 (lengthLine text ++ [0])).bind fun _ =>
  writeOr w fd (lengthLine text) fun fd =>
  writeOr w fd text fun fd =>
  some (.success, fd)

/-! ## Whole messages -/

/-- The header and the message are in the stream, or the call fails. -/
def SentWhole (w : Writer) (message : List UInt8) (fd : Sink UInt8) : Prop :=
  ∃ status fd', sendMessage w message fd = some (status, fd') ∧
    (status = .success → fd'.sent = fd.sent ++ frame (beforeZero message))

/-- What `send_message` writes. -/
def pieces (text : List UInt8) : List (List UInt8) := [keyword, lengthLine text, text]

section
variable {w : Writer} {fd : Sink UInt8} {message text data : List UInt8}
  {next : Sink UInt8 → Option (Status × Sink UInt8)}

theorem writeOr_of_ne (h : data ≠ []) : writeOr w fd data next = next (w.write fd data) :=
  if_neg (Nat.ne_of_gt (w.pos _ _ (List.length_pos_iff.mpr h)))

theorem writeOr_nil : writeOr w fd [] next = some (.failure, w.write fd []) :=
  if_pos (Nat.le_zero.mp (w.le _ _))

theorem flatten_pieces : (pieces text).flatten = frame text := by
  unfold pieces frame lengthLine
  simp only [List.flatten_cons, List.flatten_nil, List.append_nil, List.append_assoc]

theorem lengthLine_ne_nil : lengthLine text ≠ [] := by
  unfold lengthLine
  exact List.append_ne_nil_of_right_ne_nil _ (by decide)

theorem buffer_iff : (CString.write (alloc 16) 0 (lengthLine text ++ [0])).isSome ↔
    text.length < 10 ^ 11 := by
  have hdigits := Nat.length_toDigits_le_iff (b := 10) (n := text.length) (k := 11) (by decide)
    (by decide)
  have hlength : (lengthLine text ++ [0]).length = (Nat.toDigits 10 text.length).length + 5 := by
    rw [lengthLine, List.length_append, List.length_append, List.length_map]
    rfl
  rw [← hdigits, CString.write, hlength, length_alloc]
  split
  next h => exact iff_of_true rfl (by omega)
  next h => exact iff_of_false Bool.false_ne_true (by omega)

/-- A message that is not empty is sent without a look at what is taken. -/
theorem sendMessage_eq (hlength : text.length < 10 ^ 11) (htext : beforeZero message = text) :
    sendMessage w message fd =
      if text = [] then some (.failure, w.writes fd (pieces text))
      else some (.success, w.writes fd (pieces text)) := by
  obtain ⟨buffer, hbuffer⟩ := Option.isSome_iff_exists.mp (buffer_iff.mpr hlength)
  have hkeyword : keyword ≠ [] := by decide
  unfold sendMessage
  rw [htext]
  dsimp only
  rw [writeOr_of_ne hkeyword, hbuffer, Option.bind_some, writeOr_of_ne lengthLine_ne_nil]
  split
  next hnil =>
    subst hnil
    exact writeOr_nil
  next hne => exact writeOr_of_ne hne

theorem sendMessage_long (hlength : 10 ^ 11 ≤ (beforeZero message).length) :
    sendMessage w message fd = none := by
  have hbuffer : CString.write (alloc 16) 0 (lengthLine (beforeZero message) ++ [0]) = none :=
    Option.not_isSome_iff_eq_none.mp (mt buffer_iff.mp (Nat.not_lt.mpr hlength))
  have hkeyword : keyword ≠ [] := by decide
  unfold sendMessage
  dsimp only
  rw [writeOr_of_ne hkeyword, hbuffer, Option.bind_none]

theorem sendMessage_whole (hlength : (beforeZero message).length < 10 ^ 11)
    (hwhole : w.Whole fd.calls (pieces (beforeZero message)))
    (hsend : Comms.sendMessage message = some data) :
    sendMessage w message fd =
      some (.success, { calls := fd.calls + 3, sent := fd.sent ++ data }) := by
  have htext : (message.takeWhile fun b => b != 0) = beforeZero message := by
    unfold beforeZero
    congr 1
    funext b
    by_cases hb : b = 0 <;> simp [hb]
  unfold Comms.sendMessage at hsend
  rw [htext] at hsend
  dsimp only at hsend
  split at hsend
  · cases hsend
  next hne =>
    have hdata : data = (pieces (beforeZero message)).flatten := by
      rw [← Option.some.inj hsend, flatten_pieces, frame]
      simp only [List.append_assoc]
    rw [sendMessage_eq hlength rfl, if_neg (by simpa using hne), hdata,
      ← (Writer.writes_sent_iff fd _).mpr hwhole]
    rfl

end

/-- **Short writes.**  A message is sent as a whole, or the call fails, exactly if the
message is empty or no `write` is short; its length has to fit into the buffer. -/
theorem sent_whole_iff (w : Writer) (message : List UInt8) (fd : Sink UInt8) :
    SentWhole w message fd ↔ (beforeZero message).length < 10 ^ 11 ∧
      (beforeZero message = [] ∨ w.Whole fd.calls (pieces (beforeZero message))) := by
  unfold SentWhole
  rcases Nat.lt_or_ge (beforeZero message).length (10 ^ 11) with hlength | hlength
  · rw [and_iff_right hlength, sendMessage_eq hlength rfl, ← Writer.writes_sent_iff fd,
      flatten_pieces]
    split
    next hnil => exact iff_of_true ⟨_, _, rfl, fun h => by cases h⟩ (.inl hnil)
    next hne =>
      constructor
      · rintro ⟨status, fd', heq, hsent⟩
        cases heq
        exact .inr (hsent rfl)
      · rintro (hnil | hsent)
        · exact absurd hnil hne
        · exact ⟨_, _, rfl, fun _ => hsent⟩
  · rw [sendMessage_long hlength]
    refine iff_of_false ?_ fun h => absurd h.1 (Nat.not_lt.mpr hlength)
    rintro ⟨_, _, heq, _⟩
    cases heq

/-- The third `write` takes one byte. -/
def oneByteOfThird : Writer where
  takes i n := if i = 2 then min n 1 else n
  pos i n hn := by
    split
    · exact Nat.lt_min.mpr ⟨hn, Nat.one_pos⟩
    · exact hn
  le i n := by
    split
    · exact Nat.min_le_left _ _
    · exact Nat.le_refl _

/-- Of `"hi"` the stream has `"h"`, and the call succeeds. -/
theorem sent_part : sendMessage oneByteOfThird [byte 'h', byte 'i'] { calls := 0, sent := [] } =
      some (.success, { calls := 3, sent := keyword ++ [byte '2'] ++ separator ++ [byte 'h'] }) ∧
    ¬ SentWhole oneByteOfThird [byte 'h', byte 'i'] { calls := 0, sent := [] } := by
  have hsend : sendMessage oneByteOfThird [byte 'h', byte 'i'] { calls := 0, sent := [] } =
      some (.success, { calls := 3, sent := keyword ++ [byte '2'] ++ separator ++ [byte 'h'] }) :=
    rfl
  refine ⟨hsend, ?_⟩
  rintro ⟨status, fd', heq, hsent⟩
  rw [hsend] at heq
  cases heq
  exact absurd (hsent rfl) (by decide)

end FlightRec.ShortWrites
