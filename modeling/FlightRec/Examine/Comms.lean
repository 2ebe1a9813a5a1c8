/-
# `FlightRec.Examine.Comms` — messages on a byte stream

A message goes over the socket behind a header `Content-Length: <n>` and an empty line
(examine/comms.c).  `read_message` takes it out of the stream again: the keyword and
the body in loops, the number byte by byte, and what is left of the line ends with one
`read` of three bytes.  This one has no loop around it.

    a header that is cut within the last three bytes is refused, and any other
    message is read as it was sent, wherever the stream is cut   (`readMessage_frame`)
    messages come out as they went in, in order, exactly if no
    header is cut there                                          (`readMessages_iff`)
-/
import FlightRec.Lib.Reader
import Mathlib.Algebra.Group.Nat.Defs
import Mathlib.Data.List.TakeWhile

namespace FlightRec.Comms

open Reader

/-! ## The code -/

/-- The byte of an ASCII character. -/
def byte (c : Char) : UInt8 := UInt8.ofNat c.toNat

/-- `PREFIX` -/
def keyword : List UInt8 := "Content-Length: ".toList.map byte

/-- Two line ends. -/
def separator : List UInt8 := "\r\n\r\n".toList.map byte

/-- Why `read_message` fails; `malloc` does not. -/
inductive CommsError where
  /-- `Error reading from socket` -/
  | eof
  /-- `Got invalid message from client` -/
  | invalid
  /-- `Message is too long` -/
  | tooLong
  deriving DecidableEq, Repr

/-- The descriptor that is read from. -/
abbrev Fd := Source UInt8

/-- Stores bytes in a buffer. -/
def store (buf : List UInt8) (i : Nat) (chunk : List UInt8) : List UInt8 :=
  buf.take i ++ chunk ++ buf.drop (i + chunk.length)

/-- The loop that reads the number; returns it with the byte behind it.  The first
argument bounds the number of reads. -/
def readLength : Nat → Nat → Fd → Option (Nat × UInt8 × Fd)
  | 0, _, _ => none
  | fuel + 1, messageLen, fd =>
      match fd.read 1 with
      | ([], _) => none
      | (c :: _, fd) =>
          if c > byte '9' ∨ c < byte '0' then some (messageLen, c, fd)
          else readLength fuel ((messageLen * 10 + (c - byte '0').toNat) % 2 ^ 64) fd

/-- `read_message`, with the descriptor it leaves. -/
def readMessage (fd : Fd) : Except CommsError (List UInt8 × Fd) :=
  match fd.fill keyword.length keyword.length with
  | none => .error .eof
  | some (buf, fd) =>
      if buf ≠ keyword then .error .invalid
      else match readLength (fd.data.length + 1) 0 fd with
        | none => .error .eof
        | some (messageLen, c, fd) =>
            let (chunk, fd) := fd.read 3
            if chunk.isEmpty then .error .eof
            else if (store (store buf 0 [c]) 1 chunk).take 4 ≠ separator then .error .invalid
            else if messageLen > 65536 then .error .tooLong
            else match fd.fill messageLen messageLen with
              | none => .error .eof
              | some (message, fd) => .ok (message, fd)

/-- What `send_message` writes.  The message ends before its first NUL, and a `write`
of nothing counts as a failure. -/
def sendMessage (message : List UInt8) : Option (List UInt8) :=
  let text := message.takeWhile fun b => b != 0
  if text.isEmpty then none
  else some (keyword ++ (Nat.toDigits 10 text.length).map byte ++ separator ++ text)

/-- The stream after sending some messages. -/
def sendMessages (messages : List (List UInt8)) : Option (List UInt8) :=
  (messages.mapM sendMessage).map List.flatten

/-- `n` calls of `read_message`, up to the first that fails. -/
def readMessages : Nat → Fd → Option (List (List UInt8))
  | 0, _ => some []
  | n + 1, fd =>
      match readMessage fd with
      | .error _ => none
      | .ok (message, fd) => (readMessages n fd).map fun rest => message :: rest

/-! ## The number -/

theorem digit_bounds {c : Char} (h : c.isDigit = true) : 48 ≤ c.toNat ∧ c.toNat ≤ 57 := by
  simp only [Char.isDigit, Bool.and_eq_true, decide_eq_true_eq, ge_iff_le,
    UInt32.le_iff_toNat_le] at h
  exact h

theorem byte_digit {c : Char} (h : c.isDigit = true) :
    ¬ (byte c > byte '9' ∨ byte c < byte '0') ∧
      (byte c - byte '0').toNat = c.toNat - '0'.toNat := by
  obtain ⟨hlo, hhi⟩ := digit_bounds h
  have hc : (byte c).toNat = c.toNat := by
    rw [byte, UInt8.toNat_ofNat']
    omega
  have h0 : (byte '0').toNat = 48 := rfl
  have h9 : (byte '9').toNat = 57 := rfl
  refine ⟨?_, ?_⟩
  · rw [gt_iff_lt, UInt8.lt_iff_toNat_lt, UInt8.lt_iff_toNat_lt, hc, h0, h9]
    omega
  · rw [UInt8.toNat_sub_of_le _ _ (by rw [UInt8.le_iff_toNat_le, hc, h0]; exact hlo), hc]
    rfl

theorem le_ofDigitChars (cs : List Char) : ∀ init, init ≤ Nat.ofDigitChars 10 cs init := by
  induction cs with
  | nil =>
      intro init
      exact Nat.le_of_eq Nat.ofDigitChars_nil.symm
  | cons c cs ih =>
      intro init
      rw [Nat.ofDigitChars_cons]
      have := ih (10 * init + (c.toNat - '0'.toNat))
      omega

theorem readLength_digits {c : UInt8} (hc : c > byte '9' ∨ c < byte '0') {rest : List UInt8}
    {cuts : Nat → Bool} {cs : List Char} : ∀ {fuel init offset : Nat},
    (∀ x ∈ cs, x.isDigit = true) → cs.length < fuel → Nat.ofDigitChars 10 cs init < 2 ^ 64 →
      readLength fuel init ⟨cs.map byte ++ c :: rest, offset, cuts⟩ =
        some (Nat.ofDigitChars 10 cs init, c, ⟨rest, offset + cs.length + 1, cuts⟩) := by
  -- one byte is read in one piece
  have hread : ∀ (b : UInt8) (data : List UInt8) (offset : Nat),
      Source.read ⟨b :: data, offset, cuts⟩ 1 = ([b], ⟨data, offset + 1, cuts⟩) := by
    intro b data offset
    exact @read_piece _ [b] data offset 1 cuts (by simp) (Nat.le_refl 1)
      (fun k hk hlt => absurd hlt (Nat.not_lt.mpr hk)) (Or.inr rfl)
  induction cs with
  | nil =>
      rintro (_ | fuel) init offset _ hfuel _
      · cases hfuel
      · rw [List.map_nil, List.nil_append, readLength, hread]
        exact if_pos hc
  | cons x cs ih =>
      rintro (_ | fuel) init offset hdigits hfuel hlt
      · cases hfuel
      · obtain ⟨hdigit, hsub⟩ := byte_digit (hdigits x (by simp))
        rw [Nat.ofDigitChars_cons] at hlt ⊢
        have hnext : (init * 10 + (byte x - byte '0').toNat) % 2 ^ 64 =
            10 * init + (x.toNat - '0'.toNat) := by
          rw [hsub, Nat.mod_eq_of_lt]
          · omega
          · have := le_ofDigitChars cs (10 * init + (x.toNat - '0'.toNat))
            omega
        rw [List.map_cons, List.cons_append, readLength, hread]
        simp only [if_neg hdigit, hnext]
        rw [ih (fun y hy => hdigits y (by simp [hy])) (by simpa using hfuel) hlt]
        rw [List.length_cons, show offset + 1 + cs.length = offset + (cs.length + 1) by omega]

/-! ## The end of the header -/

/-- The header is cut in the last three bytes of the separator, which starts at `p`. -/
def cutAt (cuts : Nat → Bool) (p : Nat) : Bool := cuts (p + 2) || cuts (p + 3)

/-- The one `read` behind the number, with `\r` in `buf[0]` and the keyword behind it,
gets all of the separator only if that is not cut. -/
theorem read_separator (cuts : Nat → Bool) (p : Nat) (rest : List UInt8) :
    ∃ chunk fd, Source.read ⟨separator.drop 1 ++ rest, p + 1, cuts⟩ 3 = (chunk, fd) ∧
      chunk.isEmpty = false ∧
      if cutAt cuts p = true then (store (store keyword 0 [byte '\r']) 1 chunk).take 4 ≠ separator
      else (store (store keyword 0 [byte '\r']) 1 chunk).take 4 = separator ∧
        fd = ⟨rest, p + 4, cuts⟩ := by
  unfold cutAt
  cases h2 : cuts (p + 2) with
  | true =>
      refine ⟨[byte '\n'], _, @read_piece _ [byte '\n']
        (byte '\r' :: byte '\n' :: rest) _ _ _ (by simp) (by decide)
        (fun k hk hlt => absurd hlt (Nat.not_lt.mpr hk)) (Or.inl h2), rfl, ?_⟩
      rw [Bool.true_or, if_pos rfl]
      decide
  | false =>
      have hone : ∀ k, 0 < k → k < 2 → cuts (p + 1 + k) = false := by
        intro k hk hlt
        rwa [show p + 1 + k = p + 2 by omega]
      cases h3 : cuts (p + 3) with
      | true =>
          refine ⟨[byte '\n', byte '\r'], _, @read_piece _ [byte '\n', byte '\r']
            (byte '\n' :: rest) _ _ _ (by simp) (by decide) hone (Or.inl h3), rfl, ?_⟩
          rw [Bool.false_or, if_pos rfl]
          decide
      | false =>
          refine ⟨separator.drop 1, _, read_piece (by decide) (by decide) ?_ (Or.inr rfl),
            by decide, ?_⟩
          · intro k hk hlt
            rcases (by have : k < 3 := hlt; omega : k < 2 ∨ k = 2) with hk2 | rfl
            · exact hone k hk hk2
            · exact h3
          · rw [if_neg (by decide)]
            exact ⟨by decide, rfl⟩

/-! ## One message -/

/-- A message that can be sent and read: not empty, of at most 65536 bytes, none of
them NUL. -/
structure Sendable (message : List UInt8) : Prop where
  nonempty : message ≠ []
  short : message.length ≤ 65536
  text : ∀ b ∈ message, b ≠ 0

/-- How far behind the beginning of a message its separator is. -/
def headerLength (message : List UInt8) : Nat :=
  keyword.length + (Nat.toDigits 10 message.length).length

/-- A message with its header. -/
def frame (message : List UInt8) : List UInt8 :=
  keyword ++ ((Nat.toDigits 10 message.length).map byte ++ (separator ++ message))

theorem frame_length (message : List UInt8) :
    (frame message).length = headerLength message + 4 + message.length := by
  unfold frame headerLength
  rw [List.length_append, List.length_append, List.length_append, List.length_map,
    show separator.length = 4 from rfl]
  omega

theorem sendMessage_eq {message : List UInt8} (h : Sendable message) :
    sendMessage message = some (frame message) := by
  have htext : (message.takeWhile fun b => b != 0) = message := by
    rw [List.takeWhile_eq_self_iff]
    intro b hb
    exact bne_iff_ne.mpr (h.text b hb)
  unfold sendMessage
  rw [htext, if_neg (by simpa using h.nonempty)]
  simp only [frame, List.append_assoc]

/-- **What `read_message` makes of a message**: it is lost exactly if its header is
cut in the last three bytes. -/
theorem readMessage_frame {message : List UInt8} (h : Sendable message) (rest : List UInt8)
    (offset : Nat) (cuts : Nat → Bool) :
    readMessage ⟨frame message ++ rest, offset, cuts⟩ =
      if cutAt cuts (offset + headerLength message) = true then .error .invalid
      else .ok (message, ⟨rest, offset + (frame message).length, cuts⟩) := by
  have hvalue : Nat.ofDigitChars 10 (Nat.toDigits 10 message.length) 0 = message.length :=
    Nat.ofDigitChars_ten_toDigits
  have hkeyword := @fill_append _ keyword.length keyword
    ((Nat.toDigits 10 message.length).map byte ++
      byte '\r' :: (separator.drop 1 ++ (message ++ rest)))
    offset cuts (Nat.le_refl _)
  have hlength := @readLength_digits (byte '\r') (by decide)
    (separator.drop 1 ++ (message ++ rest)) cuts (Nat.toDigits 10 message.length)
    (((Nat.toDigits 10 message.length).map byte ++
      byte '\r' :: (separator.drop 1 ++ (message ++ rest))).length + 1) 0
    (offset + keyword.length)
    (fun c hc => Nat.isDigit_of_mem_toDigits (by decide) (by decide) hc)
    (by rw [List.length_append, List.length_map]; omega)
    (by rw [hvalue]; have := h.short; omega)
  rw [hvalue] at hlength
  obtain ⟨chunk, fd, hread, hchunk, hsep⟩ :=
    read_separator cuts (offset + keyword.length + (Nat.toDigits 10 message.length).length)
      (message ++ rest)
  have hdata : frame message ++ rest = keyword ++ ((Nat.toDigits 10 message.length).map byte ++
      byte '\r' :: (separator.drop 1 ++ (message ++ rest))) := by
    simp only [frame, List.append_assoc]
    rfl
  unfold readMessage
  rw [hdata, hkeyword]
  simp only [ne_eq, not_true_eq_false, if_false, hlength, hread, hchunk, Bool.false_eq_true]
  rw [headerLength, ← Nat.add_assoc]
  split at hsep
  · next hcut => rw [if_pos hcut, if_pos hsep]
  · next hcut =>
      have hbody := @fill_append _ message.length message rest
        (offset + headerLength message + 4) cuts (Nat.le_refl _)
      rw [if_neg hcut, if_neg (not_not.mpr hsep.1), if_neg (by have := h.short; omega), hsep.2]
      rw [headerLength, ← Nat.add_assoc] at hbody
      rw [hbody, frame_length, headerLength]
      simp only [Nat.add_assoc]

/-! ## All messages -/

/-- Where the separators are, in a stream that is sent from `offset` on. -/
def separators : Nat → List (List UInt8) → List Nat
  | _, [] => []
  | offset, message :: rest =>
      (offset + headerLength message) :: separators (offset + (frame message).length) rest

theorem sendMessages_eq {messages : List (List UInt8)} (h : ∀ m ∈ messages, Sendable m) :
    sendMessages messages = some (messages.flatMap frame) := by
  unfold sendMessages
  induction messages with
  | nil => rfl
  | cons m rest ih =>
      obtain ⟨frames, hframes, hflat⟩ :=
        Option.map_eq_some_iff.mp (ih fun m hm => h m (by simp [hm]))
      rw [List.mapM_cons, sendMessage_eq (h m (by simp)), hframes, List.flatMap_cons, ← hflat]
      rfl

/-- Reading a stream of messages goes well up to the first separator that is cut. -/
theorem readMessages_flatMap {messages : List (List UInt8)} (cuts : Nat → Bool) :
    ∀ {offset : Nat}, (∀ m ∈ messages, Sendable m) →
      (readMessages messages.length ⟨messages.flatMap frame, offset, cuts⟩ = some messages ↔
        ∀ p ∈ separators offset messages, cutAt cuts p = false) := by
  induction messages with
  | nil =>
      intro offset _
      exact ⟨fun _ p hp => (by cases hp), fun _ => rfl⟩
  | cons m rest ih =>
      intro offset h
      have hrest := @ih (offset + (frame m).length) fun m hm => h m (by simp [hm])
      rw [List.length_cons, readMessages, List.flatMap_cons, readMessage_frame (h m (by simp)),
        separators, List.forall_mem_cons, ← hrest]
      cases cutAt cuts (offset + headerLength m) with
      | true => simp
      | false => simp

/-- **Framing.**  The messages are read as they were sent, for all of them and in
order, exactly if no read is cut in the last three bytes of a header. -/
theorem readMessages_iff {messages : List (List UInt8)} (h : ∀ m ∈ messages, Sendable m)
    (cuts : Nat → Bool) :
    (∃ stream, sendMessages messages = some stream ∧
        readMessages messages.length (.start stream cuts) = some messages) ↔
      ∀ p ∈ separators 0 messages, cuts (p + 2) = false ∧ cuts (p + 3) = false := by
  have hcut : ∀ p, cutAt cuts p = false ↔ cuts (p + 2) = false ∧ cuts (p + 3) = false :=
    fun p => Bool.or_eq_false_iff
  simp only [← hcut]
  rw [← readMessages_flatMap cuts h, sendMessages_eq h]
  constructor
  · rintro ⟨stream, hstream, hread⟩
    cases hstream
    exact hread
  · intro hread
    exact ⟨_, rfl, hread⟩

instance (message : List UInt8) : Decidable (Sendable message) :=
  decidable_of_iff (message ≠ [] ∧ message.length ≤ 65536 ∧ message.all (· != 0) = true) <| by
    simp only [List.all_eq_true, bne_iff_ne]
    exact ⟨fun ⟨h₁, h₂, h₃⟩ => ⟨h₁, h₂, h₃⟩, fun h => ⟨h.nonempty, h.short, h.text⟩⟩

/-- The first piece of the stream ends behind the first line end. -/
theorem readMessage_splitHeader :
    Sendable [byte 'h', byte 'i'] ∧ ∃ stream, sendMessages [[byte 'h', byte 'i']] = some stream ∧
      readMessage (.start stream fun k => k == 19) = .error .invalid ∧
      readMessages 1 (.start stream fun k => k == 19) ≠ some [[byte 'h', byte 'i']] := by
  exact ⟨by decide, _, rfl, rfl, by decide⟩

theorem readMessages_iff_twoMessages :
    ∃ stream, sendMessages [[byte 'h', byte 'i'], [byte '!']] = some stream ∧
      readMessages 2 (.start stream fun k => k % 7 == 4) =
        some [[byte 'h', byte 'i'], [byte '!']] :=
  (@readMessages_iff [[byte 'h', byte 'i'], [byte '!']] (by decide)
    fun k => k % 7 == 4).mpr (by decide)

end FlightRec.Comms
