/-
# `FlightRec.Examine.ReadErrors` — reading from a stream that breaks off

Behind the bytes of a stream there is the end of file, or reads fail.  `read_message`
(examine/comms.c) keeps what `read` returns in a `size_t` and asks whether it is 0.  So -1
is taken for a number of bytes: a loop that adds it to what was received goes one back
(`fill_end`), and the loop over the digits finds the last digit in its buffer again
(`numberStep_failing`).

Here the code is modelled with failing reads and with what is in memory before it is
written, and the header is followed through all ways in which a stream can begin (`Shape`).

    what is taken for a header                                      (`readHeader_ok_iff`)
    when reading a header comes to an end                           (`readHeader_returns`)
-/
import FlightRec.Examine.Comms
import FlightRec.Lib.Loops

namespace FlightRec.ReadErrors

open Comms Loops Reader

/-! ## The code -/

/-- A descriptor: the bytes to come, and how many reads fail behind them before the end of
file; without a number, all of them do. -/
structure Descriptor where
  source : Source UInt8
  failures : Option Nat

/-- -1, as a `size_t`. -/
def minusOne : Nat := 2 ^ 64 - 1

/-- `read`: what it returns, as a `size_t`, and the bytes. -/
def Descriptor.read (fd : Descriptor) (count : Nat) : Nat × List UInt8 × Descriptor :=
  if fd.source.data.isEmpty then
    match fd.failures with
    | none => (minusOne, [], fd)
    | some 0 => (0, [], fd)
    | some (k + 1) => (minusOne, [], { fd with failures := some k })
  else
    let (chunk, source) := fd.source.read count
    (chunk.length, chunk, { fd with source })

/-- What is in memory before the program writes to it: in `buf`, and in blocks of
`malloc`. -/
structure Memory where
  stack : List UInt8
  heap : Nat → List UInt8
  stackSize : stack.length = 16
  heapSize : ∀ n, (heap n).length = n

/-- A buffer that is being filled. -/
structure FillState where
  fd : Descriptor
  buf : List UInt8
  received : Nat

/-- The loop that reads the prefix, and the one that reads the body. -/
def fillStep (total : Nat) (s : FillState) : FillState ⊕ Except CommsError FillState :=
  if s.received < total then
    let (got, bytes, fd) := s.fd.read (total - s.received)
    if got = 0 then .inr (.error .eof)
    else .inl { fd, buf := store s.buf s.received bytes,
                received := (s.received + got) % 2 ^ 64 }
  else .inr (.ok s)

/-- The number, as far as it was read. -/
structure NumberState where
  fd : Descriptor
  buf : List UInt8
  messageLen : Nat

/-- `buf[0]` -/
def NumberState.byte (s : NumberState) : UInt8 := s.buf.headD 0

/-- The loop that reads the number, byte by byte. -/
def numberStep (s : NumberState) : NumberState ⊕ Except CommsError NumberState :=
  let (got, bytes, fd) := s.fd.read 1
  if got = 0 then .inr (.error .eof)
  else
    let s := { s with fd, buf := store s.buf 0 bytes }
    if s.byte > byte '9' ∨ s.byte < byte '0' then .inr (.ok s)
    else .inl { s with messageLen := (s.messageLen * 10 + (s.byte - byte '0').toNat) % 2 ^ 64 }

/-- From the last byte that was read with the number up to the limit. -/
def readSeparator (s : NumberState) : Except CommsError (Nat × Descriptor) :=
  let (got, bytes, fd) := s.fd.read 3
  if got = 0 then .error .eof
  else if (store s.buf 1 bytes).take 4 ≠ separator then .error .invalid
  else if s.messageLen > 65536 then .error .tooLong
  else .ok (s.messageLen, fd)

/-- `read_message` up to the `malloc`: the length of the body. -/
def readHeader (memory : Memory) (fd : Descriptor) :
    Fuelled (Except CommsError (Nat × Descriptor)) :=
  (loop (fillStep keyword.length) ⟨fd, memory.stack, 0⟩).andThen fun s =>
    if s.buf ≠ keyword then .pure (.error .invalid)
    else (loop numberStep ⟨s.fd, s.buf, 0⟩).andThen fun s => .pure (readSeparator s)

/-- `read_message`: the message without the 0 behind it. -/
def readMessage (memory : Memory) (fd : Descriptor) :
    Fuelled (Except CommsError (List UInt8 × Descriptor)) :=
  (readHeader memory fd).andThen fun (messageLen, fd) =>
    (loop (fillStep messageLen) ⟨fd, memory.heap (messageLen + 1), 0⟩).andThen fun s =>
      .pure (.ok (s.buf.take messageLen, s.fd))

/-! ## Buffers -/

section
variable {data : List UInt8} {offset : Nat} {cuts : Nat → Bool} {failures : Option Nat}

@[simp] theorem store_nil (buf : List UInt8) (r : Nat) : store buf r [] = buf := by
  unfold store
  rw [List.append_nil, List.length_nil, Nat.add_zero, List.take_append_drop]

theorem store_store {buf a b : List UInt8} {r : Nat} (hr : r ≤ buf.length) :
    store (store buf r a) (r + a.length) b = store buf r (a ++ b) := by
  have hlen : (buf.take r ++ a).length = r + a.length := by
    rw [List.length_append, List.length_take, Nat.min_eq_left hr]
  unfold store
  rw [← hlen, List.take_left, List.drop_append, List.drop_eq_nil_of_le (Nat.le_add_right _ _),
    List.nil_append, List.drop_drop, hlen, List.length_append]
  simp only [List.append_assoc]
  congr 4
  omega

theorem read_piece_of_ne_nil (hdata : data ≠ []) {count : Nat} (hcount : 0 < count) :
    ∃ chunk rest, data = chunk ++ rest ∧ chunk ≠ [] ∧ chunk.length ≤ count ∧
      Descriptor.read ⟨⟨data, offset, cuts⟩, failures⟩ count =
        (chunk.length, chunk, ⟨⟨rest, offset + chunk.length, cuts⟩, failures⟩) := by
  obtain ⟨n, hn, hread, hle, hpos⟩ := read_eq (⟨data, offset, cuts⟩ : Source UInt8) count
  have hlen : (data.take n).length = n := by
    rw [List.length_take, Nat.min_eq_left hle]
  refine ⟨data.take n, data.drop n, (List.take_append_drop n data).symm, ?_, ?_, ?_⟩
  · intro hnil
    rw [hnil] at hlen
    exact absurd hlen.symm (Nat.ne_of_gt (hpos hcount hdata))
  · rw [hlen]
    exact hn
  · unfold Descriptor.read
    rw [if_neg (by rw [List.isEmpty_iff]; exact hdata), hread]
    simp only [hlen, Source.skip]

/-! ## Filling a buffer -/

theorem fill_steps {total : Nat} (htotal : total < 2 ^ 64) (n : Nat) :
    ∀ {xs rest buf : List UInt8} {offset r : Nat}, xs.length = n → r ≤ buf.length →
      (r + xs.length = total ∨ r + xs.length ≤ total ∧ rest = []) →
      Steps (fillStep total) ⟨⟨⟨xs ++ rest, offset, cuts⟩, failures⟩, buf, r⟩
        ⟨⟨⟨rest, offset + xs.length, cuts⟩, failures⟩, store buf r xs, r + xs.length⟩ := by
  induction n using Nat.strong_induction_on with
  | _ n ih =>
      intro xs rest buf offset r hn hbuf hall
      rcases eq_or_ne xs [] with rfl | hne
      · rw [store_nil]
        exact Steps.refl _
      have hpos := List.length_pos_iff.mpr hne
      have hle : r + xs.length ≤ total := hall.elim Nat.le_of_eq And.left
      obtain ⟨chunk, more, hsplit, hchunk, hcount, hread⟩ :=
        @read_piece_of_ne_nil (xs ++ rest) offset cuts failures (by simp [hne]) (total - r)
          (by omega)
      have hshort : chunk.length ≤ xs.length := by
        rcases hall with hfull | ⟨-, rfl⟩
        · omega
        · have := congrArg List.length hsplit
          rw [List.length_append, List.length_append, List.length_nil] at this
          omega
      obtain ⟨xs', rfl, rfl⟩ : ∃ xs', xs = chunk ++ xs' ∧ more = xs' ++ rest := by
        refine ⟨xs.drop chunk.length, ?_, ?_⟩
        · have htake := congrArg (List.take chunk.length) hsplit
          rw [List.take_append_of_le_length hshort, List.take_left] at htake
          conv_lhs => rw [← List.take_append_drop chunk.length xs, htake]
        · have hdrop := congrArg (List.drop chunk.length) hsplit
          rw [List.drop_append_of_le_length hshort, List.drop_left] at hdrop
          exact hdrop.symm
      have hpos' := List.length_pos_iff.mpr hchunk
      rw [List.length_append] at hn hle hall ⊢
      have hstep : fillStep total ⟨⟨⟨chunk ++ xs' ++ rest, offset, cuts⟩, failures⟩, buf, r⟩ =
          .inl ⟨⟨⟨xs' ++ rest, offset + chunk.length, cuts⟩, failures⟩, store buf r chunk,
            r + chunk.length⟩ := by
        unfold fillStep
        simp only [hread]
        rw [if_pos (by omega), if_neg (Nat.ne_of_gt hpos'), Nat.mod_eq_of_lt (by omega)]
      have hrest := @ih xs'.length (by omega) xs' rest (store buf r chunk) (offset + chunk.length)
        (r + chunk.length) rfl
        (by rw [store, List.length_append, List.length_append, List.length_take]; omega)
        (hall.imp (fun h => by omega) fun h => ⟨by omega, h.2⟩)
      rw [store_store hbuf] at hrest
      rw [← Nat.add_assoc, ← Nat.add_assoc]
      exact Steps.head hstep hrest

theorem fillStep_fails {total r : Nat} {buf : List UInt8} (k : Option Nat) (hr : r < total) :
    fillStep total ⟨⟨⟨[], offset, cuts⟩, k.map (· + 1)⟩, buf, r⟩ =
      .inl ⟨⟨⟨[], offset, cuts⟩, k⟩, buf, (r + minusOne) % 2 ^ 64⟩ := by
  unfold fillStep Descriptor.read
  cases k with
  | none =>
      simp only [if_pos hr, List.isEmpty_nil, if_true, Option.map_none, store_nil]
      rw [if_neg (by decide)]
  | some k =>
      simp only [if_pos hr, List.isEmpty_nil, if_true, Option.map_some, store_nil]
      rw [if_neg (by decide)]

theorem fillStep_eof {total r : Nat} {buf : List UInt8} (hr : r < total) :
    fillStep total ⟨⟨⟨[], offset, cuts⟩, some 0⟩, buf, r⟩ = .inr (.error .eof) := by
  unfold fillStep Descriptor.read
  simp only [if_pos hr, List.isEmpty_nil, if_true]

/-- Below 0 the buffer is taken for full. -/
theorem fillStep_minusOne {total : Nat} (htotal : total < 2 ^ 64) {buf : List UInt8}
    (fd : Descriptor) : fillStep total ⟨fd, buf, minusOne⟩ = .inr (.ok ⟨fd, buf, minusOne⟩) := by
  have hle : total ≤ minusOne := Nat.le_sub_one_of_lt htotal
  unfold fillStep
  rw [if_neg (Nat.not_lt.mpr hle)]

/-- At the end of the stream: either the end of file is seen, or `received` counts down past
0, and the loop takes the buffer for full. -/
theorem fill_end {total : Nat} (htotal : total < 2 ^ 64) {buf : List UInt8} (r : Nat) :
    ∀ {failures : Option Nat}, r < total →
      if ∀ k ∈ failures, r < k then
        (loop (fillStep total) ⟨⟨⟨[], offset, cuts⟩, failures⟩, buf, r⟩).Returns
          (.ok ⟨⟨⟨[], offset, cuts⟩, failures.map (· - (r + 1))⟩, buf, minusOne⟩)
      else (loop (fillStep total) ⟨⟨⟨[], offset, cuts⟩, failures⟩, buf, r⟩).Returns
        (.error .eof) := by
  induction r with
  | zero =>
      rintro (_ | _ | k) hr
      · rw [if_pos (by rintro k ⟨⟩)]
        refine (returns_loop_of_inl (fillStep_fails none hr)).mpr ?_
        exact returns_loop_of_inr (fillStep_minusOne htotal _)
      · rw [if_neg fun h => absurd (h 0 rfl) (Nat.lt_irrefl 0)]
        exact returns_loop_of_inr (fillStep_eof hr)
      · rw [if_pos (by rintro _ ⟨⟩; exact Nat.succ_pos k)]
        refine (returns_loop_of_inl (fillStep_fails (some k) hr)).mpr ?_
        exact returns_loop_of_inr (fillStep_minusOne htotal _)
  | succ r ih =>
      have hback : r + 1 < total → (r + 1 + minusOne) % 2 ^ 64 = r := by
        intro hr
        rw [minusOne, Nat.add_assoc, Nat.add_sub_cancel' (by decide), Nat.add_mod_right,
          Nat.mod_eq_of_lt (by omega)]
      rintro (_ | _ | k) hr
      · rw [if_pos (by rintro k ⟨⟩)]
        refine (returns_loop_of_inl (fillStep_fails none hr)).mpr ?_
        rw [hback hr]
        have hrest := @ih none (by omega)
        rwa [if_pos (by rintro k ⟨⟩)] at hrest
      · rw [if_neg fun h => absurd (h 0 rfl) (Nat.not_lt_zero _)]
        exact returns_loop_of_inr (fillStep_eof hr)
      · have hrest := @ih (some k) (by omega)
        have hnext : fillStep total ⟨⟨⟨[], offset, cuts⟩, some (k + 1)⟩, buf, r + 1⟩ =
            .inl ⟨⟨⟨[], offset, cuts⟩, some k⟩, buf, r⟩ := by
          have h := @fillStep_fails offset cuts total (r + 1) buf (some k) hr
          rwa [hback hr] at h
        rw [returns_loop_of_inl hnext, returns_loop_of_inl hnext]
        by_cases hk : r < k
        · rw [if_pos (by rintro _ ⟨⟩; exact hk)] at hrest
          rw [if_pos (by rintro _ ⟨⟩; exact Nat.succ_lt_succ hk)]
          rw [Option.map_some] at hrest ⊢
          rwa [Nat.add_sub_add_right]
        · rw [if_neg fun h => hk (h k rfl)] at hrest
          rw [if_neg fun h => hk (Nat.lt_of_succ_lt_succ (h (k + 1) rfl))]
          exact hrest

/-! ## The number -/

def isDigit (b : UInt8) : Bool := decide (byte '0' ≤ b ∧ b ≤ byte '9')

/-- The number that the digits continue. -/
def decimalFrom (v : Nat) (ds : List UInt8) : Nat :=
  ds.foldl (fun v b => v * 10 + (b - byte '0').toNat) v

/-- The number that the digits are. -/
def decimal (ds : List UInt8) : Nat := decimalFrom 0 ds

theorem isDigit_iff {b : UInt8} : isDigit b = true ↔ ¬ (b > byte '9' ∨ b < byte '0') := by
  unfold isDigit
  rw [decide_eq_true_iff, not_or, gt_iff_lt, UInt8.not_lt, UInt8.not_lt, and_comm]

theorem read_byte (c : UInt8) (rest : List UInt8) :
    Descriptor.read ⟨⟨c :: rest, offset, cuts⟩, failures⟩ 1 =
      (1, [c], ⟨⟨rest, offset + 1, cuts⟩, failures⟩) := by
  have hread : Source.read ⟨[c] ++ rest, offset, cuts⟩ 1 = ([c], ⟨rest, offset + 1, cuts⟩) :=
    read_piece (by simp) (Nat.le_refl 1) (fun k hk hlt => absurd hlt (Nat.not_lt.mpr hk))
      (Or.inr rfl)
  unfold Descriptor.read
  rw [List.singleton_append] at hread
  rw [if_neg (by simp), hread]
  rfl

section
variable {c b : UInt8} {rest tail : List UInt8} {v : Nat}

theorem numberStep_digit (hc : isDigit c = true) :
    numberStep ⟨⟨⟨c :: rest, offset, cuts⟩, failures⟩, b :: tail, v⟩ =
      .inl ⟨⟨⟨rest, offset + 1, cuts⟩, failures⟩, c :: tail,
        (v * 10 + (c - byte '0').toNat) % 2 ^ 64⟩ := by
  unfold numberStep
  rw [read_byte]
  exact if_neg (isDigit_iff.mp hc)

theorem numberStep_other (hc : isDigit c = false) :
    numberStep ⟨⟨⟨c :: rest, offset, cuts⟩, failures⟩, b :: tail, v⟩ =
      .inr (.ok ⟨⟨⟨rest, offset + 1, cuts⟩, failures⟩, c :: tail, v⟩) := by
  unfold numberStep
  rw [read_byte]
  exact if_pos (by_contra fun h => Bool.false_ne_true (hc ▸ isDigit_iff.mpr h))

end

/-- The loop reads the digits; the number is what a `size_t` keeps of it, and the last digit
stays in `buf[0]`. -/
theorem number_steps {rest tail : List UInt8} (ds : List UInt8) :
    ∀ {b : UInt8} {v offset : Nat}, (∀ d ∈ ds, isDigit d = true) →
      Steps numberStep ⟨⟨⟨ds ++ rest, offset, cuts⟩, failures⟩, b :: tail, v % 2 ^ 64⟩
        ⟨⟨⟨rest, offset + ds.length, cuts⟩, failures⟩, ds.getLastD b :: tail,
          decimalFrom v ds % 2 ^ 64⟩ := by
  induction ds with
  | nil =>
      intro b v offset _
      exact Steps.refl _
  | cons d ds ih =>
      intro b v offset hds
      have hstep := @numberStep_digit offset cuts failures d b (ds ++ rest) tail (v % 2 ^ 64)
        (hds d List.mem_cons_self)
      rw [Nat.add_mod, Nat.mod_mul_mod, ← Nat.add_mod] at hstep
      have hrest := @ih d (v * 10 + (d - byte '0').toNat) (offset + 1)
        fun x hx => hds x (List.mem_cons_of_mem d hx)
      rw [List.length_cons, Nat.add_comm ds.length, ← Nat.add_assoc, List.getLastD_cons]
      exact Steps.head hstep hrest

/-- With a digit in `buf[0]`, a read that fails counts as one more digit. -/
theorem numberStep_failing {d : UInt8} {tail : List UInt8} (hd : isDigit d = true) (v : Nat) :
    ∀ k : Option Nat, numberStep ⟨⟨⟨[], offset, cuts⟩, k.map (· + 1)⟩, d :: tail, v⟩ =
      .inl ⟨⟨⟨[], offset, cuts⟩, k⟩, d :: tail, (v * 10 + (d - byte '0').toNat) % 2 ^ 64⟩
  | none => if_neg (isDigit_iff.mp hd)
  | some _ => if_neg (isDigit_iff.mp hd)

theorem number_end_digit {d : UInt8} {tail : List UInt8} (hd : isDigit d = true) (k : Nat) :
    ∀ v : Nat, (loop numberStep ⟨⟨⟨[], offset, cuts⟩, some k⟩, d :: tail, v⟩).Returns
      (.error .eof) := by
  induction k with
  | zero =>
      intro v
      exact returns_loop_of_inr rfl
  | succ k ih =>
      intro v
      exact (returns_loop_of_inl (numberStep_failing hd v (some k))).mpr (ih _)

theorem number_stuck {d : UInt8} {tail : List UInt8} (hd : isDigit d = true) (v : Nat)
    (r : Except CommsError NumberState) :
    ¬ (loop numberStep ⟨⟨⟨[], offset, cuts⟩, none⟩, d :: tail, v⟩).Returns r := by
  have hgoesOn : ∀ s, (∃ v, s = ⟨⟨⟨[], offset, cuts⟩, none⟩, d :: tail, v⟩) →
      ∃ s', numberStep s = .inl s' ∧ ∃ v, s' = ⟨⟨⟨[], offset, cuts⟩, none⟩, d :: tail, v⟩ := by
    rintro _ ⟨v, rfl⟩
    exact ⟨_, numberStep_failing hd v none, _, rfl⟩
  exact not_returns_loop hgoesOn ⟨v, rfl⟩

/-! ## The end of the header -/

theorem take_four_iff {c : UInt8} {chunk : List UInt8} (h : chunk.length ≤ 3) :
    (store (c :: keyword.tail) 1 chunk).take 4 = separator ↔
      c = byte '\r' ∧ chunk = separator.drop 1 := by
  have hseparator : separator = [13, 10, 13, 10] := rfl
  have htail : keyword.tail = 111 :: 110 :: 116 :: keyword.drop 4 := rfl
  have hr : byte '\r' = 13 := rfl
  rw [hseparator, htail, hr]
  unfold store
  match chunk, h with
  | [], _ => simp
  | [a], _ => simp
  | [a, b], _ => simp
  | [a, b, d], _ => simp

theorem read_source (hdata : data ≠ []) (count : Nat) :
    Descriptor.read ⟨⟨data, offset, cuts⟩, failures⟩ count =
      ((Source.read ⟨data, offset, cuts⟩ count).1.length,
        (Source.read ⟨data, offset, cuts⟩ count).1,
        ⟨(Source.read ⟨data, offset, cuts⟩ count).2, failures⟩) := by
  unfold Descriptor.read
  rw [if_neg (by rw [List.isEmpty_iff]; exact hdata)]

theorem readSeparator_end (c : UInt8) (v : Nat) :
    ∃ e, readSeparator ⟨⟨⟨[], offset, cuts⟩, failures⟩, c :: keyword.tail, v⟩ = .error e := by
  have hno : (store (c :: keyword.tail) 1 []).take 4 ≠ separator := by
    rw [Ne, take_four_iff (by decide)]
    exact fun h => absurd h.2 (by decide)
  unfold readSeparator Descriptor.read
  rcases failures with _ | _ | k
  · exact ⟨.invalid, (if_neg (by decide)).trans (if_pos hno)⟩
  · exact ⟨.eof, rfl⟩
  · exact ⟨.invalid, (if_neg (by decide)).trans (if_pos hno)⟩

/-- The header ends well if the separator is there, and is not cut behind its first two
bytes. -/
theorem readSeparator_ok_iff {c : UInt8} {t : List UInt8} {p v n : Nat} {fd : Descriptor} :
    readSeparator ⟨⟨⟨t, p + 1, cuts⟩, failures⟩, c :: keyword.tail, v⟩ = .ok (n, fd) ↔
      c = byte '\r' ∧ v ≤ 65536 ∧ n = v ∧ cutAt cuts p = false ∧
        ∃ rest, t = separator.drop 1 ++ rest ∧ fd = ⟨⟨rest, p + 4, cuts⟩, failures⟩ := by
  rcases eq_or_ne t [] with rfl | ht
  · obtain ⟨e, he⟩ := @readSeparator_end (p + 1) cuts failures c v
    rw [he]
    constructor
    · rintro ⟨⟩
    · rintro ⟨-, -, -, -, rest, hrest, -⟩
      exact absurd (congrArg List.length hrest) (by simp [separator])
  constructor
  · intro h
    obtain ⟨chunk, rest, rfl, hchunk, hcount, hread⟩ :=
      @read_piece_of_ne_nil t (p + 1) cuts failures ht 3 (by decide)
    have hpos := List.length_pos_iff.mpr hchunk
    unfold readSeparator at h
    rw [hread] at h
    simp only [if_neg (Nat.ne_of_gt hpos)] at h
    split at h
    · cases h
    · next hfour =>
        obtain ⟨rfl, rfl⟩ := (take_four_iff hcount).mp (not_not.mp hfour)
        split at h
        · cases h
        · next hlimit =>
            cases h
            refine ⟨rfl, Nat.le_of_not_lt hlimit, rfl, ?_, rest, rfl, rfl⟩
            obtain ⟨chunk', fd', hread', -, hsep⟩ := read_separator cuts p rest
            rw [read_source ht, hread'] at hread
            have hsame : chunk' = separator.drop 1 := congrArg (fun r => r.2.1) hread
            by_contra hcut
            rw [if_pos (Bool.not_eq_false _ ▸ hcut), hsame] at hsep
            exact hsep (by decide)
  · rintro ⟨rfl, hv, rfl, hcut, rest, rfl, rfl⟩
    obtain ⟨chunk, fd', hread, hchunk, hsep⟩ := read_separator cuts p rest
    rw [if_neg (by rw [hcut]; exact Bool.false_ne_true)] at hsep
    obtain ⟨hfour, rfl⟩ := hsep
    have hne : chunk.length ≠ 0 := by
      intro h
      rw [List.length_eq_zero_iff] at h
      rw [h] at hchunk
      cases hchunk
    unfold readSeparator
    rw [read_source ht, hread]
    simp only [if_neg hne]
    have hbuf : (store (byte '\r' :: keyword.tail) 1 chunk).take 4 = separator := hfour
    rw [if_neg (not_not.mpr hbuf), if_neg (Nat.not_lt.mpr hv)]

/-! ## The header -/

/-- What there is to read, as far as it looks like a header: less than the keyword, another
one, the keyword and nothing else, digits up to the end, or digits and another byte. -/
inductive Shape (data : List UInt8) : Prop
  | short : data.length < keyword.length → Shape data
  | other {start rest : List UInt8} : data = start ++ rest → start.length = keyword.length →
      start ≠ keyword → Shape data
  | keyword : data = keyword → Shape data
  | digits {ds : List UInt8} : data = Comms.keyword ++ ds → ds ≠ [] →
      (∀ d ∈ ds, isDigit d = true) → Shape data
  | number {ds rest : List UInt8} {c : UInt8} : data = Comms.keyword ++ (ds ++ c :: rest) →
      (∀ d ∈ ds, isDigit d = true) → isDigit c = false → Shape data

theorem shape (data : List UInt8) : Shape data := by
  rcases Nat.lt_or_ge data.length keyword.length with hshort | hlong
  · exact .short hshort
  obtain ⟨start, rest, rfl, hstart⟩ : ∃ start rest, data = start ++ rest ∧
      start.length = keyword.length :=
    ⟨data.take keyword.length, data.drop keyword.length, (List.take_append_drop ..).symm, by
      rw [List.length_take, Nat.min_eq_left hlong]⟩
  rcases eq_or_ne start keyword with rfl | hne
  · have hds : ∀ d ∈ rest.takeWhile isDigit, isDigit d = true := fun d hd =>
      List.mem_takeWhile_imp hd
    have hsplit := List.takeWhile_append_dropWhile (p := isDigit) (l := rest)
    cases htail : rest.dropWhile isDigit with
    | nil =>
        rw [htail, List.append_nil] at hsplit
        rcases eq_or_ne rest [] with rfl | hrest
        · exact .keyword (List.append_nil _)
        · exact .digits rfl hrest (hsplit ▸ hds)
    | cons c t =>
        rw [htail] at hsplit
        refine .number (congrArg (keyword ++ ·) hsplit.symm) hds ?_
        have hc := List.head_dropWhile_not isDigit (l := rest) (by rw [htail]; simp)
        simpa only [htail, List.head_cons] using hc
  · exact .other rfl hstart hne

section
variable (memory : Memory)

theorem readHeader_start {start rest : List UInt8} (hstart : start.length = keyword.length)
    {r : Except CommsError (Nat × Descriptor)} :
    (readHeader memory ⟨⟨start ++ rest, offset, cuts⟩, failures⟩).Returns r ↔
      (if start ≠ keyword then Fuelled.pure (.error .invalid)
      else (loop numberStep ⟨⟨⟨rest, offset + keyword.length, cuts⟩, failures⟩, start, 0⟩).andThen
        fun s => .pure (readSeparator s)).Returns r := by
  have hkeyword : keyword.length = 16 := by decide
  have hfill := @fill_steps cuts failures keyword.length (by decide) _ start rest memory.stack
    offset 0 rfl (Nat.zero_le _) (Or.inl (by rw [Nat.zero_add, hstart]))
  have hbuf : store memory.stack 0 start = start := by
    have := memory.stackSize
    unfold store
    rw [List.take_zero, List.nil_append, List.drop_eq_nil_of_le (by omega), List.append_nil]
  rw [hbuf, Nat.zero_add, hstart] at hfill
  have hloop := hfill.returns_iff.mpr (returns_loop_of_inr (by
    unfold fillStep
    exact if_neg (Nat.lt_irrefl _)))
  exact Fuelled.andThen_ok_iff hloop

/-- Behind the keyword nothing comes: `buf[0]` is no digit, and no line end either. -/
theorem number_end_keyword (v : Nat) :
    ∃ e, ((loop numberStep ⟨⟨⟨[], offset, cuts⟩, failures⟩, keyword, v⟩).andThen
      fun s => Fuelled.pure (readSeparator s)).Returns (.error e) := by
  have hfailing : ∀ k : Option Nat,
      ∃ e, ((loop numberStep ⟨⟨⟨[], offset, cuts⟩, k.map (· + 1)⟩, keyword, v⟩).andThen
        fun s => Fuelled.pure (readSeparator s)).Returns (.error e) := by
    intro k
    have hstep : numberStep ⟨⟨⟨[], offset, cuts⟩, k.map (· + 1)⟩, keyword, v⟩ =
        .inr (.ok ⟨⟨⟨[], offset, cuts⟩, k⟩, keyword, v⟩) := by
      cases k with
      | none => rfl
      | some k => rfl
    obtain ⟨e, he⟩ := @readSeparator_end offset cuts k (byte 'C') v
    refine ⟨e, (Fuelled.andThen_ok_iff (returns_loop_of_inr hstep)).mpr ?_⟩
    exact Fuelled.returns_pure_iff.mpr he.symm
  rcases failures with _ | _ | k
  · exact hfailing none
  · exact ⟨.eof, Fuelled.andThen_error (returns_loop_of_inr rfl)⟩
  · exact hfailing (some k)

theorem readHeader_short (h : data.length < keyword.length) :
    ∃ e, (readHeader memory ⟨⟨data, offset, cuts⟩, failures⟩).Returns (.error e) := by
  have hfill := @fill_steps cuts failures keyword.length (by decide) _ data [] memory.stack
    offset 0 rfl (Nat.zero_le _) (Or.inr ⟨by omega, rfl⟩)
  have hend := @fill_end (offset + data.length) cuts keyword.length (by decide)
    (store memory.stack 0 data) (0 + data.length) failures (by omega)
  rw [List.append_nil] at hfill
  split at hend
  · have hloop := hfill.returns_iff.mpr hend
    unfold readHeader
    simp only [Fuelled.andThen_ok_iff hloop]
    split
    · exact ⟨.invalid, Fuelled.returns_pure _⟩
    · next hkeyword =>
        rw [not_not] at hkeyword
        rw [hkeyword]
        exact number_end_keyword 0
  · exact ⟨.eof, Fuelled.andThen_error (hfill.returns_iff.mpr hend)⟩

theorem readHeader_other {start rest : List UInt8} (hstart : start.length = keyword.length)
    (hne : start ≠ keyword) :
    (readHeader memory ⟨⟨start ++ rest, offset, cuts⟩, failures⟩).Returns (.error .invalid) := by
  rw [readHeader_start memory hstart, if_pos hne]
  exact Fuelled.returns_pure _

theorem readHeader_keyword :
    ∃ e, (readHeader memory ⟨⟨keyword, offset, cuts⟩, failures⟩).Returns (.error e) := by
  obtain ⟨e, he⟩ := @number_end_keyword (offset + keyword.length) cuts failures 0
  refine ⟨e, ?_⟩
  have h := @readHeader_start offset cuts failures memory keyword [] rfl (.error e)
  rw [List.append_nil, if_neg (not_not.mpr rfl)] at h
  exact h.mpr he

section
variable {ds : List UInt8} (hds : ∀ d ∈ ds, isDigit d = true)
include hds

theorem isDigit_getLastD (hne : ds ≠ []) (b : UInt8) : isDigit (ds.getLastD b) = true := by
  rw [List.getLastD_eq_getLast?, List.getLast?_eq_getLast_of_ne_nil hne]
  exact hds _ (List.getLast_mem hne)

theorem readHeader_digits (hne : ds ≠ []) :
    match failures with
    | none => ∀ r, ¬ (readHeader memory ⟨⟨keyword ++ ds, offset, cuts⟩, failures⟩).Returns r
    | some _ =>
        (readHeader memory ⟨⟨keyword ++ ds, offset, cuts⟩, failures⟩).Returns (.error .eof) := by
  have hlast := isDigit_getLastD hds hne (byte 'C')
  have hsteps := @number_steps cuts failures [] keyword.tail ds (byte 'C') 0
    (offset + keyword.length) hds
  rw [List.append_nil, Nat.zero_mod] at hsteps
  cases failures with
  | none =>
      intro r
      rw [readHeader_start memory rfl, if_neg (not_not.mpr rfl)]
      refine Fuelled.not_returns_andThen fun a ha => ?_
      exact number_stuck hlast _ a (hsteps.returns_iff.mp ha)
  | some k =>
      rw [readHeader_start memory rfl, if_neg (not_not.mpr rfl)]
      exact Fuelled.andThen_error (hsteps.returns_iff.mpr (number_end_digit hlast k _))

theorem readHeader_number {rest : List UInt8} {c : UInt8} (hc : isDigit c = false)
    {r : Except CommsError (Nat × Descriptor)} :
    (readHeader memory ⟨⟨keyword ++ (ds ++ c :: rest), offset, cuts⟩, failures⟩).Returns r ↔
      r = readSeparator ⟨⟨⟨rest, offset + (keyword.length + ds.length) + 1, cuts⟩, failures⟩,
        c :: keyword.tail, decimal ds % 2 ^ 64⟩ := by
  have hsteps := @number_steps cuts failures (c :: rest) keyword.tail ds (byte 'C') 0
    (offset + keyword.length) hds
  rw [Nat.zero_mod] at hsteps
  have hloop := hsteps.returns_iff.mpr (returns_loop_of_inr (numberStep_other hc))
  rw [readHeader_start memory rfl, if_neg (not_not.mpr rfl), ← Nat.add_assoc offset]
  exact (Fuelled.andThen_ok_iff hloop).trans Fuelled.returns_pure_iff

end

end

end

/-! ## What is taken for a header -/

/-- The stream begins with the keyword, digits and two line ends. -/
structure Descriptor.Begins (fd : Descriptor) (ds rest : List UInt8) : Prop where
  digits : ∀ d ∈ ds, isDigit d = true
  data : fd.source.data = keyword ++ (ds ++ (separator ++ rest))

/-- The header is cut within its last three bytes. -/
def Descriptor.cutHeader (fd : Descriptor) (ds : List UInt8) : Bool :=
  cutAt fd.source.cuts (fd.source.offset + (keyword.length + ds.length))

/-- The descriptor behind the header. -/
def Descriptor.behind (fd : Descriptor) (ds rest : List UInt8) : Descriptor where
  source := ⟨rest, fd.source.offset + (keyword.length + ds.length) + 4, fd.source.cuts⟩
  failures := fd.failures

section
variable {memory : Memory} {fd : Descriptor} {ds rest : List UInt8} {n : Nat}

theorem takeWhile_digits {c : UInt8} (hds : ∀ d ∈ ds, isDigit d = true) (hc : isDigit c = false)
    (rest : List UInt8) : (ds ++ c :: rest).takeWhile isDigit = ds := by
  rw [List.takeWhile_append_of_pos hds, List.takeWhile_cons_of_neg (by rw [hc]; simp),
    List.append_nil]

theorem Descriptor.Begins.unique {ds' rest' : List UInt8} (h : fd.Begins ds rest)
    (h' : fd.Begins ds' rest') : ds = ds' ∧ rest = rest' := by
  have hdata := List.append_cancel_left (h.data.symm.trans h'.data)
  have htake := congrArg (List.takeWhile isDigit) hdata
  have hseparator : separator = byte '\r' :: separator.tail := rfl
  rw [hseparator, List.cons_append, List.cons_append,
    takeWhile_digits h.digits (by decide), takeWhile_digits h'.digits (by decide)] at htake
  subst htake
  exact ⟨rfl, List.append_cancel_left (List.append_cancel_left hdata)⟩

/-- **Headers.**  The length of a body is taken from the digits, if there are any, modulo
2^64. -/
theorem readHeader_ok_iff {fd' : Descriptor} :
    (readHeader memory fd).Returns (.ok (n, fd')) ↔ ∃ ds rest, fd.Begins ds rest ∧
      fd.cutHeader ds = false ∧ n = decimal ds % 2 ^ 64 ∧ n ≤ 65536 ∧ fd' = fd.behind ds rest := by
  obtain ⟨⟨data, offset, cuts⟩, failures⟩ := fd
  constructor
  · intro h
    cases shape data with
    | short hshort =>
        obtain ⟨e, he⟩ := @readHeader_short data offset cuts failures memory hshort
        cases h.unique he
    | other hdata hstart hne =>
        subst hdata
        cases h.unique (readHeader_other memory hstart hne)
    | keyword hdata =>
        subst hdata
        obtain ⟨e, he⟩ := @readHeader_keyword offset cuts failures memory
        cases h.unique he
    | digits hdata hne hds =>
        subst hdata
        have hend := @readHeader_digits offset cuts failures memory _ hds hne
        cases failures with
        | none => exact absurd h (hend _)
        | some k => cases h.unique hend
    | @number ds rest c hdata hds hc =>
        subst hdata
        have hsep := ((readHeader_number memory hds hc).mp h).symm
        obtain ⟨rfl, hlimit, rfl, hcut, rest, rfl, rfl⟩ := readSeparator_ok_iff.mp hsep
        exact ⟨ds, rest, ⟨hds, rfl⟩, hcut, rfl, hlimit, rfl⟩
  · rintro ⟨ds, rest, ⟨hds, hdata⟩, hcut, rfl, hlimit, rfl⟩
    have hdata : data = keyword ++ (ds ++ (separator ++ rest)) := hdata
    subst hdata
    refine (readHeader_number memory hds (c := byte '\r') (by decide)).mpr ?_
    exact (readSeparator_ok_iff.mpr ⟨rfl, hlimit, rfl, hcut, rest, rfl, rfl⟩).symm

/-- A header is read to its end, unless it is a number that all reads behind fail of. -/
theorem readHeader_returns (memory : Memory) (fd : Descriptor) :
    (∃ r, (readHeader memory fd).Returns r) ∨ fd.failures = none ∧
      ∃ ds, ds ≠ [] ∧ (∀ d ∈ ds, isDigit d = true) ∧ fd.source.data = keyword ++ ds := by
  obtain ⟨⟨data, offset, cuts⟩, failures⟩ := fd
  cases shape data with
  | short hshort =>
      obtain ⟨e, he⟩ := @readHeader_short data offset cuts failures memory hshort
      exact Or.inl ⟨_, he⟩
  | other hdata hstart hne =>
      subst hdata
      exact Or.inl ⟨_, readHeader_other memory hstart hne⟩
  | keyword hdata =>
      subst hdata
      obtain ⟨e, he⟩ := @readHeader_keyword offset cuts failures memory
      exact Or.inl ⟨_, he⟩
  | @digits ds hdata hne hds =>
      subst hdata
      have hend := @readHeader_digits offset cuts failures memory _ hds hne
      cases failures with
      | none => exact Or.inr ⟨rfl, ds, hne, hds, rfl⟩
      | some k => exact Or.inl ⟨_, hend⟩
  | number hdata hds hc =>
      subst hdata
      exact Or.inl ⟨_, (readHeader_number memory hds hc).mpr rfl⟩

end

end FlightRec.ReadErrors
