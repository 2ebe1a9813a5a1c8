/-
# `FlightRec.Examine.StreamEnds` — what `read_message` makes of a stream

A header is `Content-Length: `, digits, and two line ends.  `read_message`
(examine/comms.c) sees more than that for a header (`proceeds_iff_hasHeader_iff`).  A stream
may end at any byte, with the end of file or with reads that fail; of a message that is not
there to its end, `read_message` may report success, or never return (`ends_iff`).

Where no read fails, it does what is said of it in `FlightRec.Examine.Comms`
(`readMessage_eof`).
-/
import FlightRec.Examine.ReadErrors

namespace FlightRec.ReadErrors

open Comms Loops Reader

section
variable {memory : Memory} {fd : Descriptor} {ds rest : List UInt8} {n : Nat}

/-! ## The grammar of headers -/

/-- `read_message` goes on to a body of this length. -/
def Proceeds (memory : Memory) (fd : Descriptor) (n : Nat) : Prop :=
  ∃ fd', (readHeader memory fd).Returns (.ok (n, fd'))

/-- The stream begins with the header of a body of this length. -/
def Descriptor.HasHeader (fd : Descriptor) (n : Nat) : Prop :=
  ∃ ds rest, fd.Begins ds rest ∧ ds ≠ [] ∧ decimal ds = n ∧ n ≤ 65536

theorem proceeds_iff : Proceeds memory fd n ↔ ∃ ds rest, fd.Begins ds rest ∧
    fd.cutHeader ds = false ∧ n = decimal ds % 2 ^ 64 ∧ n ≤ 65536 := by
  constructor
  · rintro ⟨fd', h⟩
    obtain ⟨ds, rest, hbegins, hcut, hn, hlimit, -⟩ := readHeader_ok_iff.mp h
    exact ⟨ds, rest, hbegins, hcut, hn, hlimit⟩
  · rintro ⟨ds, rest, hbegins, hcut, hn, hlimit⟩
    exact ⟨_, readHeader_ok_iff.mpr ⟨ds, rest, hbegins, hcut, hn, hlimit, rfl⟩⟩

/-- **The grammar.**  Headers are accepted by the grammar exactly if no good one is cut
within its last three bytes, and no other passes for one: without digits, or with a number
that comes to at most 65536 modulo 2^64. -/
theorem proceeds_iff_hasHeader_iff (memory : Memory) (fd : Descriptor) :
    (∀ n, Proceeds memory fd n ↔ fd.HasHeader n) ↔
      ∀ ds rest, fd.Begins ds rest →
        if ds ≠ [] ∧ decimal ds ≤ 65536 then fd.cutHeader ds = false
        else fd.cutHeader ds = true ∨ 65536 < decimal ds % 2 ^ 64 := by
  constructor
  · intro h ds rest hbegins
    split
    · next hgood =>
        obtain ⟨ds', rest', hbegins', hcut, -, -⟩ := proceeds_iff.mp
          ((h (decimal ds)).mpr ⟨ds, rest, hbegins, hgood.1, rfl, hgood.2⟩)
        rwa [(hbegins.unique hbegins').1]
    · next hbad =>
        by_contra hno
        obtain ⟨hcut, hlimit⟩ := not_or.mp hno
        have hproceeds : Proceeds memory fd (decimal ds % 2 ^ 64) := proceeds_iff.mpr
          ⟨ds, rest, hbegins, Bool.not_eq_true _ ▸ hcut, rfl, Nat.le_of_not_lt hlimit⟩
        obtain ⟨ds', rest', hbegins', hne, hn, -⟩ := (h _).mp hproceeds
        obtain ⟨rfl, rfl⟩ := hbegins.unique hbegins'
        rw [← hn] at hlimit
        exact hbad ⟨hne, Nat.le_of_not_lt hlimit⟩
  · intro h n
    rw [proceeds_iff]
    constructor
    · rintro ⟨ds, rest, hbegins, hcut, rfl, hlimit⟩
      have hds := h ds rest hbegins
      split at hds
      · next hgood =>
          refine ⟨ds, rest, hbegins, hgood.1, ?_, hlimit⟩
          rw [Nat.mod_eq_of_lt (by omega)]
      · rcases hds with hcut' | hlimit'
        · rw [hcut] at hcut'
          cases hcut'
        · omega
    · rintro ⟨ds, rest, hbegins, hne, rfl, hlimit⟩
      have hds := h ds rest hbegins
      rw [if_pos ⟨hne, hlimit⟩] at hds
      exact ⟨ds, rest, hbegins, hds, (Nat.mod_eq_of_lt (by omega)).symm, hlimit⟩

/-- Memory with zeros in it. -/
def zeroed : Memory where
  stack := List.replicate 16 0
  heap n := List.replicate n 0
  stackSize := rfl
  heapSize _ := List.length_replicate

/-- A stream of the text, that all reads behind fail of. -/
def brokenStream (text : String) : Descriptor where
  source := .start (text.toList.map byte) fun _ => false
  failures := none

/-- 2^64 + 1 passes for 1, and no number for 0. -/
theorem proceeds_overflow :
    (Proceeds zeroed (brokenStream "Content-Length: 18446744073709551617\r\n\r\n") 1 ∧
      ¬ (brokenStream "Content-Length: 18446744073709551617\r\n\r\n").HasHeader 1) ∧
    Proceeds zeroed (brokenStream "Content-Length: \r\n\r\n") 0 ∧
      ¬ (brokenStream "Content-Length: \r\n\r\n").HasHeader 0 := by
  have hlong : (brokenStream "Content-Length: 18446744073709551617\r\n\r\n").Begins
      ("18446744073709551617".toList.map byte) [] := ⟨List.all_eq_true.mp rfl, rfl⟩
  have hnone : (brokenStream "Content-Length: \r\n\r\n").Begins [] [] :=
    ⟨List.all_eq_true.mp rfl, rfl⟩
  refine ⟨⟨?_, ?_⟩, ?_, ?_⟩
  · exact proceeds_iff.mpr ⟨_, _, hlong, by decide, by decide, by decide⟩
  · rintro ⟨ds, rest, hbegins, -, hn, -⟩
    obtain ⟨rfl, -⟩ := hlong.unique hbegins
    exact absurd hn (by decide)
  · exact proceeds_iff.mpr ⟨_, _, hnone, by decide, by decide, by decide⟩
  · rintro ⟨ds, rest, hbegins, hne, -, -⟩
    obtain ⟨rfl, -⟩ := hnone.unique hbegins
    exact hne rfl

/-! ## The body -/

theorem readBody_full {xs rest buf : List UInt8} {offset : Nat} {cuts : Nat → Bool}
    {failures : Option Nat} (hlimit : xs.length < 2 ^ 64) :
    (loop (fillStep xs.length) ⟨⟨⟨xs ++ rest, offset, cuts⟩, failures⟩, buf, 0⟩).Returns
      (.ok ⟨⟨⟨rest, offset + xs.length, cuts⟩, failures⟩, store buf 0 xs, xs.length⟩) := by
  have hfill := @fill_steps cuts failures xs.length hlimit _ xs rest buf offset 0 rfl
    (Nat.zero_le _) (Or.inl (Nat.zero_add _))
  rw [Nat.zero_add] at hfill
  refine hfill.returns_iff.mpr (returns_loop_of_inr ?_)
  unfold fillStep
  exact if_neg (Nat.lt_irrefl _)

/-- Of a body that breaks off the loop sees the end of file, unless more reads fail before
it than there were bytes. -/
theorem readBody_short {total : Nat} {xs buf : List UInt8} {offset : Nat} {cuts : Nat → Bool}
    {failures : Option Nat} (htotal : total < 2 ^ 64) (hshort : xs.length < total) :
    if ∀ k ∈ failures, xs.length < k then
      ∃ s, (loop (fillStep total) ⟨⟨⟨xs, offset, cuts⟩, failures⟩, buf, 0⟩).Returns (.ok s)
    else (loop (fillStep total) ⟨⟨⟨xs, offset, cuts⟩, failures⟩, buf, 0⟩).Returns
      (.error .eof) := by
  have hfill := @fill_steps cuts failures total htotal _ xs [] buf offset 0 rfl
    (Nat.zero_le _) (Or.inr ⟨by omega, rfl⟩)
  have hend := @fill_end (offset + xs.length) cuts total htotal (store buf 0 xs)
    (0 + xs.length) failures (by omega)
  rw [List.append_nil] at hfill
  rw [Nat.zero_add] at hfill hend
  split
  · next hfails =>
      rw [if_pos hfails] at hend
      exact ⟨_, hfill.returns_iff.mpr hend⟩
  · next hfails =>
      rw [if_neg hfails] at hend
      exact hfill.returns_iff.mpr hend

/-! ## The end of a stream -/

/-- The stream begins with a header and as many bytes as that announces. -/
def Descriptor.Complete (fd : Descriptor) : Prop :=
  ∃ ds rest, fd.Begins ds rest ∧ decimal ds ≤ rest.length

/-- `read_message` ends, with a failure if no message is there to its end, and with success
only if one is. -/
structure Ends (memory : Memory) (fd : Descriptor) : Prop where
  terminates : ∃ r, (readMessage memory fd).Returns r
  fails : ¬ fd.Complete → ∃ e, (readMessage memory fd).Returns (.error e)
  complete : ∀ m, (readMessage memory fd).Returns (.ok m) → fd.Complete

/-- Reads do not fail forever behind the digits of a number, and a message that breaks off
in its body sees the end of file before more reads fail than there are bytes of the body; its
number, modulo 2^64, is not what the stream has. -/
structure Descriptor.BreaksOffWell (fd : Descriptor) : Prop where
  number : ∀ ds, ds ≠ [] → (∀ d ∈ ds, isDigit d = true) → fd.source.data = keyword ++ ds →
    fd.failures ≠ none
  body : ∀ ds rest, fd.Begins ds rest → fd.cutHeader ds = false → decimal ds % 2 ^ 64 ≤ 65536 →
    rest.length < decimal ds →
      rest.length < decimal ds % 2 ^ 64 ∧ ∃ k ∈ fd.failures, k ≤ rest.length

theorem ends_of_error {e : CommsError} (h : (readMessage memory fd).Returns (.error e)) :
    Ends memory fd := by
  refine ⟨⟨_, h⟩, fun _ => ⟨e, h⟩, fun m hm => ?_⟩
  cases h.unique hm

theorem ends_of_complete (hcomplete : fd.Complete) {r : Except CommsError (List UInt8 × Descriptor)}
    (h : (readMessage memory fd).Returns r) : Ends memory fd :=
  ⟨⟨r, h⟩, fun hno => absurd hcomplete hno, fun _ _ => hcomplete⟩

theorem readMessage_full {fd' : Descriptor} {cuts : Nat → Bool} {failures : Option Nat}
    {offset : Nat} (hheader : (readHeader memory fd).Returns (.ok (n, fd')))
    (hfd : fd' = ⟨⟨rest, offset, cuts⟩, failures⟩) (hlimit : n ≤ 65536) (hlen : n ≤ rest.length) :
    ∃ m, (readMessage memory fd).Returns (.ok m) := by
  have hbody := @readBody_full (rest.take n) (rest.drop n) (memory.heap (n + 1)) offset cuts
    failures (by rw [List.length_take]; omega)
  rw [List.take_append_drop, List.length_take, Nat.min_eq_left hlen] at hbody
  subst hfd
  unfold readMessage
  simp only [Fuelled.andThen_ok_iff hheader, Fuelled.andThen_ok_iff hbody]
  exact ⟨_, Fuelled.returns_pure _⟩

theorem readMessage_short {fd' : Descriptor} {cuts : Nat → Bool} {failures : Option Nat}
    {offset : Nat} (hheader : (readHeader memory fd).Returns (.ok (n, fd')))
    (hfd : fd' = ⟨⟨rest, offset, cuts⟩, failures⟩) (hlimit : n ≤ 65536) (hlen : rest.length < n) :
    if ∀ k ∈ failures, rest.length < k then ∃ m, (readMessage memory fd).Returns (.ok m)
    else (readMessage memory fd).Returns (.error .eof) := by
  have hbody := @readBody_short n rest (memory.heap (n + 1)) offset cuts failures (by omega) hlen
  subst hfd
  unfold readMessage
  simp only [Fuelled.andThen_ok_iff hheader]
  split
  · next hfails =>
      rw [if_pos hfails] at hbody
      obtain ⟨s, hs⟩ := hbody
      simp only [Fuelled.andThen_ok_iff hs]
      exact ⟨_, Fuelled.returns_pure _⟩
  · next hfails =>
      rw [if_neg hfails] at hbody
      exact Fuelled.andThen_error hbody

/-- **The end of a stream.** -/
theorem ends_iff (memory : Memory) (fd : Descriptor) : Ends memory fd ↔ fd.BreaksOffWell := by
  constructor
  · intro ends
    refine ⟨?_, ?_⟩
    · intro ds hne hds hdata hfailures
      obtain ⟨⟨data, offset, cuts⟩, failures⟩ := fd
      cases hdata
      cases hfailures
      obtain ⟨r, hr⟩ := ends.terminates
      refine Fuelled.not_returns_andThen (fun a ha => ?_) hr
      exact (@readHeader_digits offset cuts none memory ds hds hne) a ha
    · intro ds rest hbegins hcut hlimit hlen
      have hheader : (readHeader memory fd).Returns
          (.ok (decimal ds % 2 ^ 64, fd.behind ds rest)) :=
        readHeader_ok_iff.mpr ⟨ds, rest, hbegins, hcut, rfl, hlimit, rfl⟩
      have hincomplete : ¬ fd.Complete := by
        rintro ⟨ds', rest', hbegins', hle⟩
        obtain ⟨rfl, rfl⟩ := hbegins.unique hbegins'
        omega
      obtain ⟨e, he⟩ := ends.fails hincomplete
      rcases Nat.lt_or_ge rest.length (decimal ds % 2 ^ 64) with hshort | hfull
      · refine ⟨hshort, ?_⟩
        by_contra hno
        have hbody := readMessage_short hheader rfl hlimit hshort
        rw [if_pos fun k hk => Nat.lt_of_not_le fun hle => hno ⟨k, hk, hle⟩] at hbody
        obtain ⟨m, hm⟩ := hbody
        cases he.unique hm
      · obtain ⟨m, hm⟩ := readMessage_full hheader rfl hlimit hfull
        cases he.unique hm
  · intro well
    rcases readHeader_returns memory fd with ⟨r, hr⟩ | ⟨hfailures, ds, hne, hds, hdata⟩
    · cases r with
      | error e => exact ends_of_error (Fuelled.andThen_error hr)
      | ok result =>
          obtain ⟨n, fd'⟩ := result
          obtain ⟨ds, rest, hbegins, hcut, rfl, hlimit, rfl⟩ := readHeader_ok_iff.mp hr
          rcases Nat.lt_or_ge rest.length (decimal ds) with hlen | hlen
          · obtain ⟨hshort, k, hk, hle⟩ := well.body ds rest hbegins hcut hlimit hlen
            have hbody := readMessage_short hr rfl hlimit hshort
            rw [if_neg fun h => absurd (h k hk) (Nat.not_lt.mpr hle)] at hbody
            exact ends_of_error hbody
          · obtain ⟨m, hm⟩ := readMessage_full hr rfl hlimit ((Nat.mod_le _ _).trans hlen)
            exact ends_of_complete ⟨ds, rest, hbegins, hlen⟩ hm
    · exact absurd hfailures (well.number ds hne hds hdata)

end

/-- A body of five bytes of which none comes is a success, and a header that breaks off
behind a digit is read forever. -/
theorem ends_brokenStream :
    (∃ m, (readMessage zeroed (brokenStream "Content-Length: 5\r\n\r\n")).Returns (.ok m)) ∧
      ¬ (brokenStream "Content-Length: 5\r\n\r\n").Complete ∧
      (∀ r, ¬ (readMessage zeroed (brokenStream "Content-Length: 5")).Returns r) ∧
      ¬ Ends zeroed (brokenStream "Content-Length: 5\r\n\r\n") ∧
      ¬ Ends zeroed (brokenStream "Content-Length: 5") := by
  have hbegins : (brokenStream "Content-Length: 5\r\n\r\n").Begins [byte '5'] [] :=
    ⟨List.all_eq_true.mp rfl, rfl⟩
  have hheader : (readHeader zeroed (brokenStream "Content-Length: 5\r\n\r\n")).Returns
      (.ok (5, (brokenStream "Content-Length: 5\r\n\r\n").behind [byte '5'] [])) :=
    readHeader_ok_iff.mpr ⟨_, _, hbegins, by decide, by decide, by decide, rfl⟩
  have hsuccess := readMessage_short hheader rfl (by decide) (by decide)
  rw [if_pos (by rintro k ⟨⟩)] at hsuccess
  have hincomplete : ¬ (brokenStream "Content-Length: 5\r\n\r\n").Complete := by
    rintro ⟨ds, rest, hbegins', hle⟩
    obtain ⟨rfl, rfl⟩ := hbegins.unique hbegins'
    exact absurd hle (by decide)
  have hstuck : ∀ r, ¬ (readMessage zeroed (brokenStream "Content-Length: 5")).Returns r := by
    intro r
    refine Fuelled.not_returns_andThen fun a ha => ?_
    have hdata : brokenStream "Content-Length: 5" =
        ⟨⟨keyword ++ [byte '5'], 0, fun _ => false⟩, none⟩ := rfl
    rw [hdata] at ha
    have hdigits : ∀ d ∈ [byte '5'], isDigit d = true := List.all_eq_true.mp rfl
    exact (@readHeader_digits 0 (fun _ => false) none zeroed [byte '5'] hdigits (by decide)) a ha
  refine ⟨hsuccess, hincomplete, hstuck, ?_, ?_⟩
  · intro ends
    obtain ⟨m, hm⟩ := hsuccess
    exact hincomplete (ends.complete m hm)
  · intro ends
    obtain ⟨r, hr⟩ := ends.terminates
    exact hstuck r hr

/-! ## Streams that end with the end of file -/

section
variable {cuts : Nat → Bool}

theorem readLength_number {c : UInt8} {rest ds : List UInt8} (hc : isDigit c = false) :
    ∀ {fuel v offset : Nat}, (∀ d ∈ ds, isDigit d = true) → ds.length < fuel →
      readLength fuel (v % 2 ^ 64) ⟨ds ++ c :: rest, offset, cuts⟩ =
        some (decimalFrom v ds % 2 ^ 64, c, ⟨rest, offset + ds.length + 1, cuts⟩) := by
  have hread : ∀ (b : UInt8) (data : List UInt8) (offset : Nat),
      Source.read ⟨b :: data, offset, cuts⟩ 1 = ([b], ⟨data, offset + 1, cuts⟩) := by
    intro b data offset
    exact @read_piece _ [b] data offset 1 cuts (by simp) (Nat.le_refl 1)
      (fun k hk hlt => absurd hlt (Nat.not_lt.mpr hk)) (Or.inr rfl)
  induction ds with
  | nil =>
      rintro (_ | fuel) v offset _ hfuel
      · cases hfuel
      · rw [List.nil_append, readLength, hread]
        exact if_pos (by_contra fun h => Bool.false_ne_true (hc ▸ isDigit_iff.mpr h))
  | cons d ds ih =>
      rintro (_ | fuel) v offset hds hfuel
      · cases hfuel
      · have hd := isDigit_iff.mp (hds d List.mem_cons_self)
        have hrest := @ih fuel (v * 10 + (d - byte '0').toNat) (offset + 1)
          (fun x hx => hds x (List.mem_cons_of_mem d hx)) (Nat.lt_of_succ_lt_succ hfuel)
        rw [List.cons_append, readLength, hread]
        simp only [if_neg hd]
        rw [Nat.add_mod, Nat.mod_mul_mod, ← Nat.add_mod, hrest, List.length_cons,
          show offset + 1 + ds.length + 1 = offset + (ds.length + 1) + 1 by omega]
        rfl

theorem readLength_eof {ds : List UInt8} : ∀ {fuel v offset : Nat},
    (∀ d ∈ ds, isDigit d = true) → readLength fuel v ⟨ds, offset, cuts⟩ = none := by
  induction ds with
  | nil =>
      rintro (_ | fuel) v offset _
      · rfl
      · rw [readLength, Source.read, List.take_nil]
  | cons d ds ih =>
      rintro (_ | fuel) v offset hds
      · rfl
      · have hread : Source.read ⟨[d] ++ ds, offset, cuts⟩ 1 = ([d], ⟨ds, offset + 1, cuts⟩) :=
          read_piece (by simp) (Nat.le_refl 1)
            (fun k hk hlt => absurd hlt (Nat.not_lt.mpr hk)) (Or.inr rfl)
        rw [List.singleton_append] at hread
        rw [readLength, hread]
        simp only [if_neg (isDigit_iff.mp (hds d List.mem_cons_self))]
        exact ih fun x hx => hds x (List.mem_cons_of_mem d hx)

theorem readSeparator_eof (src : Source UInt8) (c : UInt8) (v : Nat) :
    readSeparator ⟨⟨src, some 0⟩, c :: keyword.tail, v⟩ =
      if (src.read 3).1.isEmpty then .error .eof
      else if (store (store keyword 0 [c]) 1 (src.read 3).1).take 4 ≠ separator then
        .error .invalid
      else if v > 65536 then .error .tooLong
      else .ok (v, ⟨(src.read 3).2, some 0⟩) := by
  obtain ⟨data, offset, cuts⟩ := src
  rcases eq_or_ne data [] with rfl | hdata
  · have hempty : (Source.read (⟨[], offset, cuts⟩ : Source UInt8) 3).1.isEmpty = true := by
      rw [Source.read, List.take_nil]
      rfl
    rw [if_pos hempty]
    rfl
  · obtain ⟨chunk, more, -, hchunk, -, hpiece⟩ :=
      @read_piece_of_ne_nil data offset cuts (some 0) hdata 3 (by decide)
    have hread : (Source.read (⟨data, offset, cuts⟩ : Source UInt8) 3).1 = chunk :=
      congrArg (fun r => r.2.1) ((read_source hdata 3).symm.trans hpiece)
    unfold readSeparator
    rw [read_source hdata, hread, if_neg (mt List.isEmpty_iff.mp hchunk)]
    exact if_neg (mt List.length_eq_zero_iff.mp hchunk)

theorem readBody_eof {n : Nat} (hn : n ≤ 65536) (src : Source UInt8) (buf : List UInt8) :
    match src.fill n n with
    | none => (loop (fillStep n) ⟨⟨src, some 0⟩, buf, 0⟩).Returns (.error .eof)
    | some (message, src') => ∃ s, (loop (fillStep n) ⟨⟨src, some 0⟩, buf, 0⟩).Returns (.ok s) ∧
        s.buf.take n = message ∧ s.fd = ⟨src', some 0⟩ := by
  obtain ⟨data, offset, cuts⟩ := src
  rcases Nat.lt_or_ge data.length n with hshort | hfull
  · have hbody := @readBody_short n data buf offset cuts (some 0) (by omega) hshort
    rw [if_neg fun h => absurd (h 0 rfl) (Nat.not_lt_zero _)] at hbody
    rw [fill_eq_none n hshort]
    exact hbody
  · obtain ⟨xs, rest, rfl, rfl⟩ : ∃ xs rest, data = xs ++ rest ∧ n = xs.length :=
      ⟨data.take n, data.drop n, (List.take_append_drop ..).symm, by
        rw [List.length_take, Nat.min_eq_left hfull]⟩
    rw [fill_append _ (Nat.le_refl _)]
    refine ⟨_, readBody_full (by omega), ?_, rfl⟩
    rw [store, List.take_zero, List.nil_append, List.take_left]

theorem readMessage_eof_keyword (memory : Memory) (offset : Nat) :
    (readMessage memory ⟨⟨keyword, offset, cuts⟩, some 0⟩).Returns
      ((Comms.readMessage ⟨keyword, offset, cuts⟩).map fun m => (m.1, ⟨m.2, some 0⟩)) := by
  unfold Comms.readMessage
  have hread : Source.fill keyword.length keyword.length ⟨keyword, offset, cuts⟩ =
      some (keyword, ⟨[], offset + keyword.length, cuts⟩) := by
    have h := @fill_append _ keyword.length keyword [] offset cuts (Nat.le_refl _)
    rwa [List.append_nil] at h
  have hheader : (readHeader memory ⟨⟨keyword, offset, cuts⟩, some 0⟩).Returns
      (.error .eof) := by
    have h := @readHeader_start offset cuts (some 0) memory keyword [] rfl (.error .eof)
    rw [List.append_nil, if_neg (not_not.mpr rfl)] at h
    exact h.mpr (Fuelled.andThen_error (returns_loop_of_inr rfl))
  have hnumber := @readLength_eof cuts [] (([] : List UInt8).length + 1) 0
    (offset + keyword.length) (by rintro d ⟨⟩)
  rw [hread]
  simp only [ne_eq, not_true_eq_false, if_false, hnumber]
  exact Fuelled.andThen_error hheader

theorem readMessage_eof_number (memory : Memory) (offset : Nat) {ds rest : List UInt8} {c : UInt8}
    (hds : ∀ d ∈ ds, isDigit d = true) (hc : isDigit c = false) :
    (readMessage memory ⟨⟨keyword ++ (ds ++ c :: rest), offset, cuts⟩, some 0⟩).Returns
      ((Comms.readMessage ⟨keyword ++ (ds ++ c :: rest), offset, cuts⟩).map
        fun m => (m.1, ⟨m.2, some 0⟩)) := by
  unfold Comms.readMessage
  have hnumber := @readLength_number cuts c rest ds hc ((ds ++ c :: rest).length + 1) 0
    (offset + keyword.length) hds
    (by rw [List.length_append]; omega)
  rw [Nat.zero_mod] at hnumber
  rw [fill_append _ (Nat.le_refl _)]
  simp only [ne_eq, not_true_eq_false, if_false, hnumber, Nat.add_assoc offset]
  have hheader := fun r => @readHeader_number offset cuts (some 0) memory ds hds rest c hc r
  simp only [readSeparator_eof] at hheader
  rw [← Nat.add_assoc offset (keyword.length + ds.length)]
  generalize Source.read _ 3 = piece at hheader ⊢
  obtain ⟨chunk, src'⟩ := piece
  change Fuelled.Returns _ (Except.map _ (if chunk.isEmpty = true then _
    else if (store (store keyword 0 [c]) 1 chunk).take 4 ≠ separator then _
    else if decimal ds % 2 ^ 64 > 65536 then _ else _))
  split
  · next hempty =>
      rw [if_pos hempty] at hheader
      exact Fuelled.andThen_error ((hheader _).mpr rfl)
  next hchunk =>
  rw [if_neg hchunk] at hheader
  split
  · next hbad =>
      rw [if_pos hbad] at hheader
      exact Fuelled.andThen_error ((hheader _).mpr rfl)
  next hgood =>
  rw [if_neg hgood] at hheader
  split
  · next hlong =>
      rw [if_pos hlong] at hheader
      exact Fuelled.andThen_error ((hheader _).mpr rfl)
  next hlimit =>
  rw [if_neg hlimit] at hheader
  have hbody := readBody_eof (Nat.le_of_not_lt hlimit) src'
    (memory.heap (decimal ds % 2 ^ 64 + 1))
  refine (Fuelled.andThen_ok_iff ((hheader _).mpr rfl)).mpr ?_
  change Fuelled.Returns _ (Except.map _ (match Source.fill (decimal ds % 2 ^ 64)
    (decimal ds % 2 ^ 64) src' with
      | none => _
      | some (message, fd) => _))
  cases hfill : Source.fill (decimal ds % 2 ^ 64) (decimal ds % 2 ^ 64) src' with
  | none =>
      rw [hfill] at hbody
      exact Fuelled.andThen_error hbody
  | some result =>
      obtain ⟨message, src''⟩ := result
      rw [hfill] at hbody
      obtain ⟨s, hs, hmessage, hfd⟩ := hbody
      refine (Fuelled.andThen_ok_iff hs).mpr (Fuelled.returns_pure_iff.mpr ?_)
      rw [hmessage, hfd]
      rfl

/-- **End of file.**  On streams that no read fails of, `read_message` is the function of
`FlightRec.Examine.Comms`. -/
theorem readMessage_eof (memory : Memory) (src : Source UInt8) :
    (readMessage memory ⟨src, some 0⟩).Returns
      ((Comms.readMessage src).map fun m => (m.1, ⟨m.2, some 0⟩)) := by
  obtain ⟨data, offset, cuts⟩ := src
  cases shape data with
  | short hshort =>
      unfold Comms.readMessage
      rw [fill_eq_none _ hshort]
      have hfill := @fill_steps cuts (some 0) keyword.length (by decide) _ data [] memory.stack
        offset 0 rfl (Nat.zero_le _) (Or.inr ⟨by omega, rfl⟩)
      have hend := @fill_end (offset + data.length) cuts keyword.length (by decide)
        (store memory.stack 0 data) (0 + data.length) (some 0) (by omega)
      rw [if_neg fun h => absurd (h 0 rfl) (Nat.not_lt_zero _)] at hend
      rw [List.append_nil] at hfill
      exact Fuelled.andThen_error (Fuelled.andThen_error (hfill.returns_iff.mpr hend))
  | @other start rest hdata hstart hne =>
      subst hdata
      unfold Comms.readMessage
      rw [← hstart, fill_append _ (Nat.le_refl _)]
      simp only [if_pos hne]
      exact Fuelled.andThen_error (readHeader_other memory hstart hne)
  | keyword hdata =>
      subst hdata
      exact readMessage_eof_keyword memory offset
  | @digits ds hdata hne hds =>
      subst hdata
      unfold Comms.readMessage
      rw [fill_append _ (Nat.le_refl _)]
      simp only [ne_eq, not_true_eq_false, if_false, readLength_eof hds]
      exact Fuelled.andThen_error (@readHeader_digits offset cuts (some 0) memory ds hds hne)
  | number hdata hds hc =>
      subst hdata
      exact readMessage_eof_number memory offset hds hc

end

end FlightRec.ReadErrors
