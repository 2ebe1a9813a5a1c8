/-
# `FlightRec.Lib.CString` — strings in allocated memory

A block of memory is the list of its bytes; a byte that was never stored is `none`.
Access behind the end is undefined in C and has no result here.

A block holds a string if it begins with its bytes and the terminator (`Holds`).  What
the functions of C do to strings follows from what a write does to the beginning of a
block (`write_prefix`).
-/
import Mathlib.Data.List.TakeWhile

namespace FlightRec.CString

/-- A block of memory. -/
abbrev Block := List (Option UInt8)

/-- `malloc(size)` -/
def alloc (size : Nat) : Block := List.replicate size none

/-- `block[i] = c` -/
def store (block : Block) (i : Nat) (c : UInt8) : Option Block :=
  if i < block.length then some (block.set i (some c)) else none

/-- `realloc(block, size)` -/
def realloc (block : Block) (size : Nat) : Block :=
  block.take size ++ List.replicate (size - block.length) none

/-- Stores of bytes one after another, from byte `i` on. -/
def write (block : Block) (i : Nat) (bytes : List UInt8) : Option Block :=
  if i + bytes.length ≤ block.length then
    some (block.take i ++ bytes.map some ++ block.drop (i + bytes.length))
  else none

/-- The bytes up to the terminator, as `strlen` and `%s` read them. -/
def stringAt : Block → Option (List UInt8)
  | some c :: block => if c = 0 then some [] else (stringAt block).map (c :: ·)
  | _ => none

/-- What `strncpy(_, block, n)` stores: zeros behind the terminator. -/
def strncpyBytes : Block → Nat → Option (List UInt8)
  | _, 0 => some []
  | some c :: block, n + 1 =>
      if c = 0 then some (List.replicate (n + 1) 0) else (strncpyBytes block n).map (c :: ·)
  | _, _ + 1 => none

/-- The bytes before the first zero. -/
def beforeZero (bytes : List UInt8) : List UInt8 := bytes.takeWhile (· ≠ 0)

/-- The block begins with the string and its terminator. -/
structure Holds (block : Block) (s : List UInt8) : Prop where
  plain : 0 ∉ s
  start : (s ++ [0]).map some <+: block

/-! ## Stores and writes -/

@[simp] theorem length_alloc (size : Nat) : (alloc size).length = size := List.length_replicate

section
variable {block block' : Block} {i : Nat} {c : UInt8}

theorem store_of_lt (h : i < block.length) : store block i c = some (block.set i (some c)) :=
  if_pos h

theorem store_of_le (h : block.length ≤ i) : store block i c = none := if_neg (Nat.not_lt.mpr h)

theorem store_eq_some (h : store block i c = some block') :
    i < block.length ∧ block' = block.set i (some c) := by
  unfold store at h
  split at h
  next hi => exact ⟨hi, (Option.some.inj h).symm⟩
  next => cases h

theorem store_eq_write (h : i < block.length) (c : UInt8) :
    store block i c = write block i [c] := by
  have hroom : i + [c].length ≤ block.length := h
  rw [store_of_lt h, write, if_pos hroom, List.set_eq_take_append_cons_drop, if_pos h]
  simp

end

section
variable {block : Block} {s t : List UInt8}

theorem write_prefix (hs : s.map some <+: block) (hroom : s.length + t.length ≤ block.length) :
    ∃ block', write block s.length t = some block' ∧ block'.length = block.length ∧
      (s ++ t).map some <+: block' := by
  obtain ⟨rest, rfl⟩ := hs
  refine ⟨_, if_pos hroom, ?_, ?_⟩
  · simp only [List.length_append, List.length_take, List.length_drop, List.length_map] at hroom ⊢
    omega
  · rw [List.take_left' (List.length_map _), List.map_append]
    exact List.prefix_append _ _

theorem write_drop {i : Nat} (hroom : i + t.length ≤ block.length) :
    ∃ block', write block i t = some block' ∧ block'.length = block.length ∧
      t.map some <+: block'.drop i := by
  have htake : (block.take i).length = i := by
    rw [List.length_take]
    omega
  refine ⟨_, if_pos hroom, ?_, ?_⟩
  · simp only [List.length_append, List.length_drop, List.length_map, htake]
    omega
  · rw [List.append_assoc, List.drop_left' htake]
    exact List.prefix_append _ _

/-! ## Blocks of another size -/

@[simp] theorem length_realloc {size : Nat} (h : block.length ≤ size) :
    (realloc block size).length = size := by
  rw [realloc, List.length_append, List.length_take, List.length_replicate]
  omega

theorem realloc_prefix {start : Block} {size : Nat} (h : start <+: block)
    (hsize : block.length ≤ size) : start <+: realloc block size := by
  rw [realloc, List.take_of_length_le hsize]
  exact h.trans (List.prefix_append _ _)

/-! ## Strings -/

theorem Holds.length_lt (h : Holds block s) : s.length < block.length := by
  have hle := h.start.length_le
  rw [List.length_map, List.length_append, List.length_singleton] at hle
  exact hle

theorem Holds.string (h : Holds block s) : s.map some <+: block := by
  have hstart := h.start
  rw [List.map_append] at hstart
  exact (List.prefix_append _ _).trans hstart

theorem holds_cons {c : UInt8} : Holds (some c :: block) s ↔
    (c = 0 ∧ s = []) ∨ (c ≠ 0 ∧ ∃ rest, s = c :: rest ∧ Holds block rest) := by
  constructor
  · rintro ⟨hplain, hstart⟩
    cases s with
    | nil =>
        have hc := (List.cons_prefix_cons.mp hstart).1
        exact .inl ⟨(Option.some.inj hc).symm, rfl⟩
    | cons d rest =>
        obtain ⟨hd, hrest⟩ := List.cons_prefix_cons.mp hstart
        cases hd
        rw [List.mem_cons, not_or] at hplain
        exact .inr ⟨Ne.symm hplain.1, rest, rfl, hplain.2, hrest⟩
  · rintro (⟨rfl, rfl⟩ | ⟨hc, rest, rfl, hplain, hstart⟩)
    · exact ⟨List.not_mem_nil, List.cons_prefix_cons.mpr ⟨rfl, List.nil_prefix⟩⟩
    · refine ⟨fun h => ?_, List.cons_prefix_cons.mpr ⟨rfl, hstart⟩⟩
      exact (List.mem_cons.mp h).elim (fun h => hc h.symm) hplain

theorem stringAt_eq_some : stringAt block = some s ↔ Holds block s := by
  induction block generalizing s with
  | nil =>
      constructor
      · intro h
        cases h
      · intro h
        exact absurd h.length_lt (Nat.not_lt_zero _)
  | cons b block ih =>
      cases b with
      | none =>
          constructor
          · intro h
            cases h
          · rintro ⟨-, hstart⟩
            cases s with
            | nil => cases (List.cons_prefix_cons.mp hstart).1
            | cons => cases (List.cons_prefix_cons.mp hstart).1
      | some c =>
          rw [holds_cons, stringAt]
          by_cases hc : c = 0
          · simp [hc, eq_comm]
          · rw [if_neg hc, Option.map_eq_some_iff, or_iff_right fun h => hc h.1, and_iff_right hc]
            exact exists_congr fun rest => by rw [ih, and_comm, eq_comm]

theorem Holds.stringAt_eq (h : Holds block s) : stringAt block = some s := stringAt_eq_some.mpr h

theorem strncpyBytes_prefix (hplain : 0 ∉ t) (ht : t.map some <+: block) :
    strncpyBytes block t.length = some t := by
  induction t generalizing block with
  | nil => cases block <;> rfl
  | cons c t ih =>
      obtain ⟨rest, rfl⟩ := ht
      rw [List.mem_cons, not_or] at hplain
      rw [List.map_cons, List.cons_append, List.length_cons, strncpyBytes,
        if_neg (Ne.symm hplain.1), ih hplain.2 (List.prefix_append _ _)]
      rfl

theorem write_string (hs : s.map some <+: block) (hplain : 0 ∉ s ++ t)
    (hroom : s.length + t.length < block.length) :
    ∃ block', write block s.length (t ++ [0]) = some block' ∧ block'.length = block.length ∧
      Holds block' (s ++ t) := by
  have hfits : s.length + (t ++ [0]).length ≤ block.length := by
    rw [List.length_append, List.length_singleton]
    exact hroom
  obtain ⟨block', hwrite, hlength, hstart⟩ := write_prefix hs hfits
  rw [← List.append_assoc] at hstart
  exact ⟨block', hwrite, hlength, hplain, hstart⟩

theorem write_store_string (hs : s.map some <+: block) (hplain : 0 ∉ s ++ t)
    (hroom : s.length + t.length < block.length) :
    ∃ copied block', write block s.length t = some copied ∧
      store copied (s.length + t.length) 0 = some block' ∧ block'.length = block.length ∧
      Holds block' (s ++ t) := by
  obtain ⟨copied, hwrite, hlength, hstart⟩ := write_prefix hs (Nat.le_of_lt hroom)
  have hlt : (s ++ t).length < copied.length := by
    rw [List.length_append, hlength]
    exact hroom
  obtain ⟨block', hstore, hlength', hstart'⟩ := write_prefix (t := [0]) hstart hlt
  rw [← store_eq_write hlt, List.length_append] at hstore
  exact ⟨copied, block', hwrite, hstore, hlength'.trans hlength, hplain, hstart'⟩

/-! ## The bytes before the first zero -/

theorem zero_not_mem_beforeZero (bytes : List UInt8) : 0 ∉ beforeZero bytes := by
  intro h
  simpa using List.mem_takeWhile_imp h

theorem beforeZero_of_plain {bytes : List UInt8} (h : 0 ∉ bytes) : beforeZero bytes = bytes := by
  refine List.takeWhile_eq_self_iff.mpr fun c hc => decide_eq_true ?_
  rintro rfl
  exact h hc

theorem length_beforeZero_le (bytes : List UInt8) : (beforeZero bytes).length ≤ bytes.length :=
  (List.takeWhile_prefix _).length_le

theorem holds_beforeZero {bytes : List UInt8} (h : 0 ∈ bytes) :
    Holds (bytes.map some) (beforeZero bytes) := by
  induction bytes with
  | nil => cases h
  | cons c bytes ih =>
      rw [List.map_cons, holds_cons]
      by_cases hc : c = 0
      · exact .inl ⟨hc, List.takeWhile_cons_of_neg (by simpa using hc)⟩
      · have hrest := (List.mem_cons.mp h).resolve_left fun h => hc h.symm
        exact .inr ⟨hc, beforeZero bytes, List.takeWhile_cons_of_pos (by simpa using hc), ih hrest⟩

end

end FlightRec.CString
