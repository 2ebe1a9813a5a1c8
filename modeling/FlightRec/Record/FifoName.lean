/-
# `FlightRec.Record.FifoName` — the name of the pipe

The library that is loaded into the client (record/preload.c) and Record (record/run.c)
open a pipe by a name with the id of the client's process in it.  Record prints the id
with `%X`.  The library has its own conversion, which goes through the bytes of the
`int` from the highest on, and from the first nibble that is not 0 it writes all of them.

    without leading zeros    the nibbles are the digits of `%X`   (`intToHexString_eq`)
    so for every process     both names are the same              (`fifoName_eq`)

The id 0, which no process has, is written as an empty string by the library.
-/
import FlightRec.Lib.Printf

namespace FlightRec.FifoName

open Printf

/-! ## The code -/

/-- The bytes of an `int`, the lowest first. -/
def memory (source : BitVec 32) : List UInt8 :=
  (List.range 4).map fun i => UInt8.ofBitVec (source.extractLsb' (8 * i) 8)

/-- The character of a nibble. -/
def nibbleChar (nibble : UInt8) : UInt8 :=
  if nibble ≤ 9 then nibble + 48 else nibble + (65 - 10)

/-- `significant`, and what is in `target`. -/
structure Target where
  significant : Bool
  text : List UInt8
  deriving DecidableEq, Repr

/-- "avoid printing leading insignificant zeros" -/
def Target.put (t : Target) (c : UInt8) : Target :=
  if t.significant ∨ c ≠ 48 then { significant := true, text := t.text ++ [c] } else t

/-- The body of the loop: both nibbles of a byte. -/
def Target.putByte (t : Target) (b : UInt8) : Target :=
  (t.put (nibbleChar ((b &&& 0xF0) >>> 4))).put (nibbleChar (b &&& 0x0F))

/-- `int_to_hex_string` -/
def intToHexString (source : BitVec 32) : List UInt8 :=
  ((memory source).reverse.foldl Target.putByte { significant := false, text := [] }).text

/-- `P_tmpdir` -/
def pTmpdir : List UInt8 := bytes "/tmp"

/-- `fifo_name` in `init` of the library. -/
def preloadName (pid : BitVec 32) : List UInt8 := pTmpdir ++ bytes "/fr_" ++ intToHexString pid

/-- `fifo_name` in `record`: `"%s/fr_%X"` -/
def recordName (pid : BitVec 32) : List UInt8 := pTmpdir ++ bytes "/fr_" ++ hexUpper pid.toNat

/-! ## Nibbles -/

section
variable {cs : List UInt8} {text : List UInt8}

theorem foldl_put_significant : cs.foldl Target.put { significant := true, text } =
    { significant := true, text := text ++ cs } := by
  induction cs generalizing text with
  | nil => rw [List.foldl_nil, List.append_nil]
  | cons c cs ih =>
      have hput : Target.put { significant := true, text } c =
          { significant := true, text := text ++ [c] } := if_pos (.inl rfl)
      rw [List.foldl_cons, hput, ih, List.append_assoc, List.singleton_append]

theorem foldl_put : (cs.foldl Target.put { significant := false, text := [] }).text =
    cs.dropWhile (· = 48) := by
  induction cs with
  | nil => rfl
  | cons c cs ih =>
      by_cases hc : c = 48
      · have hput : Target.put { significant := false, text := [] } c =
            { significant := false, text := [] } := if_neg (by simpa using hc)
        rw [List.foldl_cons, hput, ih, List.dropWhile_cons_of_pos (by simpa using hc)]
      · have hput : Target.put { significant := false, text := [] } c =
            { significant := true, text := [c] } := if_pos (.inr hc)
        rw [List.foldl_cons, hput, foldl_put_significant,
          List.dropWhile_cons_of_neg (by simpa using hc), List.singleton_append]

end

theorem nibbleChar_ofNat {d : Nat} (h : d < 16) :
    nibbleChar (UInt8.ofNat d) = UInt8.ofNat (Nat.digitChar d).toUpper.toNat := by
  have hall : ∀ d : Fin 16, nibbleChar (UInt8.ofNat d) =
      UInt8.ofNat (Nat.digitChar d).toUpper.toNat := by decide
  exact hall ⟨d, h⟩

theorem nibbleChar_eq_zero_iff {d : Nat} (h : d < 16) :
    nibbleChar (UInt8.ofNat d) = 48 ↔ d = 0 := by
  have hall : ∀ d : Fin 16, nibbleChar (UInt8.ofNat d) = 48 ↔ (d : Nat) = 0 := by decide
  exact hall ⟨d, h⟩

theorem high_nibble (b : UInt8) : (b &&& 0xF0) >>> 4 = UInt8.ofNat (b.toNat / 16) := by
  have hb := b.toNat_lt
  have hmask : b.toNat / 16 &&& 15 = b.toNat / 16 % 16 :=
    Nat.and_two_pow_sub_one_eq_mod (b.toNat / 16) 4
  rw [← UInt8.toNat_inj, UInt8.toNat_shiftRight, UInt8.toNat_and, UInt8.toNat_ofNat']
  change (b.toNat &&& 240) >>> 4 = b.toNat / 16 % 2 ^ 8
  rw [Nat.shiftRight_and_distrib, Nat.shiftRight_eq_div_pow]
  change b.toNat / 16 &&& 15 = _
  omega

theorem low_nibble (b : UInt8) : b &&& 0x0F = UInt8.ofNat (b.toNat % 16) := by
  have hmask : b.toNat &&& 15 = b.toNat % 16 := Nat.and_two_pow_sub_one_eq_mod b.toNat 4
  rw [← UInt8.toNat_inj, UInt8.toNat_and, UInt8.toNat_ofNat']
  change b.toNat &&& 15 = b.toNat % 16 % 2 ^ 8
  omega

theorem nibbles_eq (source : BitVec 32) :
    ((memory source).reverse.flatMap fun b : UInt8 => [(b &&& 0xF0) >>> 4, b &&& 0x0F]) =
      (digits 16 8 source.toNat).map UInt8.ofNat := by
  have hbyte : ∀ i, (UInt8.ofBitVec (source.extractLsb' (8 * i) 8)).toNat =
      source.toNat / 2 ^ (8 * i) % 2 ^ 8 := by
    intro i
    rw [UInt8.toNat_ofBitVec, BitVec.extractLsb'_toNat, Nat.shiftRight_eq_div_pow]
  have hmemory : memory source = [0, 1, 2, 3].map fun i =>
      UInt8.ofBitVec (source.extractLsb' (8 * i) 8) := rfl
  have hdigits : digits 16 8 source.toNat = [3, 2, 1, 0].flatMap fun i =>
      [source.toNat / 2 ^ (8 * i) % 2 ^ 8 / 16, source.toNat / 2 ^ (8 * i) % 2 ^ 8 % 16] := by
    simp only [digits, List.nil_append, List.cons_append, List.flatMap_cons, List.flatMap_nil,
      List.cons.injEq, and_true]
    omega
  rw [hmemory, hdigits]
  simp only [List.map_cons, List.map_nil, List.reverse_cons, List.reverse_nil, List.nil_append,
    List.cons_append, List.flatMap_cons, List.flatMap_nil, high_nibble, low_nibble, hbyte]

/-! ## The name -/

theorem dropWhile_nibbleChar {ds : List Nat} (h : ∀ d ∈ ds, d < 16) :
    ((ds.map UInt8.ofNat).map nibbleChar).dropWhile (· = 48) =
      ascii (((ds.dropWhile (· = 0)).map Nat.digitChar).map Char.toUpper) := by
  induction ds with
  | nil => rfl
  | cons d ds ih =>
      have hd := h d List.mem_cons_self
      have hds : ∀ x ∈ ds, x < 16 := fun x hx => h x (List.mem_cons_of_mem d hx)
      by_cases hzero : d = 0
      · have hc : nibbleChar (UInt8.ofNat d) = 48 := (nibbleChar_eq_zero_iff hd).mpr hzero
        rw [List.map_cons, List.map_cons, List.dropWhile_cons_of_pos (by simpa using hc), ih hds,
          List.dropWhile_cons_of_pos (by simpa using hzero)]
      · have hc : ¬ nibbleChar (UInt8.ofNat d) = 48 := mt (nibbleChar_eq_zero_iff hd).mp hzero
        rw [List.map_cons, List.map_cons, List.dropWhile_cons_of_neg (by simpa using hc),
          List.dropWhile_cons_of_neg (by simpa using hzero), ← List.map_cons, ← List.map_cons,
          List.map_map, List.map_map, ascii, List.map_map]
        exact List.map_congr_left fun x hx => nibbleChar_ofNat (h x hx)

theorem digits_lt {width n : Nat} : ∀ d ∈ digits 16 width n, d < 16 := by
  induction width generalizing n with
  | zero => exact fun d hd => absurd hd List.not_mem_nil
  | succ width ih =>
      intro d hd
      rcases List.mem_append.mp hd with hd | hd
      · exact ih d hd
      · rw [List.mem_singleton.mp hd]
        exact Nat.mod_lt _ (by decide)

/-- **`int_to_hex_string`** writes what `%X` prints, of every number but 0. -/
theorem intToHexString_eq {source : BitVec 32} (h : 0 < source.toNat) :
    intToHexString source = hexUpper source.toNat := by
  have hbytes : ∀ (bs : List UInt8) (t : Target), bs.foldl Target.putByte t =
      ((bs.flatMap fun b : UInt8 => [(b &&& 0xF0) >>> 4, b &&& 0x0F]).map nibbleChar).foldl
        Target.put t := by
    intro bs t
    rw [List.foldl_map, List.foldl_flatMap]
    rfl
  have hfits : source.toNat < 16 ^ 8 := source.isLt
  rw [intToHexString, hbytes, nibbles_eq, foldl_put, dropWhile_nibbleChar digits_lt,
    dropWhile_digits (by decide) h hfits]
  rfl

theorem length_intToHexString_le {source : BitVec 32} (h : 0 < source.toNat) :
    (intToHexString source).length + 1 ≤ 17 := by
  have hdigits := (Nat.length_toDigits_le_iff (b := 16) (k := 8) (by decide) (by decide)).mpr
    source.isLt
  rw [intToHexString_eq h, hexUpper, length_ascii, List.length_map]
  omega

/-- **The pipe**: for the id of any process the names are the same. -/
theorem fifoName_eq (pid : BitVec 32) (h : 0 < pid.toInt) : preloadName pid = recordName pid := by
  have hpos : 0 < pid.toNat := by
    rw [BitVec.toInt_eq_toNat_cond] at h
    split at h <;> omega
  rw [preloadName, recordName, intToHexString_eq hpos]

theorem fifoName_eq_pid : 0 < (0x1A2B : BitVec 32).toInt ∧
    preloadName 0x1A2B = recordName 0x1A2B := ⟨by decide, fifoName_eq _ (by decide)⟩

end FlightRec.FifoName
