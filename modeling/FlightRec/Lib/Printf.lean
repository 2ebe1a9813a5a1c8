/-
# `FlightRec.Lib.Printf` — how long formatted values are

The conversions of `printf` for texts, integers and binary floating point numbers, as bytes.
An integer has as many digits as it needs; `%f` writes the whole integer part and six more
digits; `%g` writes six digits at most, and an exponent where it would take many zeros.
-/
import Mathlib.Data.Int.Log
import Mathlib.Data.List.DropRight
import Mathlib.Data.Rat.Floor

namespace FlightRec.Printf

/-! ## Texts and integers -/

/-- The bytes of ASCII characters. -/
def ascii (cs : List Char) : List UInt8 := cs.map fun c => UInt8.ofNat c.toNat

/-- `%s` -/
def bytes (s : String) : List UInt8 := s.toUTF8.data.toList

/-- `%u` -/
def unsigned (n : Nat) : List UInt8 := ascii (Nat.toDigits 10 n)

/-- The sign of a number. -/
def sign (negative : Bool) : List UInt8 := if negative then ascii ['-'] else []

/-- `%d` -/
def signed (i : Int) : List UInt8 := sign (i < 0) ++ unsigned i.natAbs

/-- `%x` -/
def hex (n : Nat) : List UInt8 := ascii (Nat.toDigits 16 n)

/-- `%X` -/
def hexUpper (n : Nat) : List UInt8 := ascii ((Nat.toDigits 16 n).map Char.toUpper)

/-- The last `width` digits of a number, the highest first. -/
def digits (base : Nat) : Nat → Nat → List Nat
  | 0, _ => []
  | width + 1, n => digits base width (n / base) ++ [n % base]

/-- A number with zeros before it, as many digits as that at least. -/
def padded (width n : Nat) : List Char :=
  List.replicate (width - (Nat.toDigits 10 n).length) '0' ++ Nat.toDigits 10 n

variable {n k : Nat}

@[simp] theorem length_ascii (cs : List Char) : (ascii cs).length = cs.length :=
  List.length_map _

@[simp] theorem length_bytes (s : String) : (bytes s).length = s.utf8ByteSize := rfl

theorem length_unsigned_le_iff (hk : 0 < k) : (unsigned n).length ≤ k ↔ n < 10 ^ k := by
  rw [unsigned, length_ascii, Nat.length_toDigits_le_iff (by decide) hk]

@[simp] theorem length_sign (negative : Bool) : (sign negative).length = negative.toNat := by
  cases negative <;> rfl

theorem length_signed_le {i : Int} (hi : i.natAbs < 10 ^ k) (hk : 0 < k) :
    (signed i).length ≤ k + 1 := by
  have hdigits := (length_unsigned_le_iff hk).mpr hi
  have hsign : (decide (i < 0)).toNat ≤ 1 := Bool.toNat_le _
  rw [signed, List.length_append, length_sign]
  omega

theorem length_padded_le {width : Nat} (hn : n < 10 ^ k) (hk : 0 < k) (hwidth : width ≤ k) :
    (padded width n).length ≤ k := by
  have hdigits := (Nat.length_toDigits_le_iff (by decide) hk).mpr hn
  rw [padded, List.length_append, List.length_replicate]
  omega

theorem length_padded_of_lt (hn : n < 10 ^ k) (hk : 0 < k) : (padded k n).length = k := by
  have hdigits := (Nat.length_toDigits_le_iff (by decide) hk).mpr hn
  rw [padded, List.length_append, List.length_replicate]
  omega

theorem digits_zero (base width : Nat) : ∀ d ∈ digits base width 0, d = 0 := by
  induction width with
  | zero => exact fun d hd => absurd hd List.not_mem_nil
  | succ width ih =>
      intro d hd
      rw [digits, Nat.zero_div, Nat.zero_mod] at hd
      rcases List.mem_append.mp hd with hd | hd
      · exact ih d hd
      · exact List.mem_singleton.mp hd

theorem dropWhile_digits {base width : Nat} (hbase : 1 < base) (hn : 0 < n)
    (h : n < base ^ width) :
    ((digits base width n).dropWhile (· = 0)).map Nat.digitChar = Nat.toDigits base n := by
  induction width generalizing n with
  | zero => exact absurd h (Nat.not_lt.mpr hn)
  | succ width ih =>
      rw [digits, List.dropWhile_append]
      rcases Nat.lt_or_ge n base with hlt | hge
      · have hzeros : (digits base width (n / base)).dropWhile (· = 0) = [] := by
          rw [Nat.div_eq_of_lt hlt, List.dropWhile_eq_nil_iff]
          exact fun d hd => decide_eq_true (digits_zero base width d hd)
        have hne : ¬ n = 0 := Nat.ne_of_gt hn
        rw [hzeros, List.isEmpty_nil, if_pos rfl, Nat.mod_eq_of_lt hlt,
          List.dropWhile_cons_of_neg (by simpa using hne), Nat.toDigits_of_lt_base hlt]
        rfl
      · have hrest := ih (Nat.div_pos hge (Nat.zero_lt_of_lt hbase))
          (Nat.div_lt_of_lt_mul (by rwa [← Nat.pow_succ']))
        have hne : ¬ ((digits base width (n / base)).dropWhile (· = 0)).isEmpty := by
          rw [List.isEmpty_iff, ← List.map_eq_nil_iff (f := Nat.digitChar), hrest]
          exact Nat.toDigits_ne_nil
        rw [if_neg hne, List.map_append, hrest, Nat.toDigits_of_base_le hbase hge]
        rfl

/-! ## Floating point numbers -/

/-- A finite number. -/
structure Binary where
  negative : Bool
  mantissa : Nat
  exponent : Int
  deriving DecidableEq, Repr

/-- What a floating point format has. -/
inductive Number where
  | finite (x : Binary)
  | infinite (negative : Bool)
  | nan (negative : Bool)
  deriving DecidableEq, Repr

/-- The number without its sign. -/
def Binary.magnitude (x : Binary) : ℚ := x.mantissa * 2 ^ x.exponent

/-- The nearest natural number, an even one of two. -/
def roundEven (q : ℚ) : Nat :=
  let n := ⌊q⌋₊
  if q - n < 1 / 2 ∨ (q - n = 1 / 2 ∧ n % 2 = 0) then n else n + 1

/-- `%f`, from the number of millionths. -/
def fixedText (negative : Bool) (scaled : Nat) : List UInt8 :=
  sign negative ++ unsigned (scaled / 10 ^ 6) ++ ascii ('.' :: padded 6 (scaled % 10 ^ 6))

/-- Six decimal digits of a number, and the exponent of the first. -/
def scientific (q : ℚ) : Nat × Int :=
  let e := Int.log 10 q
  let d := roundEven (q * 10 ^ (5 - e))
  if d < 10 ^ 6 then (d, e) else (10 ^ 5, e + 1)

/-- Without zeros at the end. -/
def trimmed (cs : List Char) : List Char := cs.rdropWhile (· = '0')

/-- The digits of a fraction, if there are any. -/
def fraction (cs : List Char) : List Char := if cs = [] then [] else '.' :: cs

/-- `%g`, from six digits and an exponent. -/
def generalText (d : Nat) (e : Int) : List Char :=
  let digits := Nat.toDigits 10 d
  if e < -4 ∨ 6 ≤ e then
    digits.take 1 ++ fraction (trimmed (digits.drop 1)) ++
      'e' :: (if e < 0 then '-' else '+') :: padded 2 e.natAbs
  else if e < 0 then
    '0' :: fraction (List.replicate (e.natAbs - 1) '0' ++ trimmed digits)
  else digits.take (e.natAbs + 1) ++ fraction (trimmed (digits.drop (e.natAbs + 1)))

/-- What is not a finite number. -/
def Number.special (onFinite : Binary → List UInt8) : Number → List UInt8
  | .finite x => onFinite x
  | .infinite negative => sign negative ++ ascii ['i', 'n', 'f']
  | .nan negative => sign negative ++ ascii ['n', 'a', 'n']

/-- `%f` -/
def fixed : Number → List UInt8 :=
  Number.special fun x => fixedText x.negative (roundEven (x.magnitude * 10 ^ 6))

/-- `%g` -/
def general : Number → List UInt8 :=
  Number.special fun x => sign x.negative ++
    if x.mantissa = 0 then ascii ['0']
    else ascii (generalText (scientific x.magnitude).1 (scientific x.magnitude).2)

/-- A number of the formats of IEEE 754, with a hidden bit. -/
def ieee (exponentBits fractionBits bits : Nat) : Number :=
  let e := bits / 2 ^ fractionBits % 2 ^ exponentBits
  let f := bits % 2 ^ fractionBits
  let negative := decide (bits / 2 ^ (exponentBits + fractionBits) % 2 = 1)
  let bias : Int := 2 ^ (exponentBits - 1) - 1
  if e = 2 ^ exponentBits - 1 then if f = 0 then .infinite negative else .nan negative
  else if e = 0 then .finite ⟨negative, f, 1 - bias - fractionBits⟩
  else .finite ⟨negative, 2 ^ fractionBits + f, e - bias - fractionBits⟩

/-- A number of the format of the x87, with all bits of the mantissa. -/
def extended (bits : Nat) : Number :=
  let e := bits / 2 ^ 64 % 2 ^ 15
  let m := bits % 2 ^ 64
  let negative := decide (bits / 2 ^ 79 % 2 = 1)
  if e = 2 ^ 15 - 1 then if m % 2 ^ 63 = 0 then .infinite negative else .nan negative
  else .finite ⟨negative, m, (max e 1 : Nat) - 16383 - 63⟩

/-! ### Lengths -/

theorem roundEven_natCast (n : Nat) : roundEven n = n := by
  have hzero : ((n : ℚ) - (n : Nat) : ℚ) < 1 / 2 := by norm_num
  rw [roundEven]
  rw [Nat.floor_natCast, if_pos (.inl hzero)]

theorem roundEven_le (q : ℚ) : roundEven q ≤ ⌊q⌋₊ + 1 := by
  rw [roundEven]
  split
  · exact Nat.le_succ _
  · exact le_rfl

theorem length_fixedText (negative : Bool) (scaled : Nat) : (fixedText negative scaled).length =
    negative.toNat + (unsigned (scaled / 10 ^ 6)).length + 7 := by
  have hdigits := length_padded_of_lt (n := scaled % 10 ^ 6) (k := 6) (Nat.mod_lt _ (by decide))
    (by decide)
  rw [fixedText, List.length_append, List.length_append, length_sign, length_ascii,
    List.length_cons, hdigits]

theorem magnitude_natCast {x : Binary} {j : Nat} (h : x.exponent = j) :
    x.magnitude = (x.mantissa * 2 ^ j : Nat) := by
  rw [Binary.magnitude, h]
  push_cast
  rw [zpow_natCast]

/-- Rounding to millionths does not make the integer part longer, if that is not short. -/
theorem integerPart_lt_iff {x : Binary} (hx : x.mantissa < 2 ^ 64) (hk : 20 ≤ k) :
    roundEven (x.magnitude * 10 ^ 6) / 10 ^ 6 < 10 ^ k ↔ ⌊x.magnitude⌋₊ < 10 ^ k := by
  rcases Int.le_total 0 x.exponent with hexp | hexp
  · -- the number is an integer
    obtain ⟨j, hj⟩ := Int.eq_ofNat_of_zero_le hexp
    have hnat := magnitude_natCast hj
    have hscaled : x.magnitude * 10 ^ 6 = (x.mantissa * 2 ^ j * 10 ^ 6 : Nat) := by
      rw [hnat]
      push_cast
      rfl
    rw [hscaled, roundEven_natCast, Nat.mul_div_cancel _ (by decide), hnat, Nat.floor_natCast]
  · -- the number is below `2 ^ 64`
    have hpow : (2 : ℚ) ^ x.exponent ≤ 1 := zpow_le_one_of_nonpos₀ (by norm_num) hexp
    have hle : x.magnitude ≤ x.mantissa := by
      rw [Binary.magnitude]
      exact mul_le_of_le_one_right (Nat.cast_nonneg _) hpow
    have hlarge : 10 ^ 20 ≤ 10 ^ k := Nat.pow_le_pow_right (by decide) hk
    have hfloor : ⌊x.magnitude⌋₊ ≤ x.mantissa := Nat.floor_le_of_le hle
    have hround : roundEven (x.magnitude * 10 ^ 6) ≤ x.mantissa * 10 ^ 6 + 1 := by
      refine (roundEven_le _).trans (Nat.succ_le_succ (Nat.floor_le_of_le ?_))
      push_cast
      exact mul_le_mul_of_nonneg_right hle (by norm_num)
    refine iff_of_true ?_ ?_
    · omega
    · omega

/-- **`%f`** writes the integer part, seven more bytes and the sign. -/
theorem length_fixed_le_iff {x : Binary} (hx : x.mantissa < 2 ^ 64) (hk : 20 ≤ k) :
    (fixed (.finite x)).length ≤ x.negative.toNat + k + 7 ↔ ⌊x.magnitude⌋₊ < 10 ^ k := by
  have hdigits := length_unsigned_le_iff (n := roundEven (x.magnitude * 10 ^ 6) / 10 ^ 6)
    (k := k) (by omega)
  rw [← integerPart_lt_iff hx hk, ← hdigits]
  change (fixedText _ _).length ≤ _ ↔ _
  rw [length_fixedText]
  omega

theorem length_trimmed_le (cs : List Char) : (trimmed cs).length ≤ cs.length :=
  (List.rdropWhile_prefix _ cs).length_le

theorem length_fraction_le (cs : List Char) : (fraction cs).length ≤ cs.length + 1 := by
  rw [fraction]
  split
  · exact Nat.zero_le _
  · exact le_rfl

theorem length_generalText_le {d : Nat} {e : Int} (hd : d < 10 ^ 6) (he : e.natAbs < 10 ^ 5) :
    (generalText d e).length ≤ 20 := by
  have hdigits : (Nat.toDigits 10 d).length ≤ 6 :=
    (Nat.length_toDigits_le_iff (by decide) (by decide)).mpr hd
  have hexponent : (padded 2 e.natAbs).length ≤ 5 :=
    length_padded_le he (by decide) (by decide)
  rw [generalText]
  generalize Nat.toDigits 10 d = digits at hdigits
  split
  · have hrest := (length_fraction_le (trimmed (digits.drop 1))).trans
      (Nat.succ_le_succ (length_trimmed_le _))
    have htake := List.length_take_le 1 digits
    rw [List.length_drop] at hrest
    simp only [List.length_append, List.length_cons]
    omega
  · split
    · have hrest := length_fraction_le (List.replicate (e.natAbs - 1) '0' ++ trimmed digits)
      have htrimmed := length_trimmed_le digits
      rw [List.length_append, List.length_replicate] at hrest
      rw [List.length_cons]
      omega
    · have hrest := (length_fraction_le (trimmed (digits.drop (e.natAbs + 1)))).trans
        (Nat.succ_le_succ (length_trimmed_le _))
      have htake := List.length_take_le' (e.natAbs + 1) digits
      rw [List.length_drop] at hrest
      rw [List.length_append]
      omega

theorem scientific_bounds {q : ℚ} (hn : n + 1 < 10 ^ 5) (hlo : (2 : ℚ) ^ (-n : Int) ≤ q)
    (hhi : q < 2 ^ (n : Int)) :
    (scientific q).1 < 10 ^ 6 ∧ (scientific q).2.natAbs < 10 ^ 5 := by
  have hpos : 0 < q := lt_of_lt_of_le (zpow_pos (by norm_num) _) hlo
  have hpow : (2 : ℚ) ^ (n : Int) ≤ 10 ^ (n : Int) := by
    rw [zpow_natCast, zpow_natCast]
    exact pow_le_pow_left₀ (by norm_num) (by norm_num) n
  have hlow : -n ≤ Int.log 10 q := by
    refine (Int.zpow_le_iff_le_log (by decide) hpos).mp (le_trans ?_ hlo)
    rw [zpow_neg, zpow_neg]
    exact inv_anti₀ (zpow_pos (by norm_num) _) hpow
  have hhigh : Int.log 10 q < n :=
    (Int.lt_zpow_iff_log_lt (by decide) hpos).mp (lt_of_lt_of_le hhi hpow)
  rw [scientific]
  split
  · exact ⟨‹_›, by dsimp only; omega⟩
  · exact ⟨by norm_num, by dsimp only; omega⟩

/-- A finite number has a mantissa of a word, and not too large an exponent. -/
def Number.Moderate : Number → Prop
  | .finite x => x.mantissa < 2 ^ 64 ∧ x.exponent.natAbs ≤ 20000
  | _ => True

/-- **`%g`** writes few bytes, whatever the number. -/
theorem length_general_le {x : Number} (hx : x.Moderate) : (general x).length ≤ 21 := by
  cases x with
  | infinite negative => cases negative <;> decide
  | nan negative => cases negative <;> decide
  | finite x =>
      obtain ⟨hmantissa, hexponent⟩ := hx
      have hsign : x.negative.toNat ≤ 1 := Bool.toNat_le _
      change (sign x.negative ++ if x.mantissa = 0 then ascii ['0'] else
        ascii (generalText (scientific x.magnitude).1 (scientific x.magnitude).2)).length ≤ 21
      rw [List.length_append, length_sign]
      split
      · exact (Nat.add_le_add_right hsign _).trans (by decide)
      · have hone : (1 : ℚ) ≤ x.mantissa := by
          exact_mod_cast Nat.one_le_iff_ne_zero.mpr ‹_›
        have hlo : (2 : ℚ) ^ (-(30000 : Nat) : Int) ≤ x.magnitude := by
          rw [Binary.magnitude]
          calc (2 : ℚ) ^ (-(30000 : Nat) : Int) ≤ 2 ^ x.exponent :=
                zpow_le_zpow_right₀ (by norm_num) (by omega)
            _ ≤ x.mantissa * 2 ^ x.exponent :=
                le_mul_of_one_le_left (zpow_nonneg (by norm_num) _) hone
        have hhi : x.magnitude < 2 ^ ((30000 : Nat) : Int) := by
          rw [Binary.magnitude]
          calc (x.mantissa : ℚ) * 2 ^ x.exponent < 2 ^ (64 : Int) * 2 ^ x.exponent := by
                refine mul_lt_mul_of_pos_right ?_ (zpow_pos (by norm_num) _)
                exact_mod_cast hmantissa
            _ = 2 ^ (64 + x.exponent) := (zpow_add₀ (by norm_num) _ _).symm
            _ ≤ 2 ^ ((30000 : Nat) : Int) := zpow_le_zpow_right₀ (by norm_num) (by omega)
        obtain ⟨hd, he⟩ := scientific_bounds (by decide) hlo hhi
        rw [length_ascii]
        have htext := length_generalText_le hd he
        omega

theorem ieee_mantissa {exponentBits fractionBits bits : Nat} {x : Binary}
    (h : ieee exponentBits fractionBits bits = .finite x) :
    x.mantissa < 2 ^ (fractionBits + 1) := by
  have hfraction : bits % 2 ^ fractionBits < 2 ^ fractionBits := Nat.mod_lt _ (Nat.two_pow_pos _)
  rw [ieee] at h
  split at h
  · split at h <;> cases h
  · rw [Nat.pow_succ]
    split at h
    · cases h
      dsimp only
      omega
    · cases h
      dsimp only
      omega

theorem ieee_exponent {exponentBits fractionBits bits : Nat} {x : Binary}
    (h : ieee exponentBits fractionBits bits = .finite x) :
    x.exponent.natAbs ≤ 2 ^ exponentBits + fractionBits + 2 ^ (exponentBits - 1) := by
  have hexponent : bits / 2 ^ fractionBits % 2 ^ exponentBits < 2 ^ exponentBits :=
    Nat.mod_lt _ (Nat.two_pow_pos _)
  have hbias : (2 : Int) ^ (exponentBits - 1) = ((2 ^ (exponentBits - 1) : Nat) : Int) := by
    push_cast
    rfl
  rw [ieee, hbias] at h
  generalize 2 ^ (exponentBits - 1) = bias at h ⊢
  generalize bits / 2 ^ fractionBits % 2 ^ exponentBits = e at h hexponent
  split at h
  · split at h <;> cases h
  · split at h
    · cases h
      dsimp only
      omega
    · cases h
      dsimp only
      omega

theorem moderate_ieee {exponentBits fractionBits : Nat} (hfraction : fractionBits < 64)
    (hexponent : exponentBits ≤ 12) (bits : Nat) :
    (ieee exponentBits fractionBits bits).Moderate := by
  cases h : ieee exponentBits fractionBits bits with
  | infinite _ => trivial
  | nan _ => trivial
  | finite x =>
      have hmantissa := ieee_mantissa h
      have hbound := ieee_exponent h
      have hpow : 2 ^ (fractionBits + 1) ≤ 2 ^ 64 := Nat.pow_le_pow_right (by decide) hfraction
      have hpow' : 2 ^ exponentBits ≤ 2 ^ 12 := Nat.pow_le_pow_right (by decide) hexponent
      have hpow'' : 2 ^ (exponentBits - 1) ≤ 2 ^ 12 :=
        Nat.pow_le_pow_right (by decide) (by omega)
      exact ⟨by omega, by omega⟩

theorem moderate_extended (bits : Nat) : (extended bits).Moderate := by
  have hmantissa : bits % 2 ^ 64 < 2 ^ 64 := Nat.mod_lt _ (by decide)
  have hexponent : bits / 2 ^ 64 % 2 ^ 15 < 2 ^ 15 := Nat.mod_lt _ (by decide)
  rw [extended]
  split
  · split <;> trivial
  · refine ⟨hmantissa, ?_⟩
    dsimp only
    omega

/-! ## No terminators -/

/-- A character that is no terminator, in one byte. -/
def Plain (c : Char) : Prop := 0 < c.toNat ∧ c.toNat < 256

theorem plain_of_isDigit {c : Char} (h : c.isDigit) : Plain c := by
  simp only [Char.isDigit, Bool.and_eq_true, decide_eq_true_eq] at h
  have hlo : '0'.toNat ≤ c.toNat := h.1
  have hhi : c.toNat ≤ '9'.toNat := h.2
  simp only [Char.reduceToNat] at hlo hhi
  exact ⟨by omega, by omega⟩

theorem zero_not_mem_ascii {cs : List Char} (h : ∀ c ∈ cs, Plain c) : 0 ∉ ascii cs := by
  intro hzero
  obtain ⟨c, hc, heq⟩ := List.mem_map.mp hzero
  have hnat := congrArg UInt8.toNat heq
  have hplain := h c hc
  rw [UInt8.toNat_ofNat', Nat.mod_eq_of_lt hplain.2] at hnat
  exact absurd hnat (Nat.ne_of_gt hplain.1)

theorem plain_toDigits {n : Nat} : ∀ c ∈ Nat.toDigits 10 n, Plain c := fun _ hc =>
  plain_of_isDigit (Nat.isDigit_of_mem_toDigits (by decide) (by decide) hc)

theorem zero_not_mem_unsigned (n : Nat) : 0 ∉ unsigned n := zero_not_mem_ascii plain_toDigits

theorem zero_not_mem_sign (negative : Bool) : 0 ∉ sign negative := by
  cases negative <;> decide

theorem zero_not_mem_signed (i : Int) : 0 ∉ signed i := by
  rw [signed, List.mem_append, not_or]
  exact ⟨zero_not_mem_sign _, zero_not_mem_unsigned _⟩

theorem plain_padded {width n : Nat} : ∀ c ∈ padded width n, Plain c := by
  intro c hc
  rcases List.mem_append.mp hc with hc | hc
  · rw [List.eq_of_mem_replicate hc]
    exact ⟨by decide, by decide⟩
  · exact plain_toDigits c hc

theorem zero_not_mem_fixedText (negative : Bool) (scaled : Nat) :
    0 ∉ fixedText negative scaled := by
  rw [fixedText, List.mem_append, List.mem_append, not_or, not_or]
  refine ⟨⟨zero_not_mem_sign _, zero_not_mem_unsigned _⟩, zero_not_mem_ascii fun c hc => ?_⟩
  rcases List.mem_cons.mp hc with rfl | hc
  · exact ⟨by decide, by decide⟩
  · exact plain_padded c hc

theorem zero_not_mem_fixed (x : Number) : 0 ∉ fixed x := by
  cases x with
  | finite x => exact zero_not_mem_fixedText _ _
  | infinite negative =>
      exact fun h => (List.mem_append.mp h).elim (zero_not_mem_sign _) (by decide)
  | nan negative =>
      exact fun h => (List.mem_append.mp h).elim (zero_not_mem_sign _) (by decide)

end FlightRec.Printf
