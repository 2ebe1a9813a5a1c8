/-
# `FlightRec.Record.LineSearch` — finding the line of an address

When `lookup_cache` (record/run.c) has the unit of an address, it looks for the line by
interpolation.  The probe is a ratio of 64-bit products that is narrowed to `int`; after
each probe one bound moves next to it, and the address of that bound is read again.

The divisor is the distance of the addresses at the bounds.  It is 0 for a unit of one
line, whose only line is never found; in a longer unit the search does not come down to
one line, since a bound with the address searched for is probed next
(`lookup_cache_finds_iff`).  The units that `set_breakpoints` fills are of the kind it is
for if no two statements have one address (`setBreakpoints_increasing`).
-/
import FlightRec.Lib.Words
import FlightRec.Lib.Interpolation
import FlightRec.Record.UnitCache

namespace FlightRec

open Interpolation Query

/-! ## The search -/

/-- How `lookup_cache` can end; `running` if it has not ended after the given number of
probes. -/
inductive Lookup where
  | found (line : ArmedLine)
  | missing
  | outside
  | divideByZero
  | running
  deriving DecidableEq, Repr

/-- `lines[index]`, if there is such an element. -/
def readLine (lines : List ArmedLine) (index : Int) : Option ArmedLine :=
  if index < 0 then none else lines[index.toNat]?

/-- `left + (address - left_addr) * (right - left) / (right_addr - left_addr)` -/
def probeIndex (address : Nat) (left : Int) (leftAddr : Nat) (right : Int) (rightAddr : Nat) :
    Int :=
  toInt (toUInt64 (toUInt64 left + ratio (2 ^ 64) (toUInt64 ((address : Int) - leftAddr))
    (toUInt64 (right - left)) (toUInt64 ((rightAddr : Int) - leftAddr))))

/-- The variables of the second loop of `lookup_cache`. -/
structure Bounds where
  left : Int
  leftAddr : Nat
  right : Int
  rightAddr : Nat
  deriving DecidableEq, Repr

/-- One time through the loop. -/
def searchStep (lines : List ArmedLine) (address : Nat) (b : Bounds) : Lookup ⊕ Bounds :=
  if b.right < b.left then .inl .missing
  else if toUInt64 ((b.rightAddr : Int) - b.leftAddr) = 0 then .inl .divideByZero
  else
    let index := probeIndex address b.left b.leftAddr b.right b.rightAddr
    match readLine lines index with
    | none => .inl .outside
    | some line =>
        if address < line.address then
          match readLine lines (index - 1) with
          | none => .inl .outside
          | some bound => .inr { b with right := index - 1, rightAddr := bound.address }
        else if line.address < address then
          match readLine lines (index + 1) with
          | none => .inl .outside
          | some bound => .inr { b with left := index + 1, leftAddr := bound.address }
        else .inl (.found line)

/-- The loop. -/
def searchLines (lines : List ArmedLine) (address : Nat) : Nat → Bounds → Lookup
  | 0, _ => .running
  | probes + 1, b =>
      match searchStep lines address b with
      | .inl result => result
      | .inr b => searchLines lines address probes b

/-- `lookup_cache` from where the unit is known. -/
def searchUnit (probes : Nat) (u : CachedUnit) (address : Nat) : Lookup :=
  let right := toInt (toUInt64 ((u.lineCount : Int) - 1))
  match readLine u.lines 0, readLine u.lines right with
  | some first, some last =>
      searchLines u.lines address probes ⟨0, first.address, right, last.address⟩
  | _, _ => .outside

/-- `lookup_cache`, with the value of the static variable `unit`. -/
def lookupCache (probes : Nat) (cache : List CachedUnit) (unitCount address unit : Nat) : Lookup :=
  match lookupUnit cache unitCount address unit with
  | none => .outside
  | some (none, _) => .missing
  | some (some i, _) =>
      match cache[i]? with
      | none => .outside
      | some u => searchUnit probes u address

/-! ## What it is for -/

/-- A unit that is filled, with one line for an address. -/
structure CachedUnit.Increasing (u : CachedUnit) : Prop where
  filled : u.lines.length = u.lineCount
  nonempty : 1 ≤ u.lineCount
  increasing : u.lines.Pairwise fun a b => a.address < b.address
  word : ∀ line ∈ u.lines, line.address < 2 ^ 64
  range : ∀ line ∈ u.lines, u.start ≤ line.address ∧ line.address ≤ u.stop

/-- Every line of the unit is found by its address: wherever the search for the unit comes
to this one, it ends with that line, after some number of probes. -/
def FindsLines (cache : List CachedUnit) (unitCount i : Nat) (u : CachedUnit) : Prop :=
  ∀ line ∈ u.lines, ∀ unit unit' : Nat,
    lookupUnit cache unitCount line.address unit = some (some i, unit') →
      ∃ probes, lookupCache probes cache unitCount line.address unit = .found line

/-! ## The search comes to the line -/

@[simp] theorem readLine_natCast (lines : List ArmedLine) (k : Nat) :
    readLine lines (k : Int) = lines[k]? := by
  rw [readLine, if_neg (by omega), Int.toNat_natCast]

theorem readLine_mem {lines : List ArmedLine} {index : Int} {line : ArmedLine}
    (h : readLine lines index = some line) : 0 ≤ index ∧ lines[index.toNat]? = some line := by
  unfold readLine at h
  split at h
  · cases h
  · exact ⟨by omega, h⟩

theorem probeIndex_of_ratio {address leftAddr rightAddr left right : Nat} (hle : left ≤ right)
    (hright : right < 2 ^ 31) (hlow : leftAddr ≤ address) (haddress : address < 2 ^ 64)
    (hbounds : leftAddr ≤ rightAddr) (hword : rightAddr < 2 ^ 64)
    (hplace : left + ratio (2 ^ 64) (address - leftAddr) (right - left) (rightAddr - leftAddr) <
      2 ^ 31) :
    probeIndex address left leftAddr right rightAddr =
      (left + ratio (2 ^ 64) (address - leftAddr) (right - left) (rightAddr - leftAddr) : Nat) := by
  have hcast : ∀ a b : Nat, b ≤ a → a < 2 ^ 64 → toUInt64 ((a : Int) - b) = a - b := by
    intro a b hba ha
    rw [toUInt64_of_lt (by omega) (by omega)]
    omega
  have hleft : toUInt64 (left : Int) = left := by
    rw [toUInt64_of_lt (by omega) (by omega), Int.toNat_natCast]
  unfold probeIndex
  rw [hcast _ _ hlow haddress, hcast _ _ hle (by omega), hcast _ _ hbounds hword, hleft,
    ← Int.natCast_add, toUInt64_of_lt (by omega) (by omega), Int.toNat_natCast,
    toInt_of_lt (by omega)]

theorem searchStep_eq {lines : List ArmedLine} {address leftAddr rightAddr left right k : Nat}
    {probe : ArmedLine} (hle : left ≤ right) (hright : right < 2 ^ 31) (hlow : leftAddr ≤ address)
    (haddress : address < 2 ^ 64) (hbounds : leftAddr < rightAddr) (hword : rightAddr < 2 ^ 64)
    (hk : left + ratio (2 ^ 64) (address - leftAddr) (right - left) (rightAddr - leftAddr) = k)
    (hplace : k < 2 ^ 31) (hprobe : lines[k]? = some probe) :
    searchStep lines address ⟨left, leftAddr, right, rightAddr⟩ =
      if address < probe.address then
        match readLine lines ((k : Int) - 1) with
        | none => .inl .outside
        | some bound => .inr ⟨left, leftAddr, (k : Int) - 1, bound.address⟩
      else if probe.address < address then
        match lines[k + 1]? with
        | none => .inl .outside
        | some bound => .inr ⟨(k : Int) + 1, bound.address, right, rightAddr⟩
      else .inl (.found probe) := by
  have hdivisor : ¬ toUInt64 ((rightAddr : Int) - leftAddr) = 0 := by
    rw [toUInt64_of_lt (by omega) (by omega)]
    omega
  have hnext : readLine lines ((k : Int) + 1) = lines[k + 1]? := readLine_natCast lines (k + 1)
  unfold searchStep
  dsimp only
  rw [if_neg (by omega), if_neg hdivisor,
    probeIndex_of_ratio hle hright hlow haddress hbounds.le hword (hk ▸ hplace), hk,
    readLine_natCast, hprobe]
  dsimp only
  rw [hnext]

section
variable {lines : List ArmedLine} (hinc : lines.Pairwise fun a b => a.address < b.address)
include hinc

theorem address_lt_iff {i j : Nat} {a b : ArmedLine} (ha : lines[i]? = some a)
    (hb : lines[j]? = some b) : a.address < b.address ↔ i < j := by
  obtain ⟨hi, rfl⟩ := List.getElem?_eq_some_iff.mp ha
  obtain ⟨hj, rfl⟩ := List.getElem?_eq_some_iff.mp hb
  have hmono := List.pairwise_iff_getElem.mp hinc
  constructor
  · intro hlt
    by_contra hji
    rcases Nat.lt_or_ge j i with h | h
    · have := hmono j i hj hi h
      omega
    · cases (show i = j by omega)
      omega
  · exact hmono i j hi hj

theorem address_le {i j : Nat} {a b : ArmedLine} (ha : lines[i]? = some a)
    (hb : lines[j]? = some b) (hij : i ≤ j) : a.address ≤ b.address := by
  by_contra hlt
  have := (address_lt_iff hinc hb ha).mp (by omega)
  omega

/-- Bounds with the line of place `i` between them, at least one place apart. -/
structure Bounds.Around (b : Bounds) (lines : List ArmedLine) (i : Nat) : Prop where
  lower : ∃ line, lines[b.left.toNat]? = some line ∧ line.address = b.leftAddr
  upper : ∃ line, lines[b.right.toNat]? = some line ∧ line.address = b.rightAddr
  left_nonneg : 0 ≤ b.left
  left_le : b.left ≤ i
  le_right : i ≤ b.right
  apart : b.left < b.right
  right_lt : b.right < 2 ^ 31

/-- A probe between such bounds finds the line, or moves one of them and leaves two lines
at least. -/
theorem searchStep_around (hword : ∀ l ∈ lines, l.address < 2 ^ 64) {i : Nat} {line : ArmedLine}
    (hline : lines[i]? = some line) {b : Bounds} (hb : b.Around lines i) :
    searchStep lines line.address b = .inl (.found line) ∨
      ∃ b' : Bounds, searchStep lines line.address b = .inr b' ∧ b'.Around lines i ∧
        b'.right - b'.left < b.right - b.left := by
  obtain ⟨left, leftAddr, right, rightAddr⟩ := b
  obtain ⟨⟨first, hfirst, rfl⟩, ⟨last, hlast, rfl⟩, hleft, hli, hir, hlr, hfits⟩ := hb
  dsimp only at hfirst hlast hleft hli hir hlr hfits
  lift left to Nat using hleft
  lift right to Nat using by omega
  rw [Int.toNat_natCast] at hfirst hlast
  have hab := (address_lt_iff hinc hfirst hlast).mpr (by omega)
  have hlow := address_le hinc hfirst hline (by omega)
  have hhigh := address_le hinc hline hlast (by omega)
  have hlastword := hword last (List.mem_of_getElem? hlast)
  have hratio := ratio_le (m := 2 ^ 64) (n := right - left)
    (show line.address - first.address ≤ last.address - first.address by omega)
  obtain ⟨k, hk⟩ : ∃ k, left + ratio (2 ^ 64) (line.address - first.address) (right - left)
    (last.address - first.address) = k := ⟨_, rfl⟩
  have hlen := (List.getElem?_eq_some_iff.mp hlast).1
  obtain ⟨probe, hprobe⟩ : ∃ probe, lines[k]? = some probe :=
    ⟨_, List.getElem?_eq_getElem (by omega)⟩
  rw [searchStep_eq (by omega) (by omega) hlow (by omega) hab hlastword hk (by omega) hprobe]
  rcases Nat.lt_trichotomy i k with hbelow | rfl | habove
  · -- the probe is too high; were the line the one at `left`, the probe would be `left`
    have hne : left ≠ i := by
      rintro rfl
      rw [hfirst] at hline
      cases hline
      rw [Nat.sub_self, ratio_zero] at hk
      omega
    obtain ⟨bound, hbound⟩ : ∃ bound, lines[k - 1]? = some bound :=
      ⟨_, List.getElem?_eq_getElem (by omega)⟩
    rw [if_pos ((address_lt_iff hinc hline hprobe).mpr hbelow),
      show (k : Int) - 1 = ((k - 1 : Nat) : Int) by omega, readLine_natCast, hbound]
    refine Or.inr ⟨_, rfl, ⟨⟨first, ?_, rfl⟩, ⟨bound, ?_, rfl⟩, ?_, ?_, ?_, ?_, ?_⟩, ?_⟩
    · rwa [Int.toNat_natCast]
    · rwa [Int.toNat_natCast]
    all_goals dsimp only; omega
  · rw [hline] at hprobe
    cases hprobe
    rw [if_neg (Nat.lt_irrefl _), if_neg (Nat.lt_irrefl _)]
    exact Or.inl rfl
  · -- the probe is too low, and by two at least if the line is the one at `right`
    have htwo : i = right → k + 2 ≤ right := by
      rintro rfl
      rw [hlast] at hline
      cases hline
      rcases ratio_top (m := 2 ^ 64) (n := i - left)
        (show 0 < line.address - first.address by omega) (by omega) with htop | htop
      · omega
      · omega
    obtain ⟨bound, hbound⟩ : ∃ bound, lines[k + 1]? = some bound :=
      ⟨_, List.getElem?_eq_getElem (by omega)⟩
    have hafter := (address_lt_iff hinc hprobe hline).mpr habove
    rw [if_neg (by omega), if_pos hafter, hbound]
    refine Or.inr ⟨_, rfl, ⟨⟨bound, ?_, rfl⟩, ⟨last, ?_, rfl⟩, ?_, ?_, ?_, ?_, ?_⟩, ?_⟩
    · rwa [← Int.natCast_succ, Int.toNat_natCast]
    · rwa [Int.toNat_natCast]
    all_goals dsimp only; omega

theorem searchLines_found (hword : ∀ l ∈ lines, l.address < 2 ^ 64) {i : Nat} {line : ArmedLine}
    (hline : lines[i]? = some line) : ∀ {probes : Nat} {b : Bounds}, b.Around lines i →
      b.right - b.left < probes → searchLines lines line.address probes b = .found line := by
  intro probes
  induction probes with
  | zero =>
      intro b hb hprobes
      have := hb.apart
      omega
  | succ probes ih =>
      intro b hb hprobes
      rw [searchLines]
      rcases searchStep_around hinc hword hline hb with hfound | ⟨b', hstep, hb', hless⟩
      · rw [hfound]
      · rw [hstep]
        exact ih hb' (by omega)

end

theorem searchStep_place {lines : List ArmedLine} {address : Nat} {line : ArmedLine} {b : Bounds}
    (h : searchStep lines address b = .inl (.found line)) :
    ∃ k < 2 ^ 31, lines[k]? = some line := by
  unfold searchStep at h
  split at h
  · cases h
  split at h
  · cases h
  dsimp only at h
  split at h
  · cases h
  next probe hprobe =>
    split at h
    · split at h <;> cases h
    split at h
    · split at h <;> cases h
    cases h
    obtain ⟨hpos, hget⟩ := readLine_mem hprobe
    refine ⟨_, ?_, hget⟩
    have hint : probeIndex address b.left b.leftAddr b.right b.rightAddr < 2 ^ 31 := toInt_lt _
    omega

theorem searchLines_place {lines : List ArmedLine} {address : Nat} {line : ArmedLine} :
    ∀ {probes : Nat} {b : Bounds}, searchLines lines address probes b = .found line →
      ∃ k < 2 ^ 31, lines[k]? = some line := by
  intro probes
  induction probes with
  | zero =>
      intro b h
      cases h
  | succ probes ih =>
      intro b h
      rw [searchLines] at h
      split at h
      · next result hstep =>
          rw [h] at hstep
          exact searchStep_place hstep
      · exact ih h

/-! ## A unit -/

section
variable {u : CachedUnit} (h : u.Increasing)
include h

theorem CachedUnit.Increasing.ends (hfits : u.lineCount ≤ 2 ^ 31) :
    ∃ first last right, toInt (toUInt64 ((u.lineCount : Int) - 1)) = right ∧
      readLine u.lines 0 = some first ∧ readLine u.lines right = some last ∧
      right = (u.lineCount - 1 : Nat) ∧ u.lines[0]? = some first ∧
      u.lines[u.lineCount - 1]? = some last := by
  have hlen := h.filled
  have hone := h.nonempty
  have hright : toInt (toUInt64 ((u.lineCount : Int) - 1)) = ((u.lineCount - 1 : Nat) : Int) := by
    rw [toUInt64_of_lt (by omega) (by omega), toInt_of_lt (by omega)]
    omega
  have hfirst : u.lines[0]? = some u.lines[0] := List.getElem?_eq_getElem (by omega)
  have hlast : u.lines[u.lineCount - 1]? = some u.lines[u.lineCount - 1] :=
    List.getElem?_eq_getElem (by omega)
  exact ⟨_, _, _, hright, (readLine_natCast u.lines 0).trans hfirst,
    (readLine_natCast u.lines _).trans hlast, rfl, hfirst, hlast⟩

/-- In a unit of two lines or more, every line is found with as many probes as it has lines. -/
theorem CachedUnit.Increasing.found (htwo : 2 ≤ u.lineCount) (hfits : u.lineCount ≤ 2 ^ 31)
    {line : ArmedLine} (hline : line ∈ u.lines) :
    searchUnit u.lineCount u line.address = .found line := by
  obtain ⟨i, hi, rfl⟩ := List.getElem_of_mem hline
  have hlen := h.filled
  obtain ⟨first, last, right, hright, hreadfirst, hreadlast, rfl, hfirst, hlast⟩ := h.ends hfits
  unfold searchUnit
  dsimp only
  rw [hright, hreadlast, hreadfirst]
  refine searchLines_found h.increasing h.word (List.getElem?_eq_getElem hi)
    ⟨⟨_, hfirst, rfl⟩, ⟨_, ?_, rfl⟩, ?_, ?_, ?_, ?_, ?_⟩ ?_
  · rwa [Int.toNat_natCast]
  all_goals dsimp only; omega

/-- The only line of a unit is not found: the first probe divides by 0. -/
theorem CachedUnit.Increasing.single (hone : u.lineCount = 1) (probes address : Nat) :
    searchUnit (probes + 1) u address = .divideByZero := by
  obtain ⟨line, hlines⟩ := List.length_eq_one_iff.mp (h.filled.trans hone)
  have hright : toInt (toUInt64 ((u.lineCount : Int) - 1)) = 0 := by
    rw [hone]
    rfl
  unfold searchUnit
  dsimp only
  rw [hright, hlines]
  have hstep : searchStep [line] address ⟨0, line.address, 0, line.address⟩ =
      .inl .divideByZero := by
    unfold searchStep
    rw [if_neg (Int.lt_irrefl 0), if_pos (by rw [Int.sub_self]; rfl)]
  show searchLines [line] address (probes + 1) ⟨0, line.address, 0, line.address⟩ = _
  rw [searchLines, hstep]

theorem CachedUnit.Increasing.far (hbig : 2 ^ 31 < u.lineCount) (probes : Nat) {line : ArmedLine}
    (hline : u.lines[u.lineCount - 1]? = some line) :
    searchUnit probes u line.address ≠ .found line := by
  intro hfound
  unfold searchUnit at hfound
  dsimp only at hfound
  split at hfound
  · obtain ⟨k, hk, hget⟩ := searchLines_place hfound
    have := (address_lt_iff h.increasing hget hline).mpr (by omega)
    omega
  · cases hfound

end

/-- **Every line of a unit is found** exactly if the unit has two lines at least, and not
more than an `int` can count. -/
theorem lookup_cache_finds_iff {cache : List CachedUnit} {unitCount i : Nat} {u : CachedUnit}
    (hu : cache[i]? = some u) (h : u.Increasing) :
    FindsLines cache unitCount i u ↔ 2 ≤ u.lineCount ∧ u.lineCount ≤ 2 ^ 31 := by
  have hsearch : ∀ {probes address unit unit' : Nat},
      lookupUnit cache unitCount address unit = some (some i, unit') →
        lookupCache probes cache unitCount address unit = searchUnit probes u address := by
    intro probes address unit unit' hunit
    unfold lookupCache
    rw [hunit]
    dsimp only
    rw [hu]
  constructor
  · intro hfinds
    obtain ⟨line, hlast⟩ : ∃ line, u.lines[u.lineCount - 1]? = some line := by
      have hlen := h.filled
      have hpos := h.nonempty
      exact ⟨_, List.getElem?_eq_getElem (by omega)⟩
    -- the unit itself is where the search for the unit begins
    have hmem := List.mem_of_getElem? hlast
    have hrange := h.range line hmem
    have hunit : lookupUnit cache unitCount line.address i = some (some i, i) := by
      unfold lookupUnit
      rw [hu]
      dsimp only
      rw [if_neg (by omega)]
    obtain ⟨probes, hfound⟩ := hfinds line hmem i i hunit
    rw [hsearch hunit] at hfound
    constructor
    · by_contra hfew
      have hone : u.lineCount = 1 := by
        have := h.nonempty
        omega
      cases probes with
      | zero =>
          unfold searchUnit at hfound
          dsimp only at hfound
          split at hfound <;> cases hfound
      | succ probes =>
          rw [h.single hone] at hfound
          cases hfound
    · by_contra hmany
      exact h.far (by omega) probes hlast hfound
  · rintro ⟨htwo, hfits⟩ line hline unit unit' hunit
    exact ⟨u.lineCount, (hsearch hunit).trans (h.found htwo hfits hline)⟩

/-! ## The units of a program -/

theorem setLines_lines {load : Nat} : ∀ {lines : List CachedLine} {st st' : Patching}
    {armed : List ArmedLine}, setLines load lines st = some (st', armed) →
    armed.map (·.toCachedLine) = lines
  | [], _, _, _, h => by
      cases h
      rfl
  | line :: lines, st, st', armed, h => by
      simp only [setLines, Option.bind_eq_bind, Option.bind_eq_some_iff] at h
      obtain ⟨⟨st₁, a⟩, hline, ⟨st₂, rest⟩, hrest, heq⟩ := h
      simp only [setLine, Option.bind_eq_bind, Option.bind_eq_some_iff] at hline
      obtain ⟨_, _, _, _, ha⟩ := hline
      cases heq
      cases ha
      rw [List.map_cons, setLines_lines hrest]

theorem setUnits_lines {load : Nat} {rows : List (Nat × StatementRow)} :
    ∀ {units : List Nat} {st st' : Patching} {cache : List CachedUnit},
      setUnits load rows units st = some (st', cache) → ∀ u ∈ cache, ∃ unit ∈ units,
        u.lines.map (·.toCachedLine) = unitLines rows unit ∧
          u.lineCount = (unitLines rows unit).length ∧ (u.start, u.stop) = unitRange rows unit
  | [], _, _, _, h => by
      cases h
      intro u hu
      cases hu
  | unit :: units, st, st', cache, h => by
      simp only [setUnits, Option.bind_eq_bind, Option.bind_eq_some_iff] at h
      obtain ⟨⟨st₁, armed⟩, hlines, ⟨st₂, rest⟩, hrest, heq⟩ := h
      cases heq
      intro u hu
      rcases List.mem_cons.mp hu with rfl | hu
      · exact ⟨unit, List.mem_cons_self, setLines_lines hlines, rfl, rfl⟩
      · obtain ⟨unit', hunit', h⟩ := setUnits_lines hrest u hu
        exact ⟨unit', List.mem_cons_of_mem _ hunit', h⟩

/-- Where no two rows have one address, every entry that `set_breakpoints` fills is a unit
of the kind the search is for. -/
theorem setBreakpoints_increasing {files : List UnitFile} {statements : List StatementRow}
    {load : Nat} {text : Text} {st : Patching} {cache : List CachedUnit}
    (hset : setBreakpoints files statements load text = some (st, cache))
    (hword : ∀ s ∈ statements, s.address < 2 ^ 64)
    (hdistinct : ((unitStatements files statements).map fun r => r.2.address).Nodup) :
    ∀ u ∈ cache, u.Increasing := by
  intro u hu
  obtain ⟨unit, hunit, hlines, hcount, hrange⟩ := setUnits_lines hset u hu
  have haddresses : u.lines.map (·.address) =
      (unitLines (unitStatements files statements) unit).map (·.address) := by
    rw [← hlines, List.map_map]
    rfl
  have hmem : ∀ line ∈ u.lines,
      line.address ∈ (unitLines (unitStatements files statements) unit).map (·.address) :=
    fun line hline => haddresses ▸ List.mem_map.mpr ⟨line, hline, rfl⟩
  refine ⟨?_, ?_, ?_, fun line hline => ?_, fun line hline => ?_⟩
  · rw [hcount, ← hlines, List.length_map]
  · obtain ⟨first, _⟩ := unitRange_mem hunit
    rw [hcount, ← List.length_map (f := fun line => line.address)]
    exact List.length_pos_of_mem first
  · rw [← List.pairwise_map (f := fun line : ArmedLine => line.address) (R := (· < ·)), haddresses]
    have hsorted := orderBy_pairwise (fun r : Nat × StatementRow => r.2.address)
      ((unitStatements files statements).filter fun r => r.1 = unit)
    have hnodup : ((orderBy (fun r : Nat × StatementRow => r.2.address)
        ((unitStatements files statements).filter fun r => r.1 = unit)).map
          fun r => r.2.address).Nodup :=
      ((List.perm_insertionSort _ _).map _).nodup_iff.mpr
        (hdistinct.sublist (List.filter_sublist.map _))
    rw [unitLines, List.map_map, List.pairwise_map]
    exact (hsorted.and (List.pairwise_map.mp hnodup)).imp fun h => lt_of_le_of_ne h.1 h.2
  · obtain ⟨r, hr, _, ha⟩ := mem_unitAddresses.mp (hmem line hline)
    obtain ⟨f, _, hr⟩ := List.mem_flatMap.mp hr
    obtain ⟨s, hs, rfl⟩ := List.mem_map.mp hr
    exact ha ▸ hword s (List.mem_filter.mp hs).1
  · have hbounds := unitRange_bounds (hmem line hline)
    rwa [← hrange] at hbounds

/-! ### Examples -/

/-- A unit of four lines and one of a single line. -/
def fourLines : CachedUnit where
  start := 0x1000
  stop := 0x1040
  lineCount := 4
  lines := [⟨⟨0x1000, 1, 1⟩, 0x90⟩, ⟨⟨0x1004, 1, 0⟩, 0x90⟩, ⟨⟨0x1006, 1, 0⟩, 0x90⟩,
    ⟨⟨0x1040, 1, 2⟩, 0x90⟩]

def singleLine : CachedUnit where
  start := 0x2000
  stop := 0x2000
  lineCount := 1
  lines := [⟨⟨0x2000, 2, 0⟩, 0x90⟩]

theorem lookup_cache_finds_iff_four :
    FindsLines [fourLines, singleLine] 2 0 fourLines :=
  (lookup_cache_finds_iff rfl
    ⟨rfl, by decide, by decide, by decide, by decide⟩).mpr ⟨by decide, by decide⟩

/-- A unit of one line, as a source file with a single statement has, is searched with a
division by 0. -/
theorem single_line_divides :
    lookupCache 1 [fourLines, singleLine] 2 0x2000 1 = .divideByZero ∧
      ¬ ∀ (cache : List CachedUnit) (unitCount i : Nat) (u : CachedUnit), cache[i]? = some u →
        u.Increasing → FindsLines cache unitCount i u := by
  have hsingle : singleLine.Increasing := ⟨rfl, by decide, by decide, by decide, by decide⟩
  have hzero : ∀ probes, lookupCache (probes + 1) [fourLines, singleLine] 2 0x2000 1 =
      .divideByZero := fun probes => hsingle.single rfl probes 0x2000
  refine ⟨hzero 0, fun hall => ?_⟩
  obtain ⟨probes, hfound⟩ := hall [fourLines, singleLine] 2 1 singleLine rfl hsingle
    ⟨⟨0x2000, 2, 0⟩, 0x90⟩ (by decide) 1 1 rfl
  cases probes with
  | zero => cases hfound
  | succ probes =>
      have hdivides := (hzero probes).symm.trans hfound
      cases hdivides

end FlightRec
