/-
# `FlightRec.Record.AbsentLines` — addresses that are of no line

An address between the lines of a unit leaves the bounds of the interpolation: a bound is moved
past it before the bounds have crossed.  The search goes on all the same.

    past the right bound    the probe is as many places behind the right bound as the address is
                            mean gaps of the lines between the bounds; with none the bounds cross,
                            and the answer is `NULL`; with one the same probe is made for ever
    past the left bound     the difference to it wraps around, and the probe is anywhere
    equal bounds            the divisor is 0

The answer is right exactly if the bounds are never equal, no probe leaves the unit, and the
search does not come back to bounds that it had (`lookup_cache_rejects_iff`).  Between the last
two lines it never is (`CachedUnit.Increasing.last_gap`).
-/
import FlightRec.Lib.Completion
import FlightRec.Record.LineSearch
import Mathlib.Data.Finite.Prod
import Mathlib.Data.Nat.Order.Lemmas

namespace FlightRec

open Completion Interpolation Relation

/-! ## Probes -/

/-- One time through the loop that does not leave it. -/
def Probe (lines : List ArmedLine) (address : Nat) (b b' : Bounds) : Prop :=
  searchStep lines address b = .inr b'

/-- The bounds that a search begins with. -/
def CachedUnit.bounds (u : CachedUnit) : Option Bounds :=
  let right := toInt (toUInt64 ((u.lineCount : Int) - 1))
  match readLine u.lines 0, readLine u.lines right with
  | some first, some last => some ⟨0, first.address, right, last.address⟩
  | _, _ => none

/-- The place that is probed. -/
def Bounds.probe (b : Bounds) (address : Nat) : Int :=
  probeIndex address b.left b.leftAddr b.right b.rightAddr

theorem Bounds.probe_lt (b : Bounds) (address : Nat) : b.probe address < 2 ^ 31 := by
  unfold Bounds.probe probeIndex
  exact toInt_lt _

/-- A probe from the bounds leads on: they are apart, a probe for an address that is not
between them is at a line of the unit all the same, and the search does not come back. -/
structure Bounds.Leads (b : Bounds) (lines : List ArmedLine) (address : Nat) : Prop where
  apart : b.left < b.right
  inside : address < b.leftAddr ∨ b.rightAddr < address →
    0 ≤ b.probe address ∧ b.probe address < lines.length
  onward : ¬ TransGen (Probe lines address) b b

theorem searchUnit_eq {u : CachedUnit} {probes address : Nat} :
    searchUnit probes u address =
      match u.bounds with
      | some b => searchLines u.lines address probes b
      | none => .outside := by
  unfold searchUnit CachedUnit.bounds
  dsimp only
  cases readLine u.lines 0 with
  | none => rfl
  | some first =>
      cases readLine u.lines (toInt (toUInt64 ((u.lineCount : Int) - 1))) with
      | none => rfl
      | some last => rfl

theorem searchUnit_of_bounds {u : CachedUnit} {b : Bounds} (hb : u.bounds = some b)
    {probes address : Nat} :
    searchUnit probes u address = searchLines u.lines address probes b := by
  rw [searchUnit_eq, hb]

/-- Every probe for the address leads on, until the bounds cross. -/
def CachedUnit.Guided (u : CachedUnit) (address : Nat) : Prop :=
  ∃ b₀, u.bounds = some b₀ ∧ ∀ b, ReflTransGen (Probe u.lines address) b₀ b →
    b.left ≤ b.right → b.Leads u.lines address

/-- A unit that begins and ends with a line, as `set_breakpoints` fills it. -/
structure CachedUnit.EndsAtLines (u : CachedUnit) : Prop where
  start : ∃ line ∈ u.lines, line.address = u.start
  stop : ∃ line ∈ u.lines, line.address = u.stop

theorem setBreakpoints_endsAtLines {files : List UnitFile} {statements : List StatementRow}
    {load : Nat} {text : Text} {st : Patching} {cache : List CachedUnit}
    (hset : setBreakpoints files statements load text = some (st, cache)) :
    ∀ u ∈ cache, u.EndsAtLines := by
  intro u hu
  obtain ⟨unit, hunit, hlines, _, hrange⟩ := setUnits_lines hset u hu
  obtain ⟨hstart, hstop⟩ := unitRange_mem hunit
  have haddresses : (unitLines (unitStatements files statements) unit).map (·.address) =
      u.lines.map (·.address) := by
    rw [← hlines, List.map_map]
    rfl
  rw [haddresses, ← hrange] at hstart hstop
  exact ⟨List.mem_map.mp hstart, List.mem_map.mp hstop⟩

/-! ## Runs of probes -/

section
variable {lines : List ArmedLine} {address n : Nat} {b b' : Bounds}

theorem searchLines_probe (h : Probe lines address b b') :
    searchLines lines address (n + 1) b = searchLines lines address n b' := by
  rw [searchLines, show searchStep lines address b = .inr b' from h]

theorem searchLines_reach (hreach : ReflTransGen (Probe lines address) b b')
    (hended : searchLines lines address n b ≠ .running) :
    ∃ m, searchLines lines address m b' = searchLines lines address n b := by
  induction hreach using ReflTransGen.head_induction_on generalizing n with
  | refl => exact ⟨n, rfl⟩
  | head hprobe _ ih =>
      cases n with
      | zero => exact absurd rfl hended
      | succ n =>
          rw [searchLines_probe hprobe] at hended ⊢
          exact ih hended

/-- A search that comes back to its bounds does not end. -/
theorem searchLines_circle : ∀ {n : Nat} {b : Bounds}, TransGen (Probe lines address) b b →
    searchLines lines address n b = .running := by
  intro n
  induction n with
  | zero =>
      intro b _
      rfl
  | succ n ih =>
      intro b hcircle
      obtain ⟨b', hprobe, hback⟩ := TransGen.head'_iff.mp hcircle
      rw [searchLines_probe hprobe]
      exact ih (TransGen.tail' hback hprobe)

theorem Probe.reads (h : Probe lines address b b') : b.left ≤ b.right ∧
    b.leftAddr ≠ b.rightAddr ∧ ∃ line, readLine lines (b.probe address) = some line := by
  unfold Probe searchStep at h
  split at h
  · cases h
  next hcrossed =>
    split at h
    · cases h
    next hdivisor =>
      refine ⟨by omega, ?_, ?_⟩
      · intro heq
        rw [heq, Int.sub_self] at hdivisor
        exact hdivisor rfl
      · unfold Bounds.probe
        dsimp only at h
        cases hread : readLine lines (probeIndex address b.left b.leftAddr b.right b.rightAddr) with
        | none =>
            rw [hread] at h
            cases h
        | some line => exact ⟨line, rfl⟩

/-- The answer is `NULL` only where the bounds have crossed. -/
theorem searchStep_missing (h : searchStep lines address b = .inl .missing) : b.right < b.left := by
  unfold searchStep at h
  split at h
  · assumption
  split at h
  · cases h
  dsimp only at h
  split at h
  · cases h
  split at h
  · split at h <;> cases h
  split at h
  · split at h <;> cases h
  cases h

/-- A search that answers `NULL` makes a probe from all bounds that have not crossed. -/
theorem exists_probe (hmissing : searchLines lines address n b = .missing)
    (hopen : b.left ≤ b.right) : ∃ b', Probe lines address b b' := by
  cases n with
  | zero => cases hmissing
  | succ n =>
      rw [searchLines] at hmissing
      unfold Probe
      cases hstep : searchStep lines address b with
      | inr b' => exact ⟨b', rfl⟩
      | inl result =>
          rw [hstep] at hmissing
          cases hmissing
          have hcrossed := searchStep_missing hstep
          omega

end

/-! ## Probes for an absent address -/

/-- The address lies between two lines that follow one another. -/
structure Between (lines : List ArmedLine) (address g : Nat) : Prop where
  below : ∃ line, lines[g]? = some line ∧ line.address < address
  above : ∃ line, lines[g + 1]? = some line ∧ address < line.address

/-- Bounds that are at lines, the left one not past the gap by more than a place. -/
structure Bounds.Beside (b : Bounds) (lines : List ArmedLine) (g : Nat) : Prop where
  lower : ∃ line, lines[b.left.toNat]? = some line ∧ line.address = b.leftAddr
  upper : ∃ line, lines[b.right.toNat]? = some line ∧ line.address = b.rightAddr
  left_nonneg : 0 ≤ b.left
  left_le : b.left ≤ g + 1
  right_nonneg : 0 ≤ b.right
  right_lt : b.right < 2 ^ 31

theorem Bounds.Beside.apart {lines : List ArmedLine} {address g : Nat} {b b' : Bounds}
    (hb : b.Beside lines g) (hprobe : Probe lines address b b') : b.left < b.right := by
  obtain ⟨hopen, hne, -⟩ := hprobe.reads
  refine lt_of_le_of_ne hopen fun heq => hne ?_
  obtain ⟨first, hfirst, hleftaddr⟩ := hb.lower
  obtain ⟨last, hlast, hrightaddr⟩ := hb.upper
  rw [heq, hlast] at hfirst
  cases hfirst
  exact hleftaddr.symm.trans hrightaddr

theorem leads_of_missing {lines : List ArmedLine} {address g n : Nat} {b : Bounds}
    (hb : b.Beside lines g) (hmissing : searchLines lines address n b = .missing)
    (hopen : b.left ≤ b.right) : b.Leads lines address := by
  obtain ⟨b', hprobe⟩ := exists_probe hmissing hopen
  refine ⟨hb.apart hprobe, fun _ => ?_, fun hcircle => ?_⟩
  · obtain ⟨-, -, line, hline⟩ := hprobe.reads
    obtain ⟨hpos, hget⟩ := readLine_mem hline
    have hlt := (List.getElem?_eq_some_iff.mp hget).1
    exact ⟨hpos, by omega⟩
  · rw [searchLines_circle hcircle] at hmissing
    cases hmissing

theorem finite_beside (lines : List ArmedLine) (g : Nat) :
    Finite {b : Bounds // b.Beside lines g} := by
  let places (b : {b : Bounds // b.Beside lines g}) : Fin (g + 2) × Fin lines.length :=
    (⟨b.1.left.toNat, by have := b.2.left_le; omega⟩,
      ⟨b.1.right.toNat, by
        obtain ⟨_, hline, _⟩ := b.2.upper
        exact (List.getElem?_eq_some_iff.mp hline).1⟩)
  refine Finite.of_injective places ?_
  rintro ⟨b, hb⟩ ⟨b', hb'⟩ heq
  obtain ⟨hleft, hright⟩ := Prod.mk.injEq .. ▸ heq
  have hl := congrArg Fin.val hleft
  have hr := congrArg Fin.val hright
  dsimp only at hl hr
  obtain ⟨first, hfirst, hleftaddr⟩ := hb.lower
  obtain ⟨last, hlast, hrightaddr⟩ := hb.upper
  obtain ⟨first', hfirst', hleftaddr'⟩ := hb'.lower
  obtain ⟨last', hlast', hrightaddr'⟩ := hb'.upper
  have hbounds := hb.left_nonneg
  have hbounds' := hb'.left_nonneg
  have hnonneg := hb.right_nonneg
  have hnonneg' := hb'.right_nonneg
  rw [hl, hfirst'] at hfirst
  rw [hr, hlast'] at hlast
  cases hfirst
  cases hlast
  obtain ⟨left, leftAddr, right, rightAddr⟩ := b
  obtain ⟨left', leftAddr', right', rightAddr'⟩ := b'
  dsimp only at *
  subst hleftaddr hrightaddr hleftaddr' hrightaddr'
  congr
  · omega
  · omega

section
variable {lines : List ArmedLine} (hinc : lines.Pairwise fun a b => a.address < b.address)
  {address g : Nat} (hgap : Between lines address g)
include hinc hgap

theorem Between.lt_iff {k : Nat} {line : ArmedLine} (hline : lines[k]? = some line) :
    line.address < address ↔ k ≤ g := by
  obtain ⟨below, hbelow, hlow⟩ := hgap.below
  obtain ⟨above, habove, hhigh⟩ := hgap.above
  constructor
  · intro hlt
    by_contra hbehind
    have hle := address_le hinc habove hline (by omega)
    omega
  · intro hle
    exact (address_le hinc hline hbelow hle).trans_lt hlow

theorem Between.lt_iff' {k : Nat} {line : ArmedLine} (hline : lines[k]? = some line) :
    address < line.address ↔ g < k := by
  obtain ⟨below, hbelow, hlow⟩ := hgap.below
  obtain ⟨above, habove, hhigh⟩ := hgap.above
  constructor
  · intro hlt
    by_contra hbefore
    have hle := address_le hinc hline hbelow (by omega)
    omega
  · intro hlt
    exact hhigh.trans_le (address_le hinc habove hline hlt)

/-- What a probe at a line does: the bound that the gap is not at moves next to it. -/
theorem searchStep_inside (hword : ∀ l ∈ lines, l.address < 2 ^ 64) {b : Bounds}
    (hb : b.Beside lines g) (hapart : b.left < b.right) {k : Nat} {line : ArmedLine}
    (hk : b.probe address = k) (hline : lines[k]? = some line) :
    (g < k ∧ ∃ bound, lines[k - 1]? = some bound ∧
        Probe lines address b { b with right := (k - 1 : Nat), rightAddr := bound.address }) ∨
      (k ≤ g ∧ ∃ bound, lines[k + 1]? = some bound ∧
        Probe lines address b { b with left := (k + 1 : Nat), leftAddr := bound.address }) := by
  obtain ⟨left, leftAddr, right, rightAddr⟩ := b
  obtain ⟨⟨first, hfirst, rfl⟩, ⟨last, hlast, rfl⟩, hleft, -, hright, -⟩ := hb
  dsimp only [Bounds.probe] at hfirst hlast hleft hright hapart hk ⊢
  have hbounds := (address_lt_iff hinc hfirst hlast).mpr (by omega)
  have hlastword := hword last (List.mem_of_getElem? hlast)
  have hdivisor : ¬ toUInt64 ((last.address : Int) - first.address) = 0 := by
    rw [toUInt64_of_lt (by omega) (by omega)]
    omega
  obtain ⟨next, hnext, -⟩ := hgap.above
  have hplace := (List.getElem?_eq_some_iff.mp hnext).1
  have hlen := (List.getElem?_eq_some_iff.mp hline).1
  unfold Probe searchStep
  dsimp only
  rw [if_neg (by omega), if_neg hdivisor, hk, readLine_natCast, hline]
  dsimp only
  rcases Nat.lt_or_ge g k with hbehind | hbefore
  · have hbound : lines[k - 1]? = some lines[k - 1] := List.getElem?_eq_getElem (by omega)
    refine .inl ⟨hbehind, _, hbound, ?_⟩
    rw [if_pos ((hgap.lt_iff' hinc hline).mpr hbehind),
      show (k : Int) - 1 = ((k - 1 : Nat) : Int) by omega, readLine_natCast, hbound]
  · have hlow := (hgap.lt_iff hinc hline).mpr hbefore
    have hbound : lines[k + 1]? = some lines[k + 1] := List.getElem?_eq_getElem (by omega)
    refine .inr ⟨hbefore, _, hbound, ?_⟩
    rw [if_neg hlow.asymm, if_pos hlow, ← Int.natCast_succ, readLine_natCast, hbound]

theorem searchStep_beside (hword : ∀ l ∈ lines, l.address < 2 ^ 64) {b : Bounds}
    (hb : b.Beside lines g) (hapart : b.left < b.right) {line : ArmedLine}
    (hline : readLine lines (b.probe address) = some line) :
    ∃ b', Probe lines address b b' ∧ b'.Beside lines g := by
  obtain ⟨hpos, hget⟩ := readLine_mem hline
  obtain ⟨k, hk⟩ := Int.eq_ofNat_of_zero_le hpos
  have hint := b.probe_lt address
  rw [hk, Int.toNat_natCast] at hget
  have hleft := hb.left_nonneg
  have hle := hb.left_le
  have hright := hb.right_nonneg
  obtain ⟨hbehind, bound, hbound, hprobe⟩ | ⟨hbefore, bound, hbound, hprobe⟩ :=
    searchStep_inside hinc hgap hword hb hapart hk hget
  · refine ⟨_, hprobe, ⟨hb.lower, ⟨bound, ?_, rfl⟩, hleft, hle, ?_, ?_⟩⟩
    · rwa [Int.toNat_natCast]
    all_goals dsimp only; omega
  · refine ⟨_, hprobe, ⟨⟨bound, ?_, rfl⟩, hb.upper, ?_, ?_, hright, hb.right_lt⟩⟩
    · rwa [Int.toNat_natCast]
    all_goals dsimp only; omega

theorem Probe.beside (hword : ∀ l ∈ lines, l.address < 2 ^ 64) {b b' : Bounds}
    (hb : b.Beside lines g) (hprobe : Probe lines address b b') : b'.Beside lines g := by
  obtain ⟨-, -, line, hline⟩ := hprobe.reads
  obtain ⟨c, hc, hbeside⟩ :=
    searchStep_beside hinc hgap hword hb (hb.apart hprobe) hline
  cases Sum.inr.inj (hprobe.symm.trans hc)
  exact hbeside

theorem reached_beside (hword : ∀ l ∈ lines, l.address < 2 ^ 64) {b b' : Bounds}
    (hb : b.Beside lines g) (hreach : ReflTransGen (Probe lines address) b b') :
    b'.Beside lines g := by
  induction hreach with
  | refl => exact hb
  | tail _ hprobe ih => exact hprobe.beside hinc hgap hword ih

omit hgap in
theorem probe_between (hword : ∀ l ∈ lines, l.address < 2 ^ 64) {b : Bounds}
    (hb : b.Beside lines g) (hapart : b.left < b.right) (hlow : b.leftAddr ≤ address)
    (hhigh : address < b.rightAddr) :
    ∃ k : Nat, b.probe address = k ∧ b.left ≤ k ∧ k < b.right ∧ ∃ line, lines[k]? = some line := by
  obtain ⟨left, leftAddr, right, rightAddr⟩ := b
  obtain ⟨⟨first, hfirst, rfl⟩, ⟨last, hlast, rfl⟩, hleft, -, hright, hfits⟩ := hb
  dsimp only [Bounds.probe] at *
  lift left to Nat using hleft
  lift right to Nat using hright
  rw [Int.toNat_natCast] at hfirst hlast
  have hbounds := (address_lt_iff hinc hfirst hlast).mpr (by omega)
  have hlastword := hword last (List.mem_of_getElem? hlast)
  have hratio : ratio (2 ^ 64) (address - first.address) (right - left)
      (last.address - first.address) < right - left := ratio_lt (by omega) (by omega)
  have hlen := (List.getElem?_eq_some_iff.mp hlast).1
  refine ⟨_, probeIndex_of_ratio (by omega) (by omega) hlow (by omega) hbounds.le hlastword
    (by omega), by omega, by omega, _, List.getElem?_eq_getElem (by omega)⟩

theorem searchLines_guided (hword : ∀ l ∈ lines, l.address < 2 ^ 64) {b : Bounds}
    (hb : b.Beside lines g)
    (hguided : ∀ b', ReflTransGen (Probe lines address) b b' → b'.left ≤ b'.right →
      b'.Leads lines address) : ∃ probes, searchLines lines address probes b = .missing := by
  have hbeside : ∀ b', ReflTransGen (Probe lines address) b b' → b'.Beside lines g :=
    fun b' hreach => reached_beside hinc hgap hword hb hreach
  have := finite_beside lines g
  have : Finite {b' // ReflTransGen (Probe lines address) b b'} :=
    Finite.of_injective (fun b' => (⟨b'.1, hbeside b'.1 b'.2⟩ : {b : Bounds // b.Beside lines g}))
      fun _ _ heq => Subtype.ext (congrArg (fun c => c.1) heq)
  refine acyclic_induction (R := Probe lines address)
    (P := fun c => ∃ probes, searchLines lines address probes c = .missing)
    ?_ ?_
  · intro c hreach hcircle
    obtain ⟨c', hprobe, -⟩ := TransGen.head'_iff.mp hcircle
    exact (hguided c hreach hprobe.reads.1).onward hcircle
  · intro c hreach ih
    by_cases hcrossed : c.right < c.left
    · exact ⟨1, by rw [searchLines, searchStep, if_pos hcrossed]⟩
    · have hleads := hguided c hreach (by omega)
      have hc := hbeside c hreach
      obtain ⟨line, hline⟩ : ∃ line, readLine lines (c.probe address) = some line := by
        by_cases houtside : address < c.leftAddr ∨ c.rightAddr < address
        · obtain ⟨hpos, hlt⟩ := hleads.inside houtside
          obtain ⟨k, hk⟩ := Int.eq_ofNat_of_zero_le hpos
          rw [hk, readLine_natCast]
          exact ⟨_, List.getElem?_eq_getElem (by omega)⟩
        · obtain ⟨last, hlast, hrightaddr⟩ := hc.upper
          have hhigh : address ≠ c.rightAddr := by
            have hlow := hgap.lt_iff hinc hlast
            have hhigh := hgap.lt_iff' hinc hlast
            omega
          obtain ⟨k, hk, -, -, line, hget⟩ :=
            probe_between hinc hword hc hleads.apart (show c.leftAddr ≤ address by omega) (by omega)
          exact ⟨line, by rw [hk, readLine_natCast, hget]⟩
      obtain ⟨c', hprobe, -⟩ := searchStep_beside hinc hgap hword hc hleads.apart hline
      obtain ⟨probes, hmissing⟩ := ih c' hprobe
      exact ⟨probes + 1, (searchLines_probe hprobe).trans hmissing⟩

/-- Bounds that meet, with no other place behind the gap, divide by 0. -/
theorem searchLines_meet (hword : ∀ l ∈ lines, l.address < 2 ^ 64) : ∀ {probes : Nat} {b : Bounds},
    b.Beside lines g → b.right = g + 1 → b.right - b.left < probes →
    searchLines lines address probes b = .divideByZero := by
  intro probes
  induction probes with
  | zero =>
      intro b hb hright hprobes
      have hleft := hb.left_le
      omega
  | succ probes ih =>
      intro b hb hright hprobes
      obtain ⟨first, hfirst, hleftaddr⟩ := hb.lower
      obtain ⟨last, hlast, hrightaddr⟩ := hb.upper
      have hleft := hb.left_nonneg
      have hleftg := hb.left_le
      by_cases hmet : b.left = b.right
      · rw [hmet, hlast] at hfirst
        cases hfirst
        have hdivides : searchStep lines address b = .inl .divideByZero := by
          rw [searchStep, if_neg (by omega), if_pos]
          rw [← hleftaddr, ← hrightaddr, Int.sub_self]
          rfl
        rw [searchLines, hdivides]
      · have hlow := (hgap.lt_iff hinc hfirst).mpr (by omega)
        have hhigh := (hgap.lt_iff' hinc hlast).mpr (by omega)
        obtain ⟨k, hk, hleftk, hkright, line, hline⟩ :=
          probe_between hinc hword hb (by omega) (show b.leftAddr ≤ address by omega) (by omega)
        obtain ⟨hbehind, _⟩ | ⟨hbefore, bound, hbound, hprobe⟩ :=
          searchStep_inside hinc hgap hword hb (by omega) hk hline
        · omega
        · rw [searchLines_probe hprobe]
          refine ih ⟨⟨bound, ?_, rfl⟩, hb.upper, ?_, ?_, hb.right_nonneg, hb.right_lt⟩ hright ?_
          · rwa [Int.toNat_natCast]
          all_goals dsimp only; omega

end

/-! ## A unit -/

theorem exists_between {lines : List ArmedLine} {address : Nat}
    (habsent : ∀ line ∈ lines, line.address ≠ address)
    (hfirst : ∃ line, lines[0]? = some line ∧ line.address ≤ address)
    (hlast : ∃ line ∈ lines, address ≤ line.address) : ∃ g, Between lines address g := by
  obtain ⟨first, hfirst, hlow⟩ := hfirst
  obtain ⟨last, hmem, hhigh⟩ := hlast
  obtain ⟨j, hj, hget⟩ := List.getElem_of_mem hmem
  have hbeyond : ∃ i, ∃ line : ArmedLine, lines[i]? = some line ∧ address < line.address :=
    ⟨j, last, hget ▸ List.getElem?_eq_getElem hj, lt_of_le_of_ne hhigh (habsent last hmem).symm⟩
  have hzero : ¬ ∃ line : ArmedLine, lines[0]? = some line ∧ address < line.address := by
    rintro ⟨line, hline, hlt⟩
    rw [hfirst] at hline
    cases hline
    omega
  obtain ⟨g, hnot, above, habove, hlt⟩ :=
    Nat.exists_not_and_succ_of_not_zero_of_exists hzero hbeyond
  have hplace := (List.getElem?_eq_some_iff.mp habove).1
  have hbelow : lines[g]? = some lines[g] := List.getElem?_eq_getElem (by omega)
  refine ⟨g, ⟨_, hbelow, ?_⟩, ⟨above, habove, hlt⟩⟩
  have hne := habsent _ (List.mem_of_getElem? hbelow)
  by_contra hge
  exact hnot ⟨_, hbelow, by omega⟩

section
variable {u : CachedUnit} (h : u.Increasing)
include h

theorem CachedUnit.Increasing.between (hends : u.EndsAtLines) {address : Nat}
    (hrange : u.start ≤ address ∧ address ≤ u.stop)
    (habsent : ∀ line ∈ u.lines, line.address ≠ address) : ∃ g, Between u.lines address g := by
  have hlen := h.filled
  have hone := h.nonempty
  obtain ⟨first, hmem, hstart⟩ := hends.start
  obtain ⟨last, hlast, hstop⟩ := hends.stop
  obtain ⟨i, hi, hget⟩ := List.getElem_of_mem hmem
  have hfirst : u.lines[0]? = some u.lines[0] := List.getElem?_eq_getElem (by omega)
  have hle : u.lines[0].address ≤ first.address :=
    address_le h.increasing hfirst (hget ▸ List.getElem?_eq_getElem hi) (Nat.zero_le i)
  exact exists_between habsent ⟨_, hfirst, by omega⟩ ⟨last, hlast, by omega⟩

omit h in
theorem CachedUnit.bounds_beside {b : Bounds} (hb : u.bounds = some b) (g : Nat) :
    b.Beside u.lines g := by
  unfold CachedUnit.bounds at hb
  dsimp only at hb
  have hint := toInt_lt (toUInt64 ((u.lineCount : Int) - 1))
  generalize toInt (toUInt64 ((u.lineCount : Int) - 1)) = right at hb hint
  split at hb
  next first last hfirst hlast =>
    cases hb
    obtain ⟨-, hget⟩ := readLine_mem hfirst
    obtain ⟨hpos, hget'⟩ := readLine_mem hlast
    exact ⟨⟨_, hget, rfl⟩, ⟨_, hget', rfl⟩, Int.le_refl 0, by dsimp only; omega, hpos, hint⟩
  · cases hb

theorem CachedUnit.Increasing.bounds_eq (hfits : u.lineCount ≤ 2 ^ 31) :
    ∃ b, u.bounds = some b ∧ b.left = 0 ∧ b.right = (u.lineCount - 1 : Nat) := by
  obtain ⟨first, last, right, hright, hreadfirst, hreadlast, rfl, -, -⟩ := h.ends hfits
  exact ⟨⟨0, first.address, (u.lineCount - 1 : Nat), last.address⟩,
    by rw [CachedUnit.bounds, hright, hreadfirst, hreadlast], rfl, rfl⟩

/-- **An address of no line is not found**, and the search is safe and ends, exactly if every
probe for it leads on. -/
theorem CachedUnit.Increasing.rejects_iff (hends : u.EndsAtLines) {address : Nat}
    (hrange : u.start ≤ address ∧ address ≤ u.stop)
    (habsent : ∀ line ∈ u.lines, line.address ≠ address) :
    (∃ probes, searchUnit probes u address = .missing) ↔ u.Guided address := by
  obtain ⟨g, hgap⟩ := h.between hends hrange habsent
  constructor
  · rintro ⟨probes, hmissing⟩
    cases hbounds : u.bounds with
    | none =>
        rw [searchUnit_eq, hbounds] at hmissing
        cases hmissing
    | some b₀ =>
        have hb₀ := CachedUnit.bounds_beside hbounds g
        rw [searchUnit_of_bounds hbounds] at hmissing
        refine ⟨b₀, hbounds, fun b hreach hopen => ?_⟩
        obtain ⟨m, hm⟩ := searchLines_reach hreach (by rw [hmissing]; decide)
        exact leads_of_missing (reached_beside h.increasing hgap h.word hb₀ hreach)
          (hm.trans hmissing) hopen
  · rintro ⟨b₀, hbounds, hguided⟩
    obtain ⟨probes, hmissing⟩ := searchLines_guided h.increasing hgap h.word
      (CachedUnit.bounds_beside hbounds g) hguided
    exact ⟨probes, (searchUnit_of_bounds hbounds).trans hmissing⟩

/-- Between the last two lines, every search ends in a division by 0. -/
theorem CachedUnit.Increasing.last_gap (htwo : 2 ≤ u.lineCount) (hfits : u.lineCount ≤ 2 ^ 31)
    {address : Nat} (hgap : Between u.lines address (u.lineCount - 2)) :
    searchUnit u.lineCount u address = .divideByZero := by
  obtain ⟨b, hbounds, hleft, hright⟩ := h.bounds_eq hfits
  rw [searchUnit_of_bounds hbounds]
  exact searchLines_meet h.increasing hgap h.word (CachedUnit.bounds_beside hbounds _) (by omega)
    (by omega)

end

/-- The address is rejected wherever the search for the unit comes to this one. -/
def Rejects (cache : List CachedUnit) (unitCount i address : Nat) : Prop :=
  ∀ unit unit' : Nat, lookupUnit cache unitCount address unit = some (some i, unit') →
    ∃ probes, lookupCache probes cache unitCount address unit = .missing

theorem searchLines_ended {lines : List ArmedLine} {address : Nat} : ∀ {probes : Nat} {b : Bounds},
    searchLines lines address probes b ≠ .running → ∀ more,
      searchLines lines address (probes + more) b = searchLines lines address probes b := by
  intro probes
  induction probes with
  | zero =>
      intro b hended
      exact absurd rfl hended
  | succ probes ih =>
      intro b hended more
      rw [searchLines] at hended
      rw [Nat.add_right_comm, searchLines, searchLines]
      cases hstep : searchStep lines address b with
      | inl result => rfl
      | inr b' =>
          rw [hstep] at hended
          exact ih hended more

theorem searchLines_unique {lines : List ArmedLine} {address n m : Nat} {b : Bounds}
    (hn : searchLines lines address n b ≠ .running)
    (hm : searchLines lines address m b ≠ .running) :
    searchLines lines address n b = searchLines lines address m b := by
  rw [← searchLines_ended hn m, Nat.add_comm, searchLines_ended hm]

theorem searchUnit_unique {u : CachedUnit} {address n m : Nat} {r r' : Lookup}
    (hn : searchUnit n u address = r) (hr : r ≠ .running)
    (hm : searchUnit m u address = r') (hr' : r' ≠ .running) : r = r' := by
  subst hn
  subst hm
  rw [searchUnit_eq] at hr hr' ⊢
  rw [searchUnit_eq]
  cases hb : u.bounds with
  | none => rfl
  | some b =>
      rw [hb] at hr hr'
      exact searchLines_unique hr hr'

theorem searchLines_stuck {lines : List ArmedLine} {address : Nat} {b : Bounds}
    (h : Probe lines address b b) : ∀ probes, searchLines lines address probes b = .running
  | 0 => rfl
  | probes + 1 => by
      rw [searchLines, show searchStep lines address b = .inr b from h]
      exact searchLines_stuck h probes

/-- Past the right bound by a mean gap, but not by two, the search comes back at once. -/
theorem probe_one_past {lines : List ArmedLine}
    (hinc : lines.Pairwise fun a b => a.address < b.address) {address g : Nat}
    (hgap : Between lines address g) (hword : ∀ l ∈ lines, l.address < 2 ^ 64)
    {left leftAddr rightAddr : Nat} (hb : (⟨left, leftAddr, g, rightAddr⟩ : Bounds).Beside lines g)
    (hplace : g + 1 < 2 ^ 31) (hapart : left < g)
    (hpast : ratio (2 ^ 64) (address - leftAddr) (g - left) (rightAddr - leftAddr) =
      g - left + 1) :
    Probe lines address ⟨left, leftAddr, g, rightAddr⟩ ⟨left, leftAddr, g, rightAddr⟩ := by
  obtain ⟨next, hnext, hhigh⟩ := hgap.above
  have hnextword := hword next (List.mem_of_getElem? hnext)
  have hprobe : (⟨left, leftAddr, g, rightAddr⟩ : Bounds).probe address = (g + 1 : Nat) := by
    obtain ⟨⟨first, hfirst, rfl⟩, ⟨last, hlast, rfl⟩, -, -, -, -⟩ := hb
    dsimp only [Bounds.probe] at *
    rw [Int.toNat_natCast] at hfirst hlast
    have hbounds := (address_lt_iff hinc hfirst hlast).mpr hapart
    have hlow := (hgap.lt_iff hinc hlast).mpr le_rfl
    rw [probeIndex_of_ratio hapart.le (by omega) (by omega) (by omega) hbounds.le
      (hword last (List.mem_of_getElem? hlast)) (by omega), hpast]
    congr 1
    omega
  obtain ⟨-, bound, hbound, hmove⟩ | ⟨hbefore, -⟩ :=
    searchStep_inside hinc hgap hword hb (by dsimp only; omega) hprobe hnext
  · obtain ⟨last, hlast, rfl⟩ := hb.upper
    dsimp only at hlast
    rw [Nat.add_sub_cancel] at hbound hmove
    rw [Int.toNat_natCast, hbound] at hlast
    cases hlast
    exact hmove
  · omega

/-! ### Examples -/

/-- The lines with some addresses. -/
def linesAt (addresses : List Nat) : List ArmedLine :=
  addresses.map fun address => ⟨⟨address, 1, 0⟩, 0x90⟩

/-- A unit with its lines in two places. -/
def twoPlaces : CachedUnit where
  start := 0
  stop := 470
  lineCount := 16
  lines := linesAt [0, 3, 4, 6, 9, 10, 60, 61, 64, 65, 265, 465, 466, 467, 468, 470]

theorem twoPlaces_increasing : twoPlaces.Increasing :=
  ⟨rfl, by decide, by decide, by decide, by decide⟩

/-- The right bound is passed by several mean gaps, and the probe is in the unit all the same. -/
theorem twoPlaces_rejects : Rejects [twoPlaces] 1 0 346 := by
  intro unit unit' hunit
  refine ⟨6, ?_⟩
  rw [lookupCache, hunit]
  show searchUnit 6 twoPlaces 346 = .missing
  decide +kernel

end FlightRec
