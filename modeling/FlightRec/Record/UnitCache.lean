/-
# `FlightRec.Record.UnitCache` — finding the unit of an address

`lookup_cache` (record/run.c) keeps the unit of its last call in a static variable and
searches the units only if the address is not in that one.  The array it searches has
one entry for each unit that `proc_unit` has counted, and `set_breakpoints` fills it
from a query that has a row for each unit with a statement.  The entries behind those
are never filled, and the search reads them (`lookup_cache_right_iff`).
-/
import FlightRec.Lib.Intervals
import FlightRec.Record.Breakpoints

namespace FlightRec

open Query Intervals

/-! ## Counting and looking up -/

/-- The rows of `unit` and `unit_count`. -/
structure Units where
  units : List Nat
  unitCount : Nat
  deriving DecidableEq, Repr

/-- `proc_unit`: a unit is left out if its path or name is not to be processed.  One that
is counted and then fails ends the program. -/
def procUnit (st : Units) (accepted : Bool) : Units :=
  if accepted then
    { units := st.units ++ [st.units.length + 1], unitCount := st.unitCount + 1 }
  else st

/-- The units of a program. -/
def procUnits (accepted : List Bool) : Units :=
  accepted.foldl procUnit { units := [], unitCount := 0 }

/-- The search in `lookup_cache`; the array is filled as far as `cache` goes, and `none`
is the read of an entry behind that. -/
def searchUnits (cache : List CachedUnit) (address left right : Nat) : Option (Option Nat) :=
  if _h : left < right then
    match cache[(left + right) / 2]? with
    | none => none
    | some u =>
        if address < u.start then searchUnits cache address left ((left + right) / 2)
        else if u.stop < address then searchUnits cache address ((left + right) / 2 + 1) right
        else some (some ((left + right) / 2))
  else some none
termination_by right - left

/-- `lookup_cache` as far as the unit goes: the unit that is found, and the static
variable after the call. -/
def lookupUnit (cache : List CachedUnit) (unitCount address unit : Nat) :
    Option (Option Nat × Nat) :=
  match cache[unit]? with
  | none => none
  | some u =>
      if address < u.start ∨ u.stop < address then
        (searchUnits cache address 0 unitCount).map fun found => (found, found.getD unit)
      else some (some unit, unit)

/-- The static variable after some calls. -/
def unitAfter (cache : List CachedUnit) (unitCount : Nat) (history : List Nat) : Option Nat :=
  history.foldlM (fun unit address => (lookupUnit cache unitCount address unit).map Prod.snd) 0

/-! ## What a lookup is for -/

/-- The address is between two statements of the unit. -/
def InUnit (rows : List (Nat × StatementRow)) (unit address : Nat) : Prop :=
  ∃ r ∈ rows, ∃ r' ∈ rows, r.1 = unit ∧ r'.1 = unit ∧
    r.2.address ≤ address ∧ address ≤ r'.2.address

/-- No address belongs to two units. -/
def DisjointUnits (rows : List (Nat × StatementRow)) : Prop :=
  ∀ unit unit' address, InUnit rows unit address → InUnit rows unit' address → unit = unit'

/-- The entry is that of the unit of the address, or there is none. -/
def Selects (rows : List (Nat × StatementRow)) (address : Nat) : Option Nat → Prop
  | none => ∀ unit, ¬ InUnit rows unit address
  | some i => ∃ unit, (unitIds rows)[i]? = some unit ∧ InUnit rows unit address

/-- Whatever was looked up before, a lookup reads no entry that is not filled, and its
result goes by the address alone. -/
def LookupRight (rows : List (Nat × StatementRow)) (cache : List CachedUnit) (unitCount : Nat) :
    Prop :=
  ∃ result : Nat → Option Nat, ∀ history address,
    (∃ unit unit', unitAfter cache unitCount history = some unit ∧
      lookupUnit cache unitCount address unit = some (result address, unit')) ∧
    Selects rows address (result address)

/-! ## The entries -/

theorem procUnits_eq (accepted : List Bool) :
    procUnits accepted =
      { units := List.range' 1 (accepted.count true), unitCount := accepted.count true } := by
  induction accepted using List.reverseRecOn with
  | nil => rfl
  | append_singleton accepted a ih =>
      rw [procUnits, List.foldl_append] at *
      rw [ih]
      cases a with
      | false => simp [procUnit]
      | true => simp [procUnit, List.range'_concat, Nat.add_comm]

section
variable {rows : List (Nat × StatementRow)}

/-- The range of a unit, as the query groups it. -/
def unitRange (rows : List (Nat × StatementRow)) (unit : Nat) : Nat × Nat :=
  (((unitLines rows unit).map (·.address)).min?.getD 0,
    ((unitLines rows unit).map (·.address)).max?.getD 0)

theorem mem_unitAddresses {unit a : Nat} : a ∈ (unitLines rows unit).map (·.address) ↔
    ∃ r ∈ rows, r.1 = unit ∧ r.2.address = a := by
  simp only [unitLines, List.map_map, List.mem_map, mem_orderBy, List.mem_filter,
    decide_eq_true_eq, Function.comp_apply]
  constructor
  · rintro ⟨r, ⟨hr, hunit⟩, ha⟩
    exact ⟨r, hr, hunit, ha⟩
  · rintro ⟨r, hr, hunit, ha⟩
    exact ⟨r, ⟨hr, hunit⟩, ha⟩

theorem unitRange_mem {unit : Nat} (h : unit ∈ unitIds rows) :
    (unitRange rows unit).1 ∈ (unitLines rows unit).map (·.address) ∧
      (unitRange rows unit).2 ∈ (unitLines rows unit).map (·.address) := by
  obtain ⟨r, hr, hunit⟩ := mem_unitIds.mp h
  have hmem := mem_unitAddresses.mpr ⟨r, hr, hunit, rfl⟩
  unfold unitRange
  cases hmin : ((unitLines rows unit).map (·.address)).min? with
  | none =>
      rw [List.min?_eq_none_iff.mp hmin] at hmem
      exact absurd hmem List.not_mem_nil
  | some a =>
      cases hmax : ((unitLines rows unit).map (·.address)).max? with
      | none =>
          rw [List.max?_eq_none_iff.mp hmax] at hmem
          exact absurd hmem List.not_mem_nil
      | some b => exact ⟨List.min?_mem hmin, List.max?_mem hmax⟩

theorem InUnit.mem_unitIds {unit address : Nat} (h : InUnit rows unit address) :
    unit ∈ unitIds rows := by
  obtain ⟨r, hr, _, _, hunit, _⟩ := h
  exact FlightRec.mem_unitIds.mpr ⟨r, hr, hunit⟩

theorem unitRange_bounds {unit a : Nat} (ha : a ∈ (unitLines rows unit).map (·.address)) :
    (unitRange rows unit).1 ≤ a ∧ a ≤ (unitRange rows unit).2 := by
  unfold unitRange
  cases hmin : ((unitLines rows unit).map (·.address)).min? with
  | none =>
      rw [List.min?_eq_none_iff.mp hmin] at ha
      exact absurd ha List.not_mem_nil
  | some b =>
      cases hmax : ((unitLines rows unit).map (·.address)).max? with
      | none =>
          rw [List.max?_eq_none_iff.mp hmax] at ha
          exact absurd ha List.not_mem_nil
      | some c =>
          exact ⟨(List.min?_eq_some_iff.mp hmin).2 a ha, (List.max?_eq_some_iff.mp hmax).2 a ha⟩

theorem inUnit_iff {unit address : Nat} (h : unit ∈ unitIds rows) :
    InUnit rows unit address ↔
      (unitRange rows unit).1 ≤ address ∧ address ≤ (unitRange rows unit).2 := by
  constructor
  · rintro ⟨r, hr, r', hr', hunit, hunit', hle, hge⟩
    have hfirst := (unitRange_bounds (mem_unitAddresses.mpr ⟨r, hr, hunit, rfl⟩)).1
    have hlast := (unitRange_bounds (mem_unitAddresses.mpr ⟨r', hr', hunit', rfl⟩)).2
    exact ⟨Nat.le_trans hfirst hle, Nat.le_trans hge hlast⟩
  · rintro ⟨hle, hge⟩
    obtain ⟨hfirst, hlast⟩ := unitRange_mem h
    obtain ⟨r, hr, hunit, ha⟩ := mem_unitAddresses.mp hfirst
    obtain ⟨r', hr', hunit', ha'⟩ := mem_unitAddresses.mp hlast
    exact ⟨r, hr, r', hr', hunit, hunit', ha ▸ hle, ha' ▸ hge⟩

theorem setUnits_ranges {load : Nat} : ∀ {units : List Nat} {st st' : Patching}
    {cache : List CachedUnit}, setUnits load rows units st = some (st', cache) →
    cache.map (fun u => (u.start, u.stop)) = units.map (unitRange rows)
  | [], _, _, _, h => by
      cases h
      rfl
  | unit :: units, st, st', cache, h => by
      simp only [setUnits, Option.bind_eq_bind, Option.bind_eq_some_iff] at h
      obtain ⟨⟨st₁, armed⟩, _, ⟨st₂, rest⟩, hrest, heq⟩ := h
      cases heq
      rw [List.map_cons, List.map_cons, setUnits_ranges hrest]
      rfl

/-- The ranges come in the order that a binary search needs. -/
theorem cache_separated {cache : List CachedUnit} (hdisjoint : DisjointUnits rows)
    (hcache : cache.map (fun u => (u.start, u.stop)) = (unitIds rows).map (unitRange rows)) :
    Separated CachedUnit.start (fun u => u.stop + 1) cache := by
  have hrange : ∀ unit ∈ unitIds rows, (unitRange rows unit).1 ≤ (unitRange rows unit).2 := by
    intro unit hunit
    exact (unitRange_bounds (unitRange_mem hunit).1).2
  have hpairs : ((unitIds rows).map (unitRange rows)).Pairwise fun p q => p.2 + 1 ≤ q.1 := by
    rw [List.pairwise_map]
    refine ((orderBy_pairwise _ _).and (unitIds_nodup rows)).imp_of_mem fun {a b} ha hb hab => ?_
    obtain ⟨hsorted, hne⟩ := hab
    by_contra hover
    have hle : (unitRange rows b).1 ≤ (unitRange rows a).2 := by omega
    have hsorted : (unitRange rows a).1 ≤ (unitRange rows b).1 := hsorted
    have hrb := hrange b hb
    exact hne (hdisjoint a b (unitRange rows b).1 ((inUnit_iff ha).mpr ⟨hsorted, hle⟩)
      ((inUnit_iff hb).mpr ⟨Nat.le_refl _, hrb⟩))
  constructor
  · intro u hu
    have hmem : (u.start, u.stop) ∈ (unitIds rows).map (unitRange rows) := by
      rw [← hcache]
      exact List.mem_map.mpr ⟨u, hu, rfl⟩
    obtain ⟨unit, hunit, heq⟩ := List.mem_map.mp hmem
    have hle := hrange unit hunit
    rw [heq] at hle
    exact Nat.lt_succ_of_le hle
  · rw [← hcache, List.pairwise_map] at hpairs
    exact hpairs

/-! ## The search -/

section
variable {cache : List CachedUnit} {address unitCount unit : Nat}

theorem searchUnits_eq (left right : Nat) (hright : right ≤ cache.length) :
    searchUnits cache address left right =
      some (search CachedUnit.start (fun u => u.stop + 1) cache address left right) := by
  fun_induction searchUnits cache address left right with
  | case1 left right hlt hnone =>
      have hlen := List.getElem?_eq_none_iff.mp hnone
      omega
  | case2 left right hlt u hu hx ih =>
      rw [search, dif_pos hlt, hu]
      dsimp only
      rw [if_pos hx]
      exact ih (by omega)
  | case3 left right hlt u hu hx hux ih =>
      rw [search, dif_pos hlt, hu]
      dsimp only
      rw [if_neg hx, if_pos (Nat.succ_le_of_lt hux)]
      exact ih hright
  | case4 left right hlt u hu hx hux =>
      rw [search, dif_pos hlt, hu]
      dsimp only
      rw [if_neg hx, if_neg (by omega)]
  | case5 left right hge => rw [search, dif_neg hge]

/-- An address behind all units makes it read an entry that is not filled. -/
theorem searchUnits_unfilled (hbehind : ∀ u ∈ cache, u.start ≤ u.stop ∧ u.stop < address)
    (left right : Nat) (hleft : left < right) (hright : cache.length < right) :
    searchUnits cache address left right = none := by
  fun_induction searchUnits cache address left right with
  | case1 left right hlt hnone => rfl
  | case2 left right hlt u hu hx ih =>
      obtain ⟨hle, hstop⟩ := hbehind u (List.mem_of_getElem? hu)
      omega
  | case3 left right hlt u hu hx hux ih =>
      obtain ⟨hlen, _⟩ := List.getElem?_eq_some_iff.mp hu
      exact ih (by omega) hright
  | case4 left right hlt u hu hx hux =>
      obtain ⟨_, hstop⟩ := hbehind u (List.mem_of_getElem? hu)
      exact absurd hstop hux
  | case5 left right hge => exact absurd hleft hge

/-- With all entries filled, a lookup finds the entry of the address from any unit. -/
theorem lookupUnit_eq (address : Nat) (sep : Separated CachedUnit.start (fun u => u.stop + 1) cache)
    (hunit : unit < cache.length) :
    ∃ unit' < cache.length, lookupUnit cache cache.length address unit =
      some (search CachedUnit.start (fun u => u.stop + 1) cache address 0 cache.length, unit') := by
  unfold lookupUnit
  rw [List.getElem?_eq_getElem hunit]
  dsimp only
  split
  · rw [searchUnits_eq 0 _ (Nat.le_refl _)]
    refine ⟨_, ?_, rfl⟩
    cases hsearch : search CachedUnit.start (fun u => u.stop + 1) cache address 0 cache.length with
    | none => exact hunit
    | some i => exact (search_sound 0 cache.length hsearch).1
  next hin =>
    have hfound := (search_eq_some_iff (x := address) sep).mpr ⟨hunit, by omega, by omega⟩
    exact ⟨unit, hunit, by rw [hfound]⟩

theorem unitAfter_eq (sep : Separated CachedUnit.start (fun u => u.stop + 1) cache)
    (hcache : cache ≠ []) (history : List Nat) :
    ∃ unit < cache.length, unitAfter cache cache.length history = some unit := by
  unfold unitAfter
  induction history using List.reverseRecOn with
  | nil => exact ⟨0, List.length_pos_of_ne_nil hcache, rfl⟩
  | append_singleton history address ih =>
      obtain ⟨unit, hunit, hafter⟩ := ih
      obtain ⟨unit', hunit', hlookup⟩ := lookupUnit_eq address sep hunit
      refine ⟨unit', hunit', ?_⟩
      rw [List.foldlM_append, hafter]
      simp [hlookup]

theorem lookupRight_filled (sep : Separated CachedUnit.start (fun u => u.stop + 1) cache)
    (hlen : cache.length ≤ unitCount) (h : LookupRight rows cache unitCount) :
    cache.length = unitCount ∧ cache ≠ [] := by
  obtain ⟨result, hresult⟩ := h
  obtain ⟨⟨unit, unit', hafter, hlookup⟩, _⟩ := hresult [] ((cache.map (·.stop)).foldl max 0 + 1)
  have hzero : unit = 0 := (Option.some.inj hafter).symm
  rw [hzero, lookupUnit] at hlookup
  cases hfirst : cache[0]? with
  | none =>
      rw [hfirst] at hlookup
      cases hlookup
  | some u =>
      have hbehind : ∀ v ∈ cache,
          v.start ≤ v.stop ∧ v.stop < (cache.map (·.stop)).foldl max 0 + 1 := by
        intro v hv
        have hnonempty := sep.nonempty v hv
        exact ⟨Nat.le_of_lt_succ hnonempty,
          Nat.lt_succ_of_le (le_foldl_max (.inr (List.mem_map_of_mem hv)))⟩
      have hu := List.mem_of_getElem? hfirst
      have hpos := List.length_pos_of_mem hu
      refine ⟨?_, List.ne_nil_of_mem hu⟩
      by_contra hne
      rw [hfirst] at hlookup
      dsimp only at hlookup
      rw [if_pos (.inr (hbehind u hu).2), searchUnits_unfilled hbehind 0 unitCount (by omega)
        (by omega)] at hlookup
      cases hlookup

end

theorem selects_search {cache : List CachedUnit} {address : Nat}
    (sep : Separated CachedUnit.start (fun u => u.stop + 1) cache)
    (hcache : cache.map (fun u => (u.start, u.stop)) = (unitIds rows).map (unitRange rows)) :
    Selects rows address
      (search CachedUnit.start (fun u => u.stop + 1) cache address 0 cache.length) := by
  have hindex (i : Nat) : cache[i]?.map (fun u => (u.start, u.stop)) =
      (unitIds rows)[i]?.map (unitRange rows) := by
    rw [← List.getElem?_map, hcache, List.getElem?_map]
  cases hsearch : search CachedUnit.start (fun u => u.stop + 1) cache address 0 cache.length with
  | none =>
      intro unit hin
      obtain ⟨i, hi⟩ := List.mem_iff_getElem?.mp hin.mem_unitIds
      obtain ⟨hle, hge⟩ := (inUnit_iff hin.mem_unitIds).mp hin
      have hentry := hindex i
      rw [hi, Option.map_some, Option.map_eq_some_iff] at hentry
      obtain ⟨u, hu, hrange⟩ := hentry
      obtain ⟨hlen, rfl⟩ := List.getElem?_eq_some_iff.mp hu
      rw [← hrange] at hle hge
      have hfound := (search_eq_some_iff (x := address) sep).mpr ⟨hlen, hle, Nat.lt_succ_of_le hge⟩
      rw [hsearch] at hfound
      cases hfound
  | some i =>
      obtain ⟨hlen, hle, hlt⟩ := search_sound 0 cache.length hsearch
      have hentry := hindex i
      rw [List.getElem?_eq_getElem hlen, Option.map_some, eq_comm, Option.map_eq_some_iff] at hentry
      obtain ⟨unit, hunit, hrange⟩ := hentry
      refine ⟨unit, hunit, (inUnit_iff (List.mem_of_getElem? hunit)).mpr ?_⟩
      rw [hrange]
      exact ⟨hle, Nat.le_of_lt_succ hlt⟩

end

/-- Lookups are right exactly if there is a unit and each has a statement. -/
theorem lookup_cache_right_iff (accepted : List Bool) (files : List UnitFile)
    (statements : List StatementRow) (load : Nat) (text : Text) (st : Patching)
    (cache : List CachedUnit) (hfiles : ∀ f ∈ files, f.unitId ∈ (procUnits accepted).units)
    (hset : setBreakpoints files statements load text = some (st, cache))
    (hdisjoint : DisjointUnits (unitStatements files statements)) :
    LookupRight (unitStatements files statements) cache (procUnits accepted).unitCount ↔
      (procUnits accepted).units ≠ [] ∧ ∀ unit ∈ (procUnits accepted).units,
        ∃ r ∈ unitStatements files statements, r.1 = unit := by
  have hcache := setUnits_ranges hset
  have sep := cache_separated hdisjoint hcache
  have hlen : cache.length = (unitIds (unitStatements files statements)).length := by
    have hlengths := congrArg List.length hcache
    rwa [List.length_map, List.length_map] at hlengths
  have hunits : (procUnits accepted).units.Nodup ∧
      (procUnits accepted).units.length = (procUnits accepted).unitCount := by
    rw [procUnits_eq]
    exact ⟨List.nodup_range', List.length_range'⟩
  have hsub : unitIds (unitStatements files statements) ⊆ (procUnits accepted).units := by
    intro unit hunit
    obtain ⟨r, hr, rfl⟩ := mem_unitIds.mp hunit
    obtain ⟨f, hf, hr⟩ := List.mem_flatMap.mp hr
    obtain ⟨st, _, rfl⟩ := List.mem_map.mp hr
    exact hfiles f hf
  have hperm := (unitIds_nodup _).subperm hsub
  constructor
  · intro h
    obtain ⟨hcount, hne⟩ := lookupRight_filled sep
      (by rw [hlen, ← hunits.2]; exact hperm.length_le) h
    have hsame := hperm.perm_of_length_le (by rw [hunits.2, ← hcount, hlen])
    refine ⟨fun hnil => hne ?_, fun unit hunit => mem_unitIds.mp (hsame.mem_iff.mpr hunit)⟩
    rw [← List.length_eq_zero_iff, hcount, ← hunits.2, hnil]
    rfl
  · rintro ⟨hne, hall⟩
    have hback := hunits.1.subperm fun unit hunit => mem_unitIds.mpr (hall unit hunit)
    have hcount : cache.length = (procUnits accepted).unitCount := by
      rw [hlen, ← hunits.2]
      exact Nat.le_antisymm hperm.length_le hback.length_le
    have hfilled : cache ≠ [] := by
      intro hnil
      rw [hnil, ← hunits.2] at hcount
      exact hne (List.length_eq_zero_iff.mp hcount.symm)
    rw [← hcount]
    refine ⟨_, fun history address => ⟨?_, selects_search sep hcache⟩⟩
    obtain ⟨unit, hunit, hafter⟩ := unitAfter_eq sep hfilled history
    obtain ⟨unit', _, hlookup⟩ := lookupUnit_eq address sep hunit
    exact ⟨unit, unit', hafter, hlookup⟩

/-! ### Examples -/

/-- Files of two units, with a statement each. -/
def twoFiles : List UnitFile := [⟨1, 1⟩, ⟨2, 2⟩]

def twoStatements : List StatementRow :=
  [⟨1, 5, 0x1000, some 1, some 1, some 1⟩, ⟨2, 5, 0x1010, some 2, some 2, some 1⟩]

theorem setBreakpoints_two : ∃ armed, setBreakpoints twoFiles twoStatements 0 nopText = some armed ∧
    armed.2.length = 2 := by
  have hset : (setBreakpoints twoFiles twoStatements 0 nopText).map (·.2.length) = some 2 := by
    decide
  obtain ⟨armed, harmed, hlen⟩ := Option.map_eq_some_iff.mp hset
  exact ⟨armed, harmed, hlen⟩

theorem rows_two : unitStatements twoFiles twoStatements =
    twoStatements.map fun st => (st.fileId, st) := by decide

theorem disjointUnits_two : DisjointUnits (unitStatements twoFiles twoStatements) := by
  rw [rows_two]
  rintro unit unit' address ⟨r, hr, s, hs, hunit, hunit', hle, hge⟩
    ⟨r', hr', s', hs', hv, hv', hle', hge'⟩
  simp only [twoStatements, List.map_cons, List.map_nil, List.mem_cons, List.not_mem_nil,
    or_false] at hr hs hr' hs'
  rcases hr with rfl | rfl <;> rcases hs with rfl | rfl <;> rcases hr' with rfl | rfl <;>
    rcases hs' with rfl | rfl <;> simp only at * <;> omega

theorem lookup_cache_right_iff_two : ∃ armed,
    setBreakpoints twoFiles twoStatements 0 nopText = some armed ∧
      LookupRight (unitStatements twoFiles twoStatements) armed.2 2 := by
  obtain ⟨armed, hset, _⟩ := setBreakpoints_two
  have hfiles : ∀ f ∈ twoFiles, f.unitId ∈ (procUnits [true, false, true]).units := by decide
  have hall : (procUnits [true, false, true]).units ≠ [] ∧
      ∀ unit ∈ (procUnits [true, false, true]).units,
        ∃ r ∈ unitStatements twoFiles twoStatements, r.1 = unit := by decide
  exact ⟨armed, hset, (lookup_cache_right_iff [true, false, true] _ _ _ _ _ _ hfiles hset
    disjointUnits_two).mpr hall⟩

/-- With two units more that have no statements, there are addresses that are looked for
in entries that are not filled. -/
theorem unfilled_entry_read :
    ¬ ∀ (accepted : List Bool) (files : List UnitFile) (statements : List StatementRow)
      (load : Nat) (text : Text) (st : Patching) (cache : List CachedUnit),
      (∀ f ∈ files, f.unitId ∈ (procUnits accepted).units) →
        setBreakpoints files statements load text = some (st, cache) →
        DisjointUnits (unitStatements files statements) →
        LookupRight (unitStatements files statements) cache (procUnits accepted).unitCount := by
  intro h
  obtain ⟨⟨st, cache⟩, hset, hlen⟩ := setBreakpoints_two
  have hfiles : ∀ f ∈ twoFiles, f.unitId ∈ (procUnits [true, true, true, true]).units := by decide
  have hright := h [true, true, true, true] _ _ _ _ _ _ hfiles hset disjointUnits_two
  have hfilled := lookupRight_filled (cache_separated disjointUnits_two (setUnits_ranges hset))
    (by rw [hlen]; decide) hright
  have hcount : (2 : Nat) = 4 := hlen.symm.trans hfilled.1
  exact absurd hcount (by decide)

/-- The second unit's own address is one of them. -/
example : searchUnits [⟨0x1000, 0x1000, 1, []⟩, ⟨0x1010, 0x1010, 1, []⟩] 0x1010 0 4 = none := by
  simp [searchUnits]

end FlightRec
