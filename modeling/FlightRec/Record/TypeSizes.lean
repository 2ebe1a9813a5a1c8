/-
# `FlightRec.Record.TypeSizes` — sizes of types

A typedef or a qualified type has the size of what it names, an array has its dimensions
times the size of its items (`HasSize`).  The two statements of `alter_db` that compute
sizes both start from the rows that have none.  The first one gives such a row the size
of its parent, whatever it is: an array then has a size and the second statement does
not get to it.  What has a size after the first statement depends on the order of the
rows (`Inherits`).

    what a type has for a size        (`HasSize`, `SizesRight`)
    what the first statement reaches  (`Inherits`)
    what the second adds              (`ItemFactor`)
    when all sizes are right          (`sizes_right_iff`)
-/
import FlightRec.Record.Types

namespace FlightRec

open Update

/-! ## Sizes -/

/-- The size that a DIE gives. -/
def DieBody.ownSize : DieBody → Option Nat
  | .base size _ | .custom .pointer size _ | .aggr _ size _ => some size
  | _ => none

/-- The type that a typedef or a qualified type names. -/
def DieBody.named : DieBody → Option Nat
  | .custom tag _ type => if tag.names then type else none
  | _ => none

/-- `sizeof` -/
inductive HasSize (g : TypeGraph) : Nat → Nat → Prop
  | own {d : TypeDie} {n : Nat} : d ∈ g.dies → d.body.ownSize = some n → HasSize g d.offset n
  | named {d : TypeDie} {p n : Nat} : d ∈ g.dies → d.body.named = some p → HasSize g p n →
      HasSize g d.offset n
  | array {d : TypeDie} {elem n : Nat} {bounds : List (Option Nat)} : d ∈ g.dies →
      d.body = .array elem bounds → HasSize g elem n →
      HasSize g d.offset ((bounds.map itemCount).prod * n)

/-- Typedefs, qualified types and arrays have their sizes in the table. -/
structure SizesRight (g : TypeGraph) (rows : List StoredType) : Prop where
  named : ∀ d ∈ g.dies, ∀ p, d.body.named = some p → ∀ n, HasSize g d.offset n →
    (sizeAt rows d.offset).getD 0 = n
  arrays : ∀ d ∈ g.dies, ∀ elem bounds, d.body = .array elem bounds → ∀ n,
    HasSize g d.offset n → (sizeAt rows d.offset).getD 0 = n

/-! ## Which sizes are found -/

/-- A row that is read in without a size gets this one from its parent: the parent has
been read in with it, or comes before and has got it itself. -/
inductive Inherits (g : TypeGraph) : Nat → Nat → Prop
  | direct {r : StoredType} {n : Nat} : r ∈ g.rows → r.size = some 0 →
      sizeAt g.rows r.parent = some n → n ≠ 0 → Inherits g r.offset n
  | through {r : StoredType} {n : Nat} : r ∈ g.rows → r.size = some 0 →
      sizeAt g.rows r.parent = some 0 → Before g.order r.parent r.offset →
      Inherits g r.parent n → Inherits g r.offset n

/-- Some size is inherited. -/
def Reached (g : TypeGraph) (offset : Nat) : Prop := ∃ n, Inherits g offset n

/-- How many times the size of its items an array gets: once, if that is what it
inherits; else as often as its first dimension says, if the size of the items is known
when the array is looked at. -/
inductive ItemFactor (g : TypeGraph) (offset elem : Nat) (bounds : List (Option Nat)) : Nat → Prop
  | inherited : Reached g offset → ItemFactor g offset elem bounds 1
  | dimension : ¬ Reached g offset → Before g.order elem offset ∨ Reached g elem →
      ItemFactor g offset elem bounds (itemCount bounds.head?.join)
  | unknown : ¬ Reached g offset → ¬ Before g.order elem offset → ¬ Reached g elem →
      ItemFactor g offset elem bounds 0

/-- Every typedef and qualified type inherits a size, and the dimensions of every array
come to the factor it gets. -/
structure SizesReach (g : TypeGraph) : Prop where
  named : ∀ d ∈ g.dies, ∀ p, d.body.named = some p → ∀ n, HasSize g d.offset n → n ≠ 0 →
    Reached g d.offset
  arrays : ∀ d ∈ g.dies, ∀ elem bounds, d.body = .array elem bounds → ∀ n, HasSize g elem n →
    n ≠ 0 → ∀ factor, ItemFactor g d.offset elem bounds factor →
      (bounds.map itemCount).prod = factor

/-- Every row without a kind of its own, that of a qualified type or of a base type of
another encoding (as `_Bool` has it), has a parent with a row to get its flags from. -/
def FlagsFound (g : TypeGraph) : Prop :=
  ∀ r ∈ g.rows, r.kind = 0 → r.parent ∈ g.order

instance (g : TypeGraph) : Decidable (FlagsFound g) :=
  inferInstanceAs (Decidable (∀ r ∈ g.rows, r.kind = 0 → r.parent ∈ g.order))

/-- No typedef, qualified type or array has bytes. -/
def NoneSized (g : TypeGraph) : Prop :=
  ∀ d ∈ g.dies, ((∃ p, d.body.named = some p) ∨ ∃ elem bounds, d.body = .array elem bounds) →
    ∀ n, HasSize g d.offset n → n = 0

/-- The table that `alter_db` leaves: as all its statements make it, or, where the one that
sets `flags` fails, as the two before it have made it. -/
def TypeGraph.altered (g : TypeGraph) : List StoredType :=
  (alterTypes g.members g.rows).getD (setDerived (setPointers g.rows))

theorem itemFactor_exists (g : TypeGraph) (offset elem : Nat) (bounds : List (Option Nat)) :
    ∃ factor, ItemFactor g offset elem bounds factor := by
  by_cases hreached : Reached g offset
  · exact ⟨_, .inherited hreached⟩
  · by_cases hknown : Before g.order elem offset ∨ Reached g elem
    · exact ⟨_, .dimension hreached hknown⟩
    · obtain ⟨hbefore, helem⟩ := not_or.mp hknown
      exact ⟨_, .unknown hreached hbefore helem⟩

/-! ## The rows of DIEs -/

namespace TypeGraph

variable {g : TypeGraph} {d : TypeDie} {o p n elem : Nat} {bounds : List (Option Nat)}

theorem own_row (hsize : d.body.ownSize = some n) :
    ∃ r, d.row = some r ∧ r.size = some n ∧ r.dim = 0 ∧
      ((∃ size type, d.body = .custom .pointer size type) ∨ r.parent = 0) := by
  unfold DieBody.ownSize at hsize
  split at hsize
  case h_1 hbody =>
    cases hsize
    exact ⟨_, by rw [TypeDie.row, hbody], rfl, rfl, .inr rfl⟩
  case h_2 size type hbody =>
    cases hsize
    cases type with
    | none => exact ⟨_, by rw [TypeDie.row, hbody]; rfl, rfl, rfl, .inl ⟨_, _, hbody⟩⟩
    | some p => exact ⟨_, by rw [TypeDie.row, hbody]; rfl, rfl, rfl, .inl ⟨_, _, hbody⟩⟩
  case h_3 hbody =>
    cases hsize
    exact ⟨_, by rw [TypeDie.row, hbody], rfl, rfl, .inr rfl⟩
  case h_4 => cases hsize

theorem named_body (hnamed : d.body.named = some p) :
    ∃ tag size, d.body = .custom tag size (some p) ∧ tag.names = true := by
  unfold DieBody.named at hnamed
  split at hnamed
  case h_1 tag size type hbody =>
    split at hnamed
    case isTrue hnames => exact ⟨tag, size, hnamed ▸ hbody, hnames⟩
    case isFalse => cases hnamed
  case h_2 => cases hnamed

theorem named_row (hd : d ∈ g.dies) (hnamed : d.body.named = some p) :
    ∃ r, d.row = some r ∧ r.size = some 0 ∧ r.dim = 0 ∧ r.parent = p := by
  obtain ⟨tag, size, hbody, hnames⟩ := named_body hnamed
  have hzero : size = 0 := by
    by_contra hsize
    rw [(g.sizes d hd tag size _ hbody).mp hsize] at hnames
    cases hnames
  exact ⟨_, by rw [TypeDie.row, hbody]; rfl, congrArg some hzero, rfl, rfl⟩

theorem array_row (hbody : d.body = .array elem bounds) :
    d.row = some (procArrayType d.offset elem bounds) := by
  rw [TypeDie.row, hbody]

theorem dim_or_array {r : StoredType} (hr : r ∈ g.rows) : r.dim = 0 ∨ r.flags = tkindArray := by
  obtain ⟨d, _, hrow⟩ := mem_rows.mp hr
  cases row_cases hrow with
  | custom _ hcustom => exact .inl (custom_columns hcustom).2.2.1
  | array => exact .inr rfl
  | base | aggr => exact .inl rfl

theorem mem_of_row {r : StoredType} (hd : d ∈ g.dies) (hrow : d.row = some r) : r ∈ g.rows :=
  mem_rows.mpr ⟨d, hd, hrow⟩

theorem sizeAt_row {r : StoredType} (hr : r ∈ g.rows) : sizeAt g.rows r.offset = r.size := by
  have hat : typeAt g.rows r.offset = some r := lookup_of_mem rows_nodup hr
  rw [sizeAt, hat]
  rfl

theorem row_of_hasSize (h : HasSize g o n) : ∃ r ∈ g.rows, r.offset = o := by
  have hdie : ∀ {d : TypeDie} {r : StoredType}, d ∈ g.dies → d.row = some r →
      ∃ r ∈ g.rows, r.offset = d.offset := fun hd hrow =>
    ⟨_, mem_of_row hd hrow, row_offset hrow⟩
  cases h with
  | own hd hsize =>
      obtain ⟨r, hrow, _⟩ := own_row hsize
      exact hdie hd hrow
  | named hd hnamed _ =>
      obtain ⟨r, hrow, _⟩ := named_row hd hnamed
      exact hdie hd hrow
  | array hd hbody _ => exact hdie hd (array_row hbody)

theorem before_mem {k : Nat} (h : Before g.order k o) : ∃ r ∈ g.rows, r.offset = k := by
  have hlt : g.order.idxOf k < g.order.length := Nat.lt_of_lt_of_le h List.idxOf_le_length
  have hmem : k ∈ g.order := List.idxOf_lt_length_iff.mp hlt
  exact List.mem_map.mp hmem

end TypeGraph

/-! ## The column after the statements -/

/-- `s` is the column of sizes between the two statements and `s'` what it is after
both: rows that have got a size from the first are left alone by the second. -/
structure SizeColumns (g : TypeGraph) (s s' : Nat → Option Nat) : Prop where
  inherited : ∀ r ∈ g.rows, s r.offset = if r.size = some 0 then
    (if Before g.order r.parent r.offset then s r.parent else sizeAt g.rows r.parent) else r.size
  items : ∀ r ∈ g.rows, r.flags = tkindArray → s' r.offset =
    if s r.offset = some 0 then
      (positive (if Before g.order r.parent r.offset then s' r.parent
        else s r.parent)).map (r.dim * ·)
    else s r.offset
  others : ∀ r ∈ g.rows, r.dim = 0 → (s' r.offset).getD 0 = (s r.offset).getD 0

/-- What sizes are computed from is the same in both rows, the size apart. -/
structure SameColumns (r r' : StoredType) : Prop where
  offset : r'.offset = r.offset
  parent : r'.parent = r.parent
  dim : r'.dim = r.dim
  flags : r.kind ≠ 0 → r'.flags = r.flags

section
variable {rows kinds sizes arrays : List StoredType} {r : StoredType}

theorem kinds_row (hnodup : (rows.map (·.offset)).Nodup)
    (hkinds : propagateFlags (setDerived (setPointers rows)) = some kinds) (hr : r ∈ rows) :
    ∃ r', typeAt kinds r.offset = some r' ∧ SameColumns r r' ∧ r'.size = r.size := by
  obtain ⟨indirect, hderived⟩ := derived_row (lookup_of_mem hnodup hr)
  have hnodup' : ((setDerived (setPointers rows)).map (·.offset)).Nodup :=
    derived_offsets.symm ▸ hnodup
  obtain ⟨flags, hflags, hkind⟩ := propagateFlags_row hnodup' hkinds hderived
  refine ⟨_, hflags, ⟨rfl, rfl, rfl, fun hne => ?_⟩, rfl⟩
  have hne' : ({ r with indirect } : StoredType).kind ≠ 0 := hne
  rwa [if_neg hne'] at hkind

theorem kinds_size (hnodup : (rows.map (·.offset)).Nodup)
    (hkinds : propagateFlags (setDerived (setPointers rows)) = some kinds) (o : Nat) :
    sizeAt kinds o = sizeAt rows o := by
  cases hat : typeAt rows o with
  | none =>
      have hoffsets := (propagateFlags_offsets hkinds).trans derived_offsets
      rw [sizeAt, sizeAt, typeAt_none hoffsets hat, hat]
  | some r =>
      obtain ⟨hr, rfl⟩ := mem_of_lookup hat
      obtain ⟨r', hr', _, hsize⟩ := kinds_row hnodup hkinds hr
      rw [sizeAt, sizeAt, hr', hat]
      exact hsize

theorem sizes_row (hnodup : (rows.map (·.offset)).Nodup)
    (hkinds : propagateFlags (setDerived (setPointers rows)) = some kinds)
    (hsizes : propagateSizes kinds = some sizes) (hr : r ∈ rows) :
    ∃ r', typeAt sizes r.offset = some r' ∧ SameColumns r r' ∧
      r'.size = if r.size = some 0 then
        (if Before (rows.map (·.offset)) r.parent r.offset then sizeAt sizes r.parent
          else sizeAt rows r.parent) else r.size := by
  have horder : kinds.map (·.offset) = rows.map (·.offset) :=
    (propagateFlags_offsets hkinds).trans derived_offsets
  obtain ⟨k, hk, hsame, hsize⟩ := kinds_row hnodup hkinds hr
  have hrow := propagateSizes_row (horder ▸ hnodup) hsizes hk
  rw [parentRow_size, horder, hsize, hsame.parent, hsame.offset,
    kinds_size hnodup hkinds] at hrow
  exact ⟨_, hrow, ⟨rfl, rfl, hsame.dim, hsame.flags⟩, rfl⟩

theorem arrays_row (hnodup : (rows.map (·.offset)).Nodup)
    (hkinds : propagateFlags (setDerived (setPointers rows)) = some kinds)
    (hsizes : propagateSizes kinds = some sizes) (harrays : arraySizes sizes = some arrays)
    (hr : r ∈ rows) : ∃ kind, sizeAt arrays r.offset =
      (if sizeAt sizes r.offset = some 0 ∧ kind = tkindArray then
        (positive (if Before (rows.map (·.offset)) r.parent r.offset then sizeAt arrays r.parent
          else sizeAt sizes r.parent)).map (r.dim * ·)
      else sizeAt sizes r.offset) ∧ (r.kind ≠ 0 → kind = r.kind) := by
  have horder : sizes.map (·.offset) = rows.map (·.offset) :=
    (propagateSizes_offsets hsizes).trans
      ((propagateFlags_offsets hkinds).trans derived_offsets)
  obtain ⟨t, ht, hsame, _⟩ := sizes_row hnodup hkinds hsizes hr
  have hrow := arraySizes_row (horder ▸ hnodup) harrays ht
  rw [parentRow_size, horder, hsame.parent, hsame.offset, hsame.dim] at hrow
  have hsize : sizeAt sizes r.offset = t.size := by
    rw [sizeAt, ht]
    rfl
  refine ⟨t.kind, ?_, fun hne => congrArg (· % 0x10000) (hsame.flags hne)⟩
  rw [sizeAt, hrow, hsize]
  rfl

end

theorem sizeColumns {g : TypeGraph} {rows' : List StoredType}
    (h : alterTypes g.members g.rows = some rows') :
    ∃ s, SizeColumns g s (sizeAt rows') := by
  obtain ⟨kinds, sizes, arrays, hkinds, hsizes, harrays, rfl⟩ := alterTypes_stages h
  have hnodup : (g.rows.map (·.offset)).Nodup := TypeGraph.rows_nodup
  refine ⟨sizeAt sizes, ⟨fun r hr => ?_, fun r hr hflags => ?_, fun r hr hdim => ?_⟩⟩
  · obtain ⟨t, ht, _, hsize⟩ := sizes_row hnodup hkinds hsizes hr
    rw [sizeAt, ht]
    exact hsize
  · obtain ⟨kind, hsize, hkind⟩ := arrays_row hnodup hkinds hsizes harrays hr
    have harray : r.kind = tkindArray := congrArg (· % 0x10000) hflags
    have hne : r.kind ≠ 0 := by
      rw [harray]
      exact Nat.succ_ne_zero _
    rw [countMembers_size, countMembers_size, hsize, hkind hne]
    refine if_congr ?_ rfl rfl
    exact ⟨And.left, fun h => ⟨h, harray⟩⟩
  · obtain ⟨kind, hsize, _⟩ := arrays_row hnodup hkinds hsizes harrays hr
    rw [countMembers_size, hsize]
    split
    case isTrue hunsized =>
      rw [hunsized.1, hdim]
      cases positive _ with
      | none => rfl
      | some n => exact Nat.zero_mul n
    case isFalse => rfl

/-! ## What is inherited -/

namespace SizeColumns

variable {g : TypeGraph} {s s' : Nat → Option Nat} {r : StoredType} {d : TypeDie}
  {o p n m elem : Nat} {bounds : List (Option Nat)}

theorem of_raw (c : SizeColumns g s s') (hsize : sizeAt g.rows o = some n) (hn : n ≠ 0) :
    s o = some n := by
  obtain ⟨r, hat, hr⟩ := Option.bind_eq_some_iff.mp hsize
  obtain ⟨hmem, rfl⟩ := mem_of_lookup hat
  have hne : ¬ r.size = some 0 := by
    rw [hr]
    exact fun h => hn (Option.some.inj h)
  rw [c.inherited r hmem, if_neg hne, hr]

theorem of_inherits (c : SizeColumns g s s') (h : Inherits g o n) : s o = some n ∧ n ≠ 0 := by
  induction h with
  | direct hr hsize hparent hn =>
      refine ⟨?_, hn⟩
      rw [c.inherited _ hr, if_pos hsize, c.of_raw hparent hn, hparent]
      exact ite_self _
  | through hr hsize _ hbefore _ ih =>
      refine ⟨?_, ih.2⟩
      rw [c.inherited _ hr, if_pos hsize, if_pos hbefore]
      exact ih.1

/-- Induction on the place of the row: a parent that has its size from the statement
comes before. -/
theorem inherits_of (c : SizeColumns g s s') (hr : r ∈ g.rows) (hsize : r.size = some 0)
    (hs : s r.offset = some n) (hn : n ≠ 0) : Inherits g r.offset n := by
  induction hplace : g.order.idxOf r.offset using Nat.strongRecOn generalizing r with
  | ind place ih =>
      rw [c.inherited r hr, if_pos hsize] at hs
      split at hs
      case isTrue hbefore =>
        obtain ⟨q, hq, hparent⟩ := TypeGraph.before_mem hbefore
        obtain ⟨d, _, hrow⟩ := TypeGraph.mem_rows.mp hq
        obtain ⟨a, ha⟩ := TypeGraph.row_size hrow
        have hraw : sizeAt g.rows r.parent = some a := by
          rw [← hparent, TypeGraph.sizeAt_row hq, ha]
        cases Nat.eq_zero_or_pos a with
        | inl hzero =>
            rw [hzero] at ha hraw
            refine .through hr hsize hraw hbefore ?_
            rw [← hparent] at hs hbefore ⊢
            exact ih _ (hplace ▸ hbefore) hq ha hs rfl
        | inr hpos =>
            have ha0 : a ≠ 0 := Nat.pos_iff_ne_zero.mp hpos
            cases (c.of_raw hraw ha0).symm.trans hs
            exact .direct hr hsize hraw hn
      case isFalse => exact .direct hr hsize hs hn

theorem kept (c : SizeColumns g s s') (hr : r ∈ g.rows) (hs : s r.offset ≠ some 0) :
    (s' r.offset).getD 0 = (s r.offset).getD 0 := by
  rcases TypeGraph.dim_or_array hr with hdim | harray
  · exact c.others r hr hdim
  · rw [c.items r hr harray, if_neg hs]

theorem inherits_parent (c : SizeColumns g s s') (h : Inherits g o n) :
    ∃ r ∈ g.rows, r.offset = o ∧ (s' r.parent).getD 0 = n := by
  have hfinal {k : Nat} (hs : s k = some n) (hn : n ≠ 0) (hrow : ∃ q ∈ g.rows, q.offset = k) :
      (s' k).getD 0 = n := by
    obtain ⟨q, hq, rfl⟩ := hrow
    rw [c.kept hq (hs ▸ fun h => hn (Option.some.inj h)), hs]
    rfl
  cases h with
  | direct hr _ hparent hn =>
      refine ⟨_, hr, rfl, hfinal (c.of_raw hparent hn) hn ?_⟩
      obtain ⟨q, hat, _⟩ := Option.bind_eq_some_iff.mp hparent
      obtain ⟨hq, hoffset⟩ := mem_of_lookup hat
      exact ⟨q, hq, hoffset⟩
  | through hr _ _ hbefore hinherits =>
      obtain ⟨hs, hn⟩ := c.of_inherits hinherits
      exact ⟨_, hr, rfl, hfinal hs hn (TypeGraph.before_mem hbefore)⟩

theorem final_own (c : SizeColumns g s s') (hd : d ∈ g.dies) (hsize : d.body.ownSize = some n) :
    (s' d.offset).getD 0 = n := by
  obtain ⟨r, hrow, hr, hdim, hparent⟩ := TypeGraph.own_row hsize
  have hmem := TypeGraph.mem_of_row hd hrow
  rw [← TypeGraph.row_offset hrow, c.others r hmem hdim, c.inherited r hmem]
  split
  case isFalse =>
    rw [hr]
    rfl
  case isTrue hzero =>
    cases hr.symm.trans hzero
    rcases hparent with ⟨size, type, hbody⟩ | hparent
    · rw [hbody] at hsize
      exact absurd (Option.some.inj hsize) ((g.sizes d hd _ size type hbody).mpr rfl)
    · have hnone : ¬ Before g.order 0 r.offset := by
        intro hbefore
        obtain ⟨q, hq, hzero⟩ := TypeGraph.before_mem hbefore
        have hat : typeAt g.rows q.offset = some q := lookup_of_mem TypeGraph.rows_nodup hq
        rw [hzero, TypeGraph.typeAt_zero] at hat
        cases hat
      rw [hparent, if_neg hnone, sizeAt, TypeGraph.typeAt_zero]
      rfl

theorem unreached (c : SizeColumns g s s') (hr : r ∈ g.rows) (hsize : r.size = some 0)
    (hreached : ¬ Reached g r.offset) : (s r.offset).getD 0 = 0 := by
  cases hs : s r.offset with
  | none => rfl
  | some n =>
      by_contra hn
      exact hreached ⟨n, c.inherits_of hr hsize hs hn⟩

theorem final_named (c : SizeColumns g s s') (hd : d ∈ g.dies) (hnamed : d.body.named = some p) :
    (Reached g d.offset → (s' d.offset).getD 0 = (s' p).getD 0) ∧
      (¬ Reached g d.offset → (s' d.offset).getD 0 = 0) := by
  obtain ⟨r, hrow, hsize, hdim, hparent⟩ := TypeGraph.named_row hd hnamed
  have hmem := TypeGraph.mem_of_row hd hrow
  rw [← TypeGraph.row_offset hrow, c.others r hmem hdim]
  constructor
  · rintro ⟨n, hinherits⟩
    obtain ⟨q, hq, hoffset, hfinal⟩ := c.inherits_parent hinherits
    rw [List.inj_on_of_nodup_map TypeGraph.rows_nodup hq hmem hoffset, hparent] at hfinal
    rw [(c.of_inherits hinherits).1, hfinal]
    rfl
  · exact c.unreached hmem hsize

theorem positive_mul (k : Nat) (size : Option Nat) :
    ((positive size).map (k * ·)).getD 0 = k * size.getD 0 := by
  cases size with
  | none => rfl
  | some n =>
      cases n with
      | zero => rfl
      | succ n =>
          have hpos : positive (some (n + 1)) = some (n + 1) := Option.filter_some_pos (by simp)
          rw [hpos]
          rfl

/-- An array that inherits nothing has been read in with items that have no size yet. -/
theorem items_unsized {q : StoredType} (hd : d ∈ g.dies) (hbody : d.body = .array q.offset bounds)
    (hq : q ∈ g.rows) (hreached : ¬ Reached g d.offset) : q.size = some 0 := by
  have hmem := TypeGraph.mem_of_row hd (TypeGraph.array_row hbody)
  obtain ⟨_, _, hrow⟩ := TypeGraph.mem_rows.mp hq
  obtain ⟨n, hn⟩ := TypeGraph.row_size hrow
  have hraw : sizeAt g.rows q.offset = some n := (TypeGraph.sizeAt_row hq).trans hn
  by_contra hne
  refine hreached ⟨n, .direct hmem rfl hraw ?_⟩
  rintro rfl
  exact hne hn

theorem array_columns {q : StoredType} (c : SizeColumns g s s') (hd : d ∈ g.dies)
    (hbody : d.body = .array q.offset bounds) (hq : q ∈ g.rows) (hreached : ¬ Reached g d.offset) :
    s d.offset = (if Before g.order q.offset d.offset then s q.offset else some 0) ∧
      (s d.offset = some 0 → (s' d.offset).getD 0 = itemCount bounds.head?.join *
        (if Before g.order q.offset d.offset then s' q.offset else s q.offset).getD 0) := by
  have hmem := TypeGraph.mem_of_row hd (TypeGraph.array_row hbody)
  have hs : s d.offset = if Before g.order q.offset d.offset then s q.offset
      else sizeAt g.rows q.offset := (c.inherited _ hmem).trans (if_pos rfl)
  rw [TypeGraph.sizeAt_row hq, items_unsized hd hbody hq hreached] at hs
  refine ⟨hs, fun h => ?_⟩
  have hs' : s' d.offset = _ := (c.items _ hmem rfl).trans (if_pos h)
  rw [hs', ← positive_mul]
  rfl

theorem final_array {factor : Nat} (c : SizeColumns g s s') (hd : d ∈ g.dies)
    (hbody : d.body = .array elem bounds) (helem : ∃ q ∈ g.rows, q.offset = elem)
    (hfactor : ItemFactor g d.offset elem bounds factor) :
    (s' d.offset).getD 0 = factor * (s' elem).getD 0 := by
  have hmem := TypeGraph.mem_of_row hd (TypeGraph.array_row hbody)
  by_cases hreached : Reached g d.offset
  · obtain ⟨n, hinherits⟩ := hreached
    obtain ⟨r, hr, hoffset, hfinal⟩ := c.inherits_parent hinherits
    rw [List.inj_on_of_nodup_map TypeGraph.rows_nodup hr hmem hoffset] at hfinal
    obtain ⟨hs, hn⟩ := c.of_inherits hinherits
    have hkept : (s' d.offset).getD 0 = (s d.offset).getD 0 :=
      c.kept hmem fun h => hn (Option.some.inj (hs.symm.trans h))
    cases hfactor with
    | inherited =>
        rw [hkept, hs, Nat.one_mul]
        exact hfinal.symm
    | dimension hnot => exact absurd ⟨n, hinherits⟩ hnot
    | unknown hnot => exact absurd ⟨n, hinherits⟩ hnot
  · obtain ⟨q, hq, rfl⟩ := helem
    obtain ⟨hs, hs'⟩ := c.array_columns hd hbody hq hreached
    have hnone : (s d.offset).getD 0 = 0 := c.unreached hmem rfl hreached
    by_cases hbefore : Before g.order q.offset d.offset
    · rw [if_pos hbefore] at hs hs'
      cases hfactor with
      | inherited h => exact absurd h hreached
      | dimension =>
          cases hsize : s d.offset with
          | some n =>
              rw [hsize] at hnone
              cases hnone
              exact hs' hsize
          | none =>
              have hne : s d.offset ≠ some 0 := by
                rw [hsize]
                exact fun h => Option.some_ne_none 0 h.symm
              have hkept : (s' d.offset).getD 0 = (s d.offset).getD 0 := c.kept hmem hne
              rw [hkept, c.kept hq (hs ▸ hne), ← hs, hsize]
              rfl
      | unknown _ hnot => exact absurd hbefore hnot
    · rw [if_neg hbefore] at hs hs'
      rw [hs' hs]
      cases hfactor with
      | inherited h => exact absurd h hreached
      | dimension _ hknown =>
          obtain ⟨n, hinherits⟩ := hknown.resolve_left hbefore
          obtain ⟨hsq, hn⟩ := c.of_inherits hinherits
          rw [c.kept hq fun h => hn (Option.some.inj (hsq.symm.trans h))]
      | unknown _ _ hnot =>
          rw [c.unreached hq (items_unsized hd hbody hq hreached) hnot, Nat.mul_zero, Nat.zero_mul]

end SizeColumns

/-! ## When sizes are right -/

section
variable {g : TypeGraph} {rows' : List StoredType} {o n : Nat}

theorem SizesRight.final {s : Nat → Option Nat} (h : SizesRight g rows')
    (c : SizeColumns g s (sizeAt rows')) (hsize : HasSize g o n) :
    (sizeAt rows' o).getD 0 = n := by
  cases hsize with
  | own hd hown => exact c.final_own hd hown
  | named hd hnamed hp => exact h.named _ hd _ hnamed _ (.named hd hnamed hp)
  | array hd hbody helem => exact h.arrays _ hd _ _ hbody _ (.array hd hbody helem)

theorem SizesReach.final {s : Nat → Option Nat} (h : SizesReach g)
    (c : SizeColumns g s (sizeAt rows')) (hsize : HasSize g o n) :
    (sizeAt rows' o).getD 0 = n := by
  induction hsize with
  | own hd hown => exact c.final_own hd hown
  | @named d p n hd hnamed hp ih =>
      obtain ⟨hreach, hunreached⟩ := c.final_named hd hnamed
      by_cases hreached : Reached g d.offset
      · rw [hreach hreached, ih]
      · rw [hunreached hreached]
        by_contra hn
        exact hreached (h.named d hd p hnamed n (.named hd hnamed hp) (Ne.symm hn))
  | @array d elem n bounds hd hbody helem ih =>
      obtain ⟨factor, hfactor⟩ := itemFactor_exists g d.offset elem bounds
      rw [c.final_array hd hbody (TypeGraph.row_of_hasSize helem) hfactor, ih]
      rcases Nat.eq_zero_or_pos n with rfl | hpos
      · rw [Nat.mul_zero, Nat.mul_zero]
      · rw [h.arrays d hd elem bounds hbody n helem (Nat.pos_iff_ne_zero.mp hpos) factor hfactor]

theorem sizesRight_iff_reach (h : alterTypes g.members g.rows = some rows') :
    SizesRight g rows' ↔ SizesReach g := by
  obtain ⟨s, c⟩ := sizeColumns h
  constructor
  · intro hright
    refine ⟨fun d hd p hnamed n hsize hn => ?_, fun d hd elem bounds hbody n helem hn f hf => ?_⟩
    · by_contra hreached
      have hfinal := hright.named d hd p hnamed n hsize
      rw [(c.final_named hd hnamed).2 hreached] at hfinal
      exact hn hfinal.symm
    · have hfinal := hright.arrays d hd elem bounds hbody _ (.array hd hbody helem)
      have hrow := TypeGraph.row_of_hasSize helem
      rw [c.final_array hd hbody hrow hf, hright.final c helem] at hfinal
      exact Nat.eq_of_mul_eq_mul_right (Nat.pos_of_ne_zero hn) hfinal.symm
  · intro hreach
    exact ⟨fun d hd p hnamed n hsize => hreach.final c hsize,
      fun d hd elem bounds hbody n hsize => hreach.final c hsize⟩

/-- The first two statements leave the sizes as they were read, which for these types is 0. -/
theorem sizeAt_unaltered {d : TypeDie} (hd : d ∈ g.dies)
    (h : (∃ p, d.body.named = some p) ∨ ∃ elem bounds, d.body = .array elem bounds) :
    (sizeAt (setDerived (setPointers g.rows)) d.offset).getD 0 = 0 := by
  have hrow : ∃ r, d.row = some r ∧ r.size = some 0 := by
    rcases h with ⟨p, hnamed⟩ | ⟨elem, bounds, hbody⟩
    · obtain ⟨r, hr, hsize, _⟩ := TypeGraph.named_row hd hnamed
      exact ⟨r, hr, hsize⟩
    · exact ⟨_, TypeGraph.array_row hbody, rfl⟩
  obtain ⟨r, hr, hsize⟩ := hrow
  obtain ⟨indirect, hat⟩ := derived_row ((TypeGraph.typeAt_die hd).trans hr)
  rw [sizeAt, hat, Option.bind_some, hsize]
  rfl

theorem sizesRight_iff_noneSized :
    SizesRight g (setDerived (setPointers g.rows)) ↔ NoneSized g := by
  constructor
  · rintro hright d hd (⟨p, hnamed⟩ | ⟨elem, bounds, hbody⟩) n hsize
    · rw [← hright.named d hd p hnamed n hsize]
      exact sizeAt_unaltered hd (.inl ⟨p, hnamed⟩)
    · rw [← hright.arrays d hd elem bounds hbody n hsize]
      exact sizeAt_unaltered hd (.inr ⟨elem, bounds, hbody⟩)
  · intro hnone
    refine ⟨fun d hd p hnamed n hsize => ?_, fun d hd elem bounds hbody n hsize => ?_⟩
    · rw [hnone d hd (.inl ⟨p, hnamed⟩) n hsize]
      exact sizeAt_unaltered hd (.inl ⟨p, hnamed⟩)
    · rw [hnone d hd (.inr ⟨elem, bounds, hbody⟩) n hsize]
      exact sizeAt_unaltered hd (.inr ⟨elem, bounds, hbody⟩)

end

/-- **Types have their sizes** after `alter_db` if and only if all its statements go through,
every typedef and qualified type inherits a size, and the dimensions of every array come to
one where it inherits the size of its items as its own, to the first of them where it does not
and that size is known in time, and to nothing else; or the statement for the flags fails, and
there is no size to be found. -/
theorem sizes_right_iff (g : TypeGraph) :
    SizesRight g g.altered ↔ FlagsFound g ∧ SizesReach g ∨ ¬ FlagsFound g ∧ NoneSized g := by
  have hsome : (alterTypes g.members g.rows).isSome ↔ FlagsFound g := alterTypes_isSome
  unfold TypeGraph.altered
  cases haltered : alterTypes g.members g.rows with
  | none =>
      have hfails : ¬ FlagsFound g := fun h => by
        rw [← hsome, haltered] at h
        cases h
      rw [Option.getD_none, sizesRight_iff_noneSized]
      exact ⟨fun h => .inr ⟨hfails, h⟩, fun h => (h.resolve_left fun h => hfails h.1).2⟩
  | some rows =>
      have hfound : FlagsFound g := hsome.mp (haltered ▸ rfl)
      rw [Option.getD_some, sizesRight_iff_reach haltered]
      exact ⟨fun h => .inl ⟨hfound, h⟩, fun h => (h.resolve_right fun h => h.1 hfound).2⟩

/-- `int`, `int *`, a typedef of it and a constant of this type, one after another. -/
def constPointer : TypeGraph where
  dies := [⟨1, "int", .base 4 .signed⟩, ⟨2, none, .custom .pointer 8 (some 1)⟩,
    ⟨3, "ptr", .custom .typedef 0 (some 2)⟩, ⟨4, none, .custom .const 0 (some 3)⟩]
  offsets := by decide
  nonzero := by decide
  sizes := by simp

example : FlagsFound constPointer := by decide

/-- `int`, a typedef of it and `_Bool`: the row of `_Bool` has neither a kind nor a parent. -/
def plainBool : TypeGraph where
  dies := [⟨1, "int", .base 4 .signed⟩, ⟨2, "T", .custom .typedef 0 (some 1)⟩,
    ⟨3, "_Bool", .base 1 (.other 2)⟩]
  offsets := by decide
  nonzero := by decide
  sizes := by simp

example : ¬ FlagsFound plainBool := by decide
example : sizeAt plainBool.altered 2 = some 0 := by decide

/-- `int` and `int [10]`. -/
def tenInts : TypeGraph where
  dies := [⟨1, "int", .base 4 .signed⟩, ⟨2, none, .array 1 [some 9]⟩]
  offsets := by decide
  nonzero := by decide
  sizes := by simp

/-- Ten integers have the size of one. -/
theorem tenInts_size : FlagsFound tenInts ∧ sizeAt tenInts.altered 2 = some 4 ∧
    ¬ SizesRight tenInts tenInts.altered := by
  refine ⟨by decide, rfl, fun hright => ?_⟩
  have hint : HasSize tenInts 1 4 := .own (d := ⟨1, "int", .base 4 .signed⟩) (by decide) rfl
  have hsize : HasSize tenInts 2 (([some 9].map itemCount).prod * 4) :=
    .array (d := ⟨2, none, .array 1 [some 9]⟩) (by decide) rfl hint
  have hfinal := hright.arrays ⟨2, none, .array 1 [some 9]⟩ (by decide) 1 [some 9] rfl _ hsize
  cases hfinal

end FlightRec
