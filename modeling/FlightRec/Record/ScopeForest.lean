/-
# `FlightRec.Record.ScopeForest` — the scopes of a client, from the DIEs to the queries

Functions and blocks are in each other in the DIEs.  `proc_func` and `proc_block`
(record/dbginfo.c) insert a row of `scope` and go on with what is inside, under the id of
the row and one deeper; `proc_unit` starts with the global scope 0.  From these rows
`alter_db` (record/db.c) makes `scope_ancestor`, and gives every statement its scope.

Against this stands where a scope is in the forest (`placed`): the scopes around it, from
the inside to the outside.

    the table      has a scope with each of those around it, once    (`mem_scopeAncestors_placed`)
    a statement    gets the scope that is inside all others
                   around its address                                (`scopeIdOf_eq_some_iff`)
-/
import FlightRec.Lib.Words
import FlightRec.Lib.Query
import FlightRec.Record.CodeRanges
import FlightRec.Record.Depth
import FlightRec.Record.Scopes

namespace FlightRec

open Query

/-! ## The rows -/

/-- Functions and blocks: the code of the first one, those in it, and those beside it. -/
inductive ScopeForest where
  | nil
  | cons (lo hi : BitVec 64) (inner rest : ScopeForest)

/-- A row of `scope`. -/
structure ScopeRecord extends ScopeColumns where
  id : Nat
  deriving DecidableEq, Repr

/-- The row as it is fetched: addresses are unsigned again. -/
def ScopeRecord.row (r : ScopeRecord) : ScopeRow where
  id := r.id
  parent := r.parent
  depth := r.depth
  startAddr := toUInt64 r.startAddr
  endAddr := toUInt64 r.endAddr

/-- `UPDATE statement SET scope_id = …`, on the columns. -/
def scopeIdOf (scopes : List ScopeRecord) (address : Int) : Option Nat :=
  (orderByDesc (fun r : ScopeRecord => r.depth)
    (scopes.filter fun r => address < r.endAddr ∧ r.startAddr ≤ address)).head?.map (·.id)

namespace ScopeForest

/-- `proc_symbols`, as far as it inserts scopes; the ids are those of `AUTOINCREMENT`. -/
def procSymbols (scopeId depth : Nat) : ScopeForest → List ScopeRecord → List ScopeRecord
  | nil, scopes => scopes
  | cons lo hi inner rest, scopes =>
      let id := scopes.length + 1
      let scopes := scopes ++ [{ toScopeColumns := insertScope scopeId depth lo hi, id }]
      rest.procSymbols scopeId depth (inner.procSymbols id (depth + 1) scopes)

/-- The table, with the units one behind the other. -/
def scopes (f : ScopeForest) : List ScopeRecord := f.procSymbols 0 0 []

/-! ## The places -/

/-- A scope in its place: those around it are `parent` and, from the inside to the outside,
`outer`. -/
structure Placed where
  id : Nat
  parent : Nat
  outer : List Nat
  lo : BitVec 64
  hi : BitVec 64

/-- The scopes around a scope. -/
def Placed.around (p : Placed) : List Nat := p.parent :: p.outer

/-- The row for a scope. -/
def Placed.record (p : Placed) : ScopeRecord where
  toScopeColumns := insertScope p.parent p.outer.length p.lo p.hi
  id := p.id

/-- The address is in the range; both are numbers with a sign in the table. -/
def InRange (lo hi : BitVec 64) (address : Int) : Prop :=
  lo.toInt ≤ address ∧ address < hi.toInt

def Placed.Covers (p : Placed) (address : Int) : Prop := InRange p.lo p.hi address

/-- A scope is around another, as those around it are. -/
def Placed.Encloses (p q : Placed) : Prop := p.id :: p.around <:+ q.around

/-- How many scopes there are. -/
def size : ScopeForest → Nat
  | nil => 0
  | cons _ _ inner rest => 1 + inner.size + rest.size

/-- The scopes of a forest under `parent`, numbered from `next` on. -/
def placed (parent : Nat) (outer : List Nat) (next : Nat) : ScopeForest → List Placed
  | nil => []
  | cons lo hi inner rest =>
      { id := next, parent, outer, lo, hi } ::
        (inner.placed next (parent :: outer) (next + 1) ++
          rest.placed parent outer (next + 1 + inner.size))

/-- All scopes, under the global scope. -/
def all (f : ScopeForest) : List Placed := f.placed 0 [] 1

variable {parent next : Nat} {outer : List Nat} {p q : Placed} {f : ScopeForest} {address : Int}

theorem length_placed {parent next : Nat} {outer : List Nat} (f : ScopeForest) :
    (f.placed parent outer next).length = f.size := by
  induction f generalizing parent outer next with
  | nil => rfl
  | cons lo hi inner rest ihInner ihRest =>
      rw [placed, List.length_cons, List.length_append, ihInner, ihRest, size]
      omega

theorem procSymbols_eq (parent : Nat) (outer : List Nat) (f : ScopeForest)
    (scopes : List ScopeRecord) :
    f.procSymbols parent outer.length scopes =
      scopes ++ (f.placed parent outer (scopes.length + 1)).map Placed.record := by
  induction f generalizing parent outer scopes with
  | nil => exact (List.append_nil scopes).symm
  | cons lo hi inner rest ihInner ihRest =>
      -- the scopes beside come behind those inside
      have hnext : scopes.length + (inner.size + 1) + 1 = scopes.length + 1 + 1 + inner.size := by
        omega
      rw [procSymbols, ← List.length_cons (a := parent), ihInner, ihRest, placed, List.map_cons,
        List.map_append]
      simp only [List.length_append, List.length_map, List.length_cons, List.length_nil,
        length_placed, List.append_assoc, List.singleton_append, Nat.zero_add]
      rw [hnext]
      rfl

theorem scopes_eq (f : ScopeForest) : f.scopes = f.all.map Placed.record :=
  procSymbols_eq 0 [] f []

theorem ids_placed {parent next : Nat} {outer : List Nat} (f : ScopeForest) :
    (f.placed parent outer next).map (·.id) = List.range' next f.size := by
  induction f generalizing parent outer next with
  | nil => rfl
  | cons lo hi inner rest ihInner ihRest =>
      rw [placed, List.map_cons, List.map_append, ihInner, ihRest, List.range'_append_1, size,
        Nat.add_assoc, Nat.add_comm 1, List.range'_succ]

theorem next_le_id (hp : p ∈ f.placed parent outer next) : next ≤ p.id := by
  have hmem : p.id ∈ (f.placed parent outer next).map (·.id) := List.mem_map_of_mem hp
  rw [ids_placed] at hmem
  exact (List.mem_range'_1.mp hmem).1

theorem placed_inj (hp : p ∈ f.placed parent outer next) (hq : q ∈ f.placed parent outer next)
    (h : p.id = q.id) : p = q := by
  refine List.inj_on_of_nodup_map ?_ hp hq h
  rw [ids_placed]
  exact List.nodup_range'

theorem parent_cases (hp : p ∈ f.placed parent outer next) :
    p.parent = parent ∧ p.outer = outer ∨
      ∃ q ∈ f.placed parent outer next, q.id = p.parent ∧ q.around = p.outer ∧ q.id < p.id := by
  induction f generalizing parent outer next with
  | nil => cases hp
  | cons lo hi inner rest ihInner ihRest =>
      rcases List.mem_cons.mp hp with rfl | hp
      · exact Or.inl ⟨rfl, rfl⟩
      rcases List.mem_append.mp hp with hp | hp
      · right
        rcases ihInner hp with ⟨hparent, houter⟩ | ⟨q, hq, h⟩
        · exact ⟨_, List.mem_cons_self, hparent.symm, houter.symm, next_le_id hp⟩
        · exact ⟨q, List.mem_cons_of_mem _ (List.mem_append_left _ hq), h⟩
      · rcases ihRest hp with h | ⟨q, hq, h⟩
        · exact Or.inl h
        · exact Or.inr ⟨q, List.mem_cons_of_mem _ (List.mem_append_right _ hq), h⟩

theorem around_suffix (hp : p ∈ f.placed parent outer next) : parent :: outer <:+ p.around := by
  induction f generalizing parent outer next with
  | nil => cases hp
  | cons lo hi inner rest ihInner ihRest =>
      rcases List.mem_cons.mp hp with rfl | hp
      · exact List.suffix_refl _
      rcases List.mem_append.mp hp with hp | hp
      · exact (List.suffix_cons next (parent :: outer)).trans (ihInner hp)
      · exact ihRest hp

/-! ## The table of ancestors -/

/-- What `alter_db` finds in `scope`. -/
def tree (f : ScopeForest) : ScopeTree where
  scopes := f.scopes.map ScopeRecord.row
  ids := by
    have hids : (f.scopes.map ScopeRecord.row).map (·.id) = f.all.map (·.id) := by
      rw [scopes_eq, List.map_map, List.map_map]
      rfl
    rw [hids, all, ids_placed]
    exact List.nodup_range'
  parents := by
    intro s hs
    rw [scopes_eq, List.map_map] at hs
    obtain ⟨p, hp, rfl⟩ := List.mem_map.mp hs
    rcases parent_cases hp with ⟨hparent, _⟩ | ⟨q, hq, hid, _, hlt⟩
    · refine ⟨?_, Or.inl hparent⟩
      show p.parent < p.id
      rw [hparent]
      exact next_le_id hp
    · refine ⟨?_, Or.inr ⟨q.record.row, ?_, hid⟩⟩
      · show p.parent < p.id
        exact hid ▸ hlt
      · rw [scopes_eq, List.map_map]
        exact List.mem_map.mpr ⟨q, hq, rfl⟩

theorem parent_iff {s b : Nat} : f.tree.Parent s b ↔ ∃ p ∈ f.all, p.id = s ∧ p.parent = b := by
  show (∃ row ∈ f.scopes.map ScopeRecord.row, row.id = s ∧ row.parent = b) ↔ _
  rw [scopes_eq, List.map_map]
  constructor
  · rintro ⟨row, hrow, h⟩
    obtain ⟨p, hp, rfl⟩ := List.mem_map.mp hrow
    exact ⟨p, hp, h⟩
  · rintro ⟨p, hp, h⟩
    exact ⟨_, List.mem_map.mpr ⟨p, hp, rfl⟩, h⟩

/-- The recursion over `parent` goes through the scopes around a scope. -/
theorem ancestor_iff {s a : Nat} :
    f.tree.Ancestor s a ↔ ∃ p ∈ f.all, p.id = s ∧ a ∈ p.around := by
  constructor
  · intro h
    induction h using Relation.TransGen.head_induction_on with
    | single hparent =>
        obtain ⟨p, hp, hid, rfl⟩ := parent_iff.mp hparent
        exact ⟨p, hp, hid, List.mem_cons_self⟩
    | head hparent _ ih =>
        obtain ⟨p, hp, hid, rfl⟩ := parent_iff.mp hparent
        obtain ⟨q, hq, hqid, ha⟩ := ih
        refine ⟨p, hp, hid, List.mem_cons_of_mem _ ?_⟩
        rcases parent_cases hp with ⟨hroot, _⟩ | ⟨q', hq', hqid', haround, _⟩
        · -- the global scope is not in the table
          have := next_le_id hq
          omega
        · have heq := placed_inj hq hq' (hqid.trans hqid'.symm)
          rwa [← haround, ← heq]
  · rintro ⟨p, hp, rfl, ha⟩
    induction hn : p.id using Nat.strong_induction_on generalizing p with
    | _ n ih =>
      rcases List.mem_cons.mp ha with rfl | ha
      · exact .single (parent_iff.mpr ⟨p, hp, hn, rfl⟩)
      · rcases parent_cases hp with ⟨_, houter⟩ | ⟨q, hq, hqid, haround, hlt⟩
        · rw [houter] at ha
          cases ha
        · have hq' := ih q.id (hn ▸ hlt) q hq (haround ▸ ha) rfl
          exact .head (parent_iff.mpr ⟨p, hp, hn, rfl⟩) (hqid ▸ hq')

theorem mem_scopeAncestors_placed {s a : Nat} :
    { id := s, ancestor := a } ∈ f.tree.scopeAncestors ↔
      ∃ p ∈ f.all, p.id = s ∧ a ∈ p.around :=
  ScopeTree.mem_scopeAncestors_iff.trans ancestor_iff

/-! ## The scope of a statement -/

/-- One of the outermost scopes has the address in its range. -/
def Touches (address : Int) : ScopeForest → Prop
  | nil => False
  | cons lo hi _ rest => InRange lo hi address ∨ rest.Touches address

/-- Ranges are in those around them, and apart from those beside them. -/
def Nested : ScopeForest → Prop
  | nil => True
  | cons lo hi inner rest =>
      (∀ address, inner.Touches address → InRange lo hi address) ∧
        (∀ address, InRange lo hi address → ¬ rest.Touches address) ∧
        inner.Nested ∧ rest.Nested

theorem Nested.touches (h : f.Nested) (hp : p ∈ f.placed parent outer next)
    (hcovers : p.Covers address) : f.Touches address := by
  induction f generalizing parent outer next with
  | nil => cases hp
  | cons lo hi inner rest ihInner ihRest =>
      obtain ⟨hinner, _, hni, hnr⟩ := h
      rcases List.mem_cons.mp hp with rfl | hp
      · exact Or.inl hcovers
      rcases List.mem_append.mp hp with hp | hp
      · exact Or.inl (hinner address (ihInner hni hp))
      · exact Or.inr (ihRest hnr hp)

theorem Nested.encloses_or (h : f.Nested) (hp : p ∈ f.placed parent outer next)
    (hq : q ∈ f.placed parent outer next) (hpc : p.Covers address) (hqc : q.Covers address) :
    p = q ∨ p.Encloses q ∨ q.Encloses p := by
  induction f generalizing parent outer next with
  | nil => cases hp
  | cons lo hi inner rest ihInner ihRest =>
      obtain ⟨hinner, hbeside, hni, hnr⟩ := h
      -- what is in the first scope or is that scope is not beside it
      have hapart : ∀ {r : Placed}, r ∈ rest.placed parent outer (next + 1 + inner.size) →
          r.Covers address → ¬ InRange lo hi address :=
        fun hr hc hlohi => hbeside address hlohi (hnr.touches hr hc)
      rcases List.mem_cons.mp hp with rfl | hp
      · rcases List.mem_cons.mp hq with rfl | hq
        · exact Or.inl rfl
        rcases List.mem_append.mp hq with hq | hq
        · exact Or.inr (Or.inl (around_suffix hq))
        · exact absurd hpc (hapart hq hqc)
      rcases List.mem_append.mp hp with hp | hp
      · rcases List.mem_cons.mp hq with rfl | hq
        · exact Or.inr (Or.inr (around_suffix hp))
        rcases List.mem_append.mp hq with hq | hq
        · exact ihInner hni hp hq
        · exact absurd (hinner address (hni.touches hp hpc)) (hapart hq hqc)
      · rcases List.mem_cons.mp hq with rfl | hq
        · exact absurd hqc (hapart hp hpc)
        rcases List.mem_append.mp hq with hq | hq
        · exact absurd (hinner address (hni.touches hq hqc)) (hapart hp hpc)
        · exact ihRest hnr hp hq

theorem Placed.Encloses.depth (h : p.Encloses q) : p.record.depth < q.record.depth :=
  Nat.lt_of_succ_lt_succ h.length_le

theorem Placed.Encloses.mem (h : p.Encloses q) : p.id ∈ q.around :=
  h.subset List.mem_cons_self

/-- As long as addresses have no sign, this is the query on the rows as they are fetched. -/
theorem scopeIdOf_row {prog : Program} {scopes : List ScopeRecord} {a : Nat}
    (hrows : prog.scopes = scopes.map ScopeRecord.row)
    (hsign : ∀ r ∈ scopes, 0 ≤ r.startAddr ∧ 0 ≤ r.endAddr)
    (hfits : ∀ r ∈ scopes, r.startAddr < 2 ^ 64 ∧ r.endAddr < 2 ^ 64) :
    prog.scopeIdOf a = scopeIdOf scopes a := by
  have hfilter : (scopes.map ScopeRecord.row).filter (fun s => a < s.endAddr ∧ s.startAddr ≤ a) =
      (scopes.filter fun r => (a : Int) < r.endAddr ∧ r.startAddr ≤ (a : Int)).map
        ScopeRecord.row := by
    rw [List.filter_map]
    congr 1
    refine List.filter_congr fun r hr => decide_eq_decide.mpr ?_
    obtain ⟨hstart, hend⟩ := hsign r hr
    obtain ⟨hstart', hend'⟩ := hfits r hr
    show a < toUInt64 r.endAddr ∧ toUInt64 r.startAddr ≤ a ↔ _
    rw [toUInt64_of_lt hstart hstart', toUInt64_of_lt hend hend']
    omega
  unfold Program.scopeIdOf scopeIdOf orderByDesc
  rw [hrows, hfilter, ← List.map_insertionSort _ _ ScopeRecord.row _ fun _ _ _ _ => Iff.rfl,
    List.head?_map, Option.map_map]
  rfl

theorem scopeIdOf_cases (f : ScopeForest) (address : Int) :
    (∃ p ∈ f.all, p.Covers address ∧
        (∀ q ∈ f.all, q.Covers address → q.record.depth ≤ p.record.depth) ∧
        scopeIdOf f.scopes address = some p.id) ∨
      ((∀ p ∈ f.all, ¬ p.Covers address) ∧ scopeIdOf f.scopes address = none) := by
  have hcovers : ∀ p : Placed,
      (decide (address < p.record.endAddr ∧ p.record.startAddr ≤ address) = true ↔
        p.Covers address) := fun p => decide_eq_true_iff.trans and_comm
  unfold scopeIdOf
  rcases orderByDesc_filter_cases (fun r : ScopeRecord => r.depth)
      (fun r => address < r.endAddr ∧ r.startAddr ≤ address) f.scopes with
    ⟨r, hr, hin, greatest, hhead⟩ | ⟨hnone, hhead⟩
  · left
    rw [scopes_eq] at hr greatest
    obtain ⟨p, hp, rfl⟩ := List.mem_map.mp hr
    refine ⟨p, hp, (hcovers p).mp hin, fun q hq hqc => ?_, ?_⟩
    · exact greatest q.record (List.mem_map_of_mem hq) ((hcovers q).mpr hqc)
    · rw [hhead]
      rfl
  · right
    rw [scopes_eq] at hnone
    refine ⟨fun p hp hpc => ?_, ?_⟩
    · have hout := hnone p.record (List.mem_map_of_mem hp)
      rw [(hcovers p).mpr hpc] at hout
      cases hout
    · rw [hhead]
      rfl

/-- The scope is one around the address, and none around the address is in it. -/
structure Placed.Deepest (f : ScopeForest) (address : Int) (p : Placed) : Prop where
  mem : p ∈ f.all
  covers : p.Covers address
  deepest : ∀ q ∈ f.all, q.Covers address → q = p ∨ q.Encloses p

theorem scopeIdOf_eq_some_iff (h : f.Nested) {id : Nat} :
    scopeIdOf f.scopes address = some id ↔ ∃ p : Placed, p.Deepest f address ∧ p.id = id := by
  rcases scopeIdOf_cases f address with ⟨p, hp, hpc, greatest, heq⟩ | ⟨hnone, heq⟩
  · have hdeepest : p.Deepest f address := by
      refine ⟨hp, hpc, fun q hq hqc => ?_⟩
      rcases h.encloses_or hp hq hpc hqc with rfl | hin | hin
      · exact Or.inl rfl
      · -- one in it would be deeper
        exact absurd hin.depth (Nat.not_lt.mpr (greatest q hq hqc))
      · exact Or.inr hin
    rw [heq]
    constructor
    · intro hid
      exact ⟨p, hdeepest, Option.some.inj hid⟩
    · rintro ⟨q, hq, rfl⟩
      rcases hq.deepest p hp hpc with rfl | hin
      · rfl
      · exact absurd hin.depth (Nat.not_lt.mpr (greatest q hq.mem hq.covers))
  · rw [heq]
    constructor
    · intro hid
      cases hid
    · rintro ⟨q, hq, _⟩
      exact absurd hq.covers (hnone q hq.mem)

theorem scopeIdOf_eq_none_iff :
    scopeIdOf f.scopes address = none ↔ ∀ p ∈ f.all, ¬ p.Covers address := by
  rcases scopeIdOf_cases f address with ⟨p, hp, hpc, _, heq⟩ | ⟨hnone, heq⟩
  · rw [heq]
    constructor
    · intro hid
      cases hid
    · intro hnone
      exact absurd hpc (hnone p hp)
  · exact iff_of_true heq hnone

/-- **Scopes.**  The table of ancestors has each scope with those around it, once; and with
ranges that are nested, a statement gets the deepest scope around its address, or none if
there is none. -/
theorem scope_closure (f : ScopeForest) :
    (∀ s a, { id := s, ancestor := a } ∈ f.tree.scopeAncestors ↔
        ∃ p ∈ f.all, p.id = s ∧ a ∈ p.around) ∧
      f.tree.scopeAncestors.Nodup ∧
      (f.Nested → ∀ address,
        (∀ id, scopeIdOf f.scopes address = some id ↔
            ∃ p : Placed, p.Deepest f address ∧ p.id = id) ∧
          (scopeIdOf f.scopes address = none ↔ ∀ p ∈ f.all, ¬ p.Covers address)) := by
  refine ⟨fun s a => mem_scopeAncestors_placed, ScopeTree.scopeAncestors_nodup, ?_⟩
  intro h address
  exact ⟨fun id => scopeIdOf_eq_some_iff h, scopeIdOf_eq_none_iff⟩

/-- A function with two blocks, and a function behind it. -/
def twoBlocks : ScopeForest :=
  .cons 0x100 0x200 (.cons 0x110 0x120 .nil (.cons 0x120 0x140 .nil .nil))
    (.cons 0x200 0x280 .nil .nil)

theorem twoBlocks_nested : twoBlocks.Nested := by
  have h100 : (0x100 : BitVec 64).toInt = 0x100 := by decide
  have h110 : (0x110 : BitVec 64).toInt = 0x110 := by decide
  have h120 : (0x120 : BitVec 64).toInt = 0x120 := by decide
  have h140 : (0x140 : BitVec 64).toInt = 0x140 := by decide
  have h200 : (0x200 : BitVec 64).toInt = 0x200 := by decide
  have h280 : (0x280 : BitVec 64).toInt = 0x280 := by decide
  simp only [twoBlocks, Nested, Touches, InRange, h100, h110, h120, h140, h200, h280, or_false,
    not_false_eq_true, false_implies, implies_true, and_true, true_and]
  refine ⟨?_, ?_, ?_⟩
  · intro address h
    omega
  · intro address h
    omega
  · intro address h
    omega

/-- The second block, in the function and the global scope. -/
def secondBlock : Placed := { id := 3, parent := 1, outer := [0], lo := 0x120, hi := 0x140 }

theorem secondBlock_deepest : secondBlock.Deepest twoBlocks 0x130 where
  mem := .tail _ (.tail _ (.head _))
  covers := ⟨by decide, by decide⟩
  deepest := by
    intro q hq hc
    rcases hq with _ | ⟨_, _ | ⟨_, _ | ⟨_, _ | ⟨_, hq⟩⟩⟩⟩
    · exact Or.inr (List.suffix_refl _)
    · exact absurd hc.2 (by decide)
    · exact Or.inl rfl
    · exact absurd hc.1 (by decide)
    · cases hq

/-- Statements in the second block are in its scope, and see the function's. -/
theorem scope_closure_twoBlocks :
    { id := 3, ancestor := 1 } ∈ twoBlocks.tree.scopeAncestors ∧
      scopeIdOf twoBlocks.scopes 0x130 = some 3 := by
  obtain ⟨hmem, _, hscope⟩ := scope_closure twoBlocks
  constructor
  · exact (hmem 3 1).mpr ⟨secondBlock, secondBlock_deepest.mem, rfl, List.mem_cons_self⟩
  · exact ((hscope twoBlocks_nested 0x130).1 3).mpr ⟨secondBlock, secondBlock_deepest, rfl⟩

end ScopeForest

end FlightRec
