/-
# `FlightRec.Examine.Dereferences` — how often a variable can be dereferenced

A name starts with column `indirect` of its variable's type, and each star takes one from
it, so the column decides how many stars may stand before the name.  And the name is only
found at all if there is a type without indirections behind the type of the variable,
which `void *` has not.
-/
import FlightRec.Examine.Names
import FlightRec.Expressions.Stars
import FlightRec.Record.Indirect

namespace FlightRec.Agreement

open Chain Expressions Query Relation Update

/-! ## The table of types -/

/-- The columns that the expressions read; `NULL` is read as 0. -/
def typeRow (r : StoredType) : TypeRow :=
  { offset := r.offset, name := r.name, size := r.size.getD 0, parent := r.parent,
    flags := r.flags, indirect := r.indirect }

/-- `ADD_BASIC_TYPE` -/
def basicType (name : String) (size flags : Nat) : TypeRow :=
  { offset := -((size * 256 + flags : Nat) : Int), name := some name, size, parent := 0, flags,
    indirect := 0 }

/-- The types that are there for casts in expressions. -/
def basicTypes : List TypeRow :=
  [basicType "uint8_t" 1 2, basicType "uint16_t" 2 2, basicType "uint32_t" 4 2,
    basicType "uint64_t" 8 2, basicType "int8_t" 1 1, basicType "int16_t" 2 1,
    basicType "int32_t" 4 1, basicType "int64_t" 8 1, basicType "float" 4 3,
    basicType "double" 8 3, basicType "long double" 16 3]

/-- Table `type` when `alter_db` is done. -/
def typeTable (rows : List StoredType) : List TypeRow := rows.map typeRow ++ basicTypes

section
variable {S : Symbols} {rows : List StoredType} {o k : Nat} {t : TypeRow}

theorem mem_typeTable (hnodup : (rows.map (·.offset)).Nodup) :
    (t ∈ typeTable rows ∧ t.offset = o) ↔ ∃ r, typeAt rows o = some r ∧ t = typeRow r := by
  have hbasic : ∀ b ∈ basicTypes, b.offset < 0 := by decide
  constructor
  · rintro ⟨ht, hoffset⟩
    rcases List.mem_append.mp ht with hrow | hb
    · obtain ⟨r, hr, rfl⟩ := List.mem_map.mp hrow
      obtain rfl : r.offset = o := Int.ofNat.inj hoffset
      exact ⟨r, lookup_of_mem hnodup hr, rfl⟩
    · have hneg := hbasic t hb
      omega
  · rintro ⟨r, hr, rfl⟩
    obtain ⟨hmem, rfl⟩ := mem_of_lookup hr
    exact ⟨List.mem_append_left _ (List.mem_map_of_mem hmem), rfl⟩

theorem mem_typeRelation_iff (hnodup : (rows.map (·.offset)).Nodup) (hS : S.types = typeTable rows)
    {x : Int} : ∀ {fuel depth o : Nat}, (∃ d, (x, d) ∈ S.typeRelation fuel depth o) ↔
      ∃ p ∈ chain (parentAt rows) fuel o, x = p
  | 0, _, _ => by simp [Symbols.typeRelation, chain]
  | fuel + 1, depth, o => by
      have hstep (d : Nat) : (x, d) ∈ S.typeRelation (fuel + 1) depth o ↔
          (x = o ∧ d = depth) ∨ ∃ r, typeAt rows o = some r ∧
            (x, d) ∈ S.typeRelation fuel (depth + 1) r.parent := by
        rw [Symbols.typeRelation, List.mem_cons, Prod.mk.injEq, List.mem_flatMap]
        refine or_congr_right ⟨?_, ?_⟩
        · rintro ⟨t, ht, hd⟩
          rw [List.mem_filter, decide_eq_true_eq, hS, mem_typeTable hnodup] at ht
          obtain ⟨r, hr, rfl⟩ := ht
          exact ⟨r, hr, hd⟩
        · rintro ⟨r, hr, hd⟩
          refine ⟨typeRow r, ?_, hd⟩
          rw [List.mem_filter, decide_eq_true_eq, hS, mem_typeTable hnodup]
          exact ⟨r, hr, rfl⟩
      simp only [hstep]
      cases hat : typeAt rows o with
      | none =>
          have hnone : parentAt rows o = none := by
            rw [parentAt, hat]
            rfl
          rw [chain_succ_none hnone]
          simp
      | some r =>
          have hsome : parentAt rows o = some r.parent := by
            rw [parentAt, hat]
            rfl
          rw [chain_succ_some hsome]
          have ih : (∃ d, (x, d) ∈ S.typeRelation fuel (depth + 1) r.parent) ↔
              ∃ p ∈ chain (parentAt rows) fuel r.parent, x = p := mem_typeRelation_iff hnodup hS
          simp only [Option.some.injEq, exists_eq_left', exists_or, List.mem_cons, exists_eq_or_imp,
            exists_and_left, exists_eq, and_true, ih]

end

/-! ## What a name starts with -/

/-- The name of a variable that is the only one of its name to be seen from the scope. -/
structure Symbols.Means (S : Symbols) (scope : Nat) (name : String) (v : VarRow) : Prop where
  mem : v ∈ S.info.vars
  seen : S.inChain scope v
  named : v.name = some name
  unshadowed : S.Unshadowed scope v name
  word : lexWord name = .word name
  noType : S.getTypeDetails name = none

/-- The text of a name with so many stars before it. -/
def starText (k : Nat) (name : String) : List Lexeme :=
  List.replicate k (.symbol .star) ++ [lexWord name]

/-- The name is accepted in the scope with so many stars before it. -/
def Symbols.Accepts (S : Symbols) (T : Tables) (scope : Nat) (name : String) (k : Nat) : Prop :=
  ∃ ast, ExprParse (S.tables T) scope (starText k name) ast

section
variable {S : Symbols} {T : Tables} {scope k : Nat} {name : String} {v : VarRow}

theorem lex_stars (h : S.Means scope name v) :
    ∀ k, (starText k name).mapM (yylex (S.tables T)) = .ok (starTokens k name)
  | 0 => by
      have hnone : (S.tables T).typeDetails name = none := h.noType
      have hidentifier : yylex (S.tables T) (lexWord name) = .ok (.identifier name) := by
        rw [h.word, yylex, findVarOrType, hnone]
      rw [starText, List.replicate_zero, List.nil_append, List.mapM_cons, hidentifier]
      rfl
  | k + 1 => by
      rw [starText, List.replicate_succ, List.cons_append, List.mapM_cons, ← starText,
        lex_stars h k]
      rfl

theorem accepts_iff_ast (h : S.Means scope name v) : S.Accepts T scope name k ↔
    ∃ ast, (stars k (.identifier name)).ast (S.tables T) scope = .ok ast := by
  constructor
  · rintro ⟨ast, tokens, e, hlex, hderives, hast⟩
    cases (lex_stars h k).symm.trans hlex
    rw [hderives.of_starTokens k rfl] at hast
    exact ⟨ast, hast⟩
  · rintro ⟨ast, hast⟩
    exact ⟨ast, _, _, lex_stars h k, (derives_stars name k).loosen 11 rfl, hast⟩

theorem getVarDetails_indirect (h : S.Means scope name v) {t : TypeRow} (ht : t ∈ S.types)
    (hoffset : t.offset = S.typeOffset v.id) {id : Nat} {a : Attrs}
    (hdetails : S.getVarDetails name scope = some (id, a)) : a.indirect = t.indirect := by
  obtain ⟨⟨depth, id', a'⟩, hhead, hrest⟩ := Option.map_eq_some_iff.mp hdetails
  cases hrest
  obtain ⟨w, hw, ⟨hseen, hname⟩, t', ht', hoffset', _, _, b, _, _, hrow⟩ :=
    mem_varDetailRows.mp (orderBy_head hhead).1
  cases h.unshadowed w hw hseen hname
  cases S.type_unique ht' ht (hoffset'.trans hoffset.symm)
  cases hrow
  rfl

theorem getVarDetails_isSome (h : S.Means scope name v) :
    (∃ id a, S.getVarDetails name scope = some (id, a)) ↔ ∃ depth, S.Direct v depth := by
  constructor
  · rintro ⟨id, a, hdetails⟩
    obtain ⟨⟨depth, id', a'⟩, hhead, _⟩ := Option.map_eq_some_iff.mp hdetails
    obtain ⟨w, hw, ⟨hseen, hname⟩, _, hdirect⟩ := direct_of_row (orderBy_head hhead).1
    cases h.unshadowed w hw hseen hname
    exact ⟨depth, hdirect⟩
  · rintro ⟨depth, hdirect⟩
    obtain ⟨a, hrow⟩ := row_of_direct h.mem ⟨h.seen, h.named⟩ hdirect
    cases hhead : (orderBy Prod.fst (S.varDetailRows name scope)).head? with
    | none => exact absurd hrow (orderBy_head_none hhead _)
    | some x => exact ⟨x.2.1, x.2.2, by rw [Symbols.getVarDetails, hhead]; rfl⟩

theorem accepts_iff (h : S.Means scope name v) {t : TypeRow} (ht : t ∈ S.types)
    (hoffset : t.offset = S.typeOffset v.id) {m : Nat} (hm : t.indirect = m) :
    S.Accepts T scope name k ↔ k ≤ m ∧ ∃ depth, S.Direct v depth := by
  rw [accepts_iff_ast h, ← getVarDetails_isSome h]
  cases hdetails : S.getVarDetails name scope with
  | none =>
      have hunknown : (Expr.identifier name).ast (S.tables T) scope =
          .error ("Unknown variable '" ++ name ++ "'") := by
        have hnone : (S.tables T).varDetails name scope = none := hdetails
        rw [Expr.ast, identifierAction, hnone]
      refine iff_of_false ?_ ?_
      · rintro ⟨ast, hast⟩
        cases (stars_ast_error hunknown k).symm.trans hast
      · rintro ⟨_, _, _, h⟩
        cases h
  | some d =>
      obtain ⟨id, a⟩ := d
      have hast : (Expr.identifier name).ast (S.tables T) scope = .ok (.var a name id) :=
        identifierAction_ok.mpr ⟨id, a, hdetails, rfl⟩
      have hindirect : (AstNode.var a name id).indirect = m :=
        (getVarDetails_indirect h ht hoffset hdetails).trans hm
      obtain ⟨haccepts, hrejects⟩ := stars_ast hast hindirect k
      constructor
      · rintro ⟨ast, hast⟩
        refine ⟨?_, id, a, rfl⟩
        by_contra hlt
        exact hrejects (Nat.lt_of_not_le hlt) ast hast
      · rintro ⟨hle, _⟩
        obtain ⟨ast, hast, _⟩ := haccepts hle
        exact ⟨ast, hast⟩

end

/-! ## How indirect types are -/

section
variable {g : TypeGraph} {rows' : List StoredType} {o k e : Nat} {r r' : StoredType}

theorem direct_iff {S : Symbols} {v : VarRow} (hacyclic : Acyclic (parentAt g.rows))
    (h : alterTypes g.members g.rows = some rows') (hS : S.types = typeTable rows')
    (hoffset : S.typeOffset v.id = o) (hr' : typeAt rows' o = some r') :
    (∃ depth, S.Direct v depth) ↔ Based g o := by
  have hnodup : (rows'.map (·.offset)).Nodup := (alterTypes_offsets h).symm ▸ TypeGraph.rows_nodup
  have hfuel : g.rows.length < S.types.length + 1 := by
    have hlength : rows'.length = g.rows.length := by
      rw [← List.length_map (·.offset), alterTypes_offsets h, List.length_map]
    rw [hS, typeTable, List.length_append, List.length_map, hlength]
    omega
  rw [TypeGraph.based_iff hacyclic h]
  constructor
  · rintro ⟨depth, t, ht, htoffset, x, hx, _, b, hb, hbx, hdirect⟩
    rw [htoffset, hoffset] at hx
    obtain ⟨p, hp, hxp⟩ := (mem_typeRelation_iff hnodup hS).mp ⟨x.2, hx⟩
    rw [TypeGraph.alterTypes_parents hacyclic h, TypeGraph.mem_chain_parentAt hacyclic hfuel] at hp
    obtain ⟨q, hq, rfl⟩ := (mem_typeTable hnodup).mp ⟨hS ▸ hb, hbx.trans hxp⟩
    exact ⟨p, hp, q, hq, Int.ofNat.inj hdirect⟩
  · rintro ⟨p, hp, q, hq, hdirect⟩
    rw [← TypeGraph.mem_chain_parentAt hacyclic hfuel,
      ← TypeGraph.alterTypes_parents hacyclic h] at hp
    obtain ⟨d, hd⟩ : ∃ d, ((p : Int), d) ∈ S.typeRelation (S.types.length + 1) 0 o :=
      (mem_typeRelation_iff hnodup hS).mpr ⟨p, hp, rfl⟩
    obtain ⟨hb, hboffset⟩ := (mem_typeTable hnodup).mpr ⟨q, hq, rfl⟩
    obtain ⟨ht, htoffset⟩ := (mem_typeTable hnodup).mpr ⟨r', hr', rfl⟩
    refine ⟨d, typeRow r', hS ▸ ht, htoffset.trans (by rw [hoffset]), (p, d), ?_, rfl, typeRow q,
      hS ▸ hb, hboffset, ?_⟩
    · rwa [htoffset]
    · exact congrArg Int.ofNat hdirect

/-- **Levels of indirection**: the column of a type has the number of its pointers if and
only if there are no more than two of them for a pointer and one for a qualified type.
Then, and if it does not end in `void`, as many stars are accepted before the name of a
variable of the type, and no more. -/
theorem indirections_right_iff (hacyclic : Acyclic (parentAt g.rows))
    (h : alterTypes g.members g.rows = some rows') (hcount : PointerCount g o k e)
    (hr : typeAt g.rows o = some r) (hr' : typeAt rows' o = some r') :
    (r'.indirect = k ↔ Counted g r k e) ∧
      ∀ (S : Symbols) (T : Tables) (scope : Nat) (name : String) (v : VarRow),
        S.types = typeTable rows' → S.Means scope name v → S.typeOffset v.id = o →
          (S.Accepts T scope name k ∧ ¬ S.Accepts T scope name (k + 1) ↔
            Counted g r k e ∧ Based g o) := by
  have hcolumn := TypeGraph.indirect_iff hacyclic h hcount hr hr'
  refine ⟨hcolumn, fun S T scope name v hS hmeans hoffset => ?_⟩
  have hnodup : (rows'.map (·.offset)).Nodup := (alterTypes_offsets h).symm ▸ TypeGraph.rows_nodup
  obtain ⟨ht, htoffset⟩ := (mem_typeTable hnodup).mpr ⟨r', hr', rfl⟩
  have haccepts (n : Nat) : S.Accepts T scope name n ↔ n ≤ r'.indirect ∧ Based g o := by
    rw [← direct_iff hacyclic h hS hoffset hr']
    exact accepts_iff hmeans (hS ▸ ht) (htoffset.trans (by rw [hoffset])) rfl
  rw [← hcolumn, haccepts, haccepts]
  constructor
  · rintro ⟨⟨hle, hbased⟩, hnot⟩
    refine ⟨Nat.le_antisymm ?_ hle, hbased⟩
    exact Nat.not_lt.mp fun hlt => hnot ⟨hlt, hbased⟩
  · rintro ⟨rfl, hbased⟩
    exact ⟨⟨Nat.le_refl _, hbased⟩, fun h => Nat.not_succ_le_self _ h.1⟩

end

/-! ### Examples -/

/-- `int`, `int *`, `int **` and `int ***`. -/
def pointerTower : TypeGraph where
  dies := [⟨1, "int", .base 4 .signed⟩, ⟨2, none, .custom .pointer 8 (some 1)⟩,
    ⟨3, none, .custom .pointer 8 (some 2)⟩, ⟨4, none, .custom .pointer 8 (some 3)⟩]
  offsets := by decide
  nonzero := by decide
  sizes := by simp

theorem acyclic_pointerTower : Acyclic (parentAt pointerTower.rows) := by
  have hless : ∀ r ∈ pointerTower.rows, r.parent < r.offset := by decide
  refine acyclic_of_lt (f := id) fun a b hab => ?_
  obtain ⟨r, hr, rfl⟩ := Option.map_eq_some_iff.mp hab
  obtain ⟨hmem, rfl⟩ := mem_of_lookup hr
  exact hless r hmem

theorem count_pointerTower : PointerCount pointerTower 3 2 1 :=
  .pointer (d := ⟨3, none, .custom .pointer 8 (some 2)⟩) (by decide) rfl
    (.pointer (d := ⟨2, none, .custom .pointer 8 (some 1)⟩) (by decide) rfl
      (.ends (d := ⟨1, "int", .base 4 .signed⟩) (by decide) rfl))

/-- A program with a global `int **p`. -/
def oneTower : Symbols where
  info := { vars := [⟨1, some "p", 0, 1, 1⟩], scopeAncestors := [], members := [],
            varLocation := fun _ _ => none, arrayInfo := fun _ _ => none,
            shown := fun _ _ => .plain, parsed := fun _ _ => none,
            evaluated := fun _ _ _ => .plain }
  types := typeTable ((alterTypes pointerTower.members pointerTower.rows).getD [])
  typeOffset := fun _ => 3
  offsets := by decide +kernel
  located := fun _ _ _ _ h => by cases h

theorem means_oneTower : oneTower.Means 0 "p" ⟨1, some "p", 0, 1, 1⟩ where
  mem := List.mem_singleton_self _
  seen := .inl rfl
  named := rfl
  unshadowed := fun _ hw _ _ => List.mem_singleton.mp hw
  word := rfl
  noType := by decide +kernel

theorem indirections_right_iff_tower : ∃ rows' r r',
    alterTypes pointerTower.members pointerTower.rows = some rows' ∧
      typeAt pointerTower.rows 3 = some r ∧ typeAt rows' 3 = some r' ∧
      (r'.indirect = 2 ↔ Counted pointerTower r 2 1) ∧
      (oneTower.Accepts noTables 0 "p" 2 ∧ ¬ oneTower.Accepts noTables 0 "p" (2 + 1) ↔
        Counted pointerTower r 2 1 ∧ Based pointerTower 3) := by
  obtain ⟨hcolumn, hstars⟩ :=
    indirections_right_iff acyclic_pointerTower rfl count_pointerTower rfl rfl
  exact ⟨_, _, _, rfl, rfl, rfl, hcolumn, hstars oneTower noTables 0 "p" _ rfl means_oneTower rfl⟩

/-- Three pointers count as two. -/
theorem tower_indirect : ∃ rows' r', Acyclic (parentAt pointerTower.rows) ∧
    alterTypes pointerTower.members pointerTower.rows = some rows' ∧
      PointerCount pointerTower 4 3 1 ∧ typeAt rows' 4 = some r' ∧ r'.indirect = 2 := by
  have hcount : PointerCount pointerTower 4 3 1 :=
    .pointer (d := ⟨4, none, .custom .pointer 8 (some 3)⟩) (by decide) rfl count_pointerTower
  exact ⟨_, _, acyclic_pointerTower, rfl, hcount, rfl, rfl⟩

end FlightRec.Agreement
