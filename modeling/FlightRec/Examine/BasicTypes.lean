/-
# `FlightRec.Examine.BasicTypes` — what the parser knows of a type

A node has the offset, the kind and the size of one type, the most basic one of its
expression, and a number of indirections.  The type comes from a query where the parser
meets a variable, a field or an item of an array (get_var_details, get_field_details and
get_base_type_details of examine/expressions/expression.c), and operators keep it:

    a variable              the first type behind its own that has no indirections
    a field                 the last type behind its own
    an item of an array     the last type behind that of the array

`Keeps` says so of any accepted expression, in terms of the rows (`keeps_ast`), and
`Basic` which variable or member it is, and when an operator computes a number instead
(`basic_ast`).
-/
import FlightRec.Examine.Dereferences
import FlightRec.Expressions.Lvalues
import FlightRec.Record.CTypes

namespace FlightRec.Agreement

open Chain Expressions Query Relation Update

/-! ## Queries -/

/-- The rows of the query of `get_field_details`, with the depth they are ordered by. -/
def Symbols.fieldDetailRows (S : Symbols) (name : String) (offset : Int) :
    List (Nat × Attrs × Nat) :=
  (S.info.members.filter fun m => (m.offset : Int) = offset ∧ m.name = some name).flatMap fun m =>
    (S.types.filter (·.offset = (m.type : Int))).flatMap fun t =>
      (S.typeRelation (S.types.length + 1) 0 t.offset).flatMap fun r =>
        (S.types.filter (·.offset = r.1)).map fun a =>
          (r.2, ⟨a.offset, a.kind, a.size, t.indirect⟩, m.start)

/-- `get_field_details` -/
def Symbols.getFieldDetails (S : Symbols) (name : String) (offset : Int) : Option (Attrs × Nat) :=
  ((orderByDesc Prod.fst (S.fieldDetailRows name offset)).head?).map Prod.snd

/-- The rows of the query of `get_base_type_details`. -/
def Symbols.baseTypeRows (S : Symbols) (offset : Int) : List (Nat × Attrs) :=
  (S.types.filter (·.offset = offset)).flatMap fun t =>
    ((S.typeRelation (S.types.length + 1) 0 t.offset).filter (0 < ·.2)).flatMap fun r =>
      (S.types.filter (·.offset = r.1)).map fun a =>
        (r.2, ⟨a.offset, a.kind, a.size, t.indirect⟩)

/-- `get_base_type_details` -/
def Symbols.getBaseTypeDetails (S : Symbols) (offset : Int) : Option Attrs :=
  ((orderByDesc Prod.fst (S.baseTypeRows offset)).head?).map Prod.snd

/-- `get_struct_details` -/
def Symbols.getStructDetails (S : Symbols) (name : String) : Option (Int × TKind × Nat) :=
  (S.types.find? fun t => (t.kind = .struct ∨ t.kind = .union) ∧ t.name = some name).map
    fun t => (t.offset, t.kind, t.size)

/-- All that the parser looks up. -/
def Symbols.allTables (S : Symbols) : Tables where
  varDetails := S.getVarDetails
  fieldDetails := S.getFieldDetails
  baseTypeDetails := S.getBaseTypeDetails
  structDetails := S.getStructDetails
  typeDetails := S.getTypeDetails

/-! ## Basic types -/

/-- The first type behind a type, or the type itself, that has no indirections. -/
inductive FirstDirect (rows : List StoredType) : Nat → StoredType → Prop
  | here {o : Nat} {r : StoredType} : typeAt rows o = some r → r.indirect = 0 →
      FirstDirect rows o r
  | behind {o : Nat} {r b : StoredType} : typeAt rows o = some r → r.indirect ≠ 0 →
      FirstDirect rows r.parent b → FirstDirect rows o b

/-- The last type behind a type, or the type itself. -/
inductive LastBehind (rows : List StoredType) : Nat → StoredType → Prop
  | here {o : Nat} {r : StoredType} : typeAt rows o = some r → typeAt rows r.parent = none →
      LastBehind rows o r
  | behind {o : Nat} {r b : StoredType} : typeAt rows o = some r → LastBehind rows r.parent b →
      LastBehind rows o b

/-- The table of types has these rows, and those that are there for casts. -/
structure Tabled (rows : List StoredType) (S : Symbols) : Prop where
  table : S.types = typeTable rows
  nodup : (rows.map (·.offset)).Nodup
  acyclic : Acyclic (parentAt rows)

/-- A row without its size. -/
def unsized (r : StoredType) : StoredType := { r with size := none }

/-- A recorded program with right sizes in its table of types.  The sizes that `alter_db`
finds need not be right; the other columns are those that it leaves. -/
structure Program where
  graph : TypeGraph
  recorded : List StoredType
  rows : List StoredType
  symbols : Symbols
  acyclic : Acyclic (parentAt graph.rows)
  altered : alterTypes graph.members graph.rows = some recorded
  resized : rows.map unsized = recorded.map unsized
  table : symbols.types = typeTable rows
  sizes : AllSized graph rows
  pointers : WidePointers graph

/-- The parser's tables. -/
def Program.tables (P : Program) : Tables := P.symbols.allTables

/-- What a node has of a row, with the indirections of another. -/
def kept (b : StoredType) (indirect : Nat) : Attrs :=
  ⟨(typeRow b).offset, (typeRow b).kind, (typeRow b).size, indirect⟩

/-- Operators whose value is a number, as far as it is not that of a pointer. -/
def isOperation : Expr → Bool
  | .unaryOp .neg _ | .unaryOp .inv _ | .unaryOp .not _ => true
  | .sizeofExpr _ | .sizeofType _ | .binaryOp .. => true
  | _ => false

/-- Operations on numbers, whatever their operands are. -/
def isNumeral : Expr → Bool
  | .binaryOp .add _ _ | .binaryOp .sub _ _ => false
  | e => isOperation e

/-- What the node of an expression has of a type. -/
inductive Program.Keeps (P : Program) (scope : Nat) : Expr → Attrs → Prop
  | identifier {name : String} {v : VarRow} {t b : StoredType} : v ∈ P.symbols.info.vars →
      P.symbols.inChain scope v → v.name = some name →
      typeAt P.rows (P.symbols.typeOffset v.id) = some t →
      FirstDirect P.rows (P.symbols.typeOffset v.id) b →
      P.Keeps scope (.identifier name) (kept b t.indirect)
  | constant (c : Constant) : P.Keeps scope (.constant c) c.node.attrs
  | pointerItem {p k : Expr} {a : Attrs} : P.Keeps scope p a → a.typeKind ≠ .array →
      a.indirect ≠ 0 → P.Keeps scope (.item p k) { a with indirect := a.indirect - 1 }
  | arrayItem {p k : Expr} {a : Attrs} {t b : StoredType} : P.Keeps scope p a →
      a.typeKind = .array → typeAt P.rows t.offset = some t → a.typeOffset = t.offset →
      LastBehind P.rows t.parent b → P.Keeps scope (.item p k) (kept b t.indirect)
  | field {e : Expr} {name : String} {a : Attrs} {m : MemberRow} {t b : StoredType} :
      P.Keeps scope e a → m ∈ P.symbols.info.members → a.typeOffset = m.offset →
      m.name = some name → typeAt P.rows m.type = some t → LastBehind P.rows m.type b →
      P.Keeps scope (.field e name) (kept b t.indirect)
  | arrow {e : Expr} {name : String} {a : Attrs} {m : MemberRow} {t b : StoredType} :
      P.Keeps scope e a → m ∈ P.symbols.info.members → a.typeOffset = m.offset →
      m.name = some name → typeAt P.rows m.type = some t → LastBehind P.rows m.type b →
      P.Keeps scope (.arrow e name) (kept b t.indirect)
  | plus {e : Expr} {a : Attrs} : P.Keeps scope e a → P.Keeps scope (.plus e) a
  | addr {e : Expr} {a : Attrs} : P.Keeps scope e a →
      P.Keeps scope (.unaryOp .addr e) { a with indirect := a.indirect + 1 }
  | deref {e : Expr} {a : Attrs} : P.Keeps scope e a → a.indirect ≠ 0 →
      P.Keeps scope (.unaryOp .deref e) { a with indirect := a.indirect - 1 }
  | cast (a : Attrs) (e : Expr) : P.Keeps scope (.cast a e) a
  | offset {op : BinaryOp} {p k : Expr} {a : Attrs} : P.Keeps scope p a → a.indirect ≠ 0 →
      op = .add ∨ op = .sub → P.Keeps scope (.binaryOp op p k) a
  | number {e : Expr} {a : Attrs} : isOperation e → a.indirect = 0 → a.typeKind.isNumeric →
      P.Keeps scope e a

/-- The field of a name that the query finds, with its declared type and the last type
behind that. -/
inductive Program.FieldType (P : Program) (offset : Int) (name : String) :
    StoredType → StoredType → Prop
  | found {m : MemberRow} {t b : StoredType} : m ∈ P.symbols.info.members →
      (m.offset : Int) = offset → m.name = some name → typeAt P.rows m.type = some t →
      LastBehind P.rows m.type b →
      P.tables.fieldDetails name offset = some (kept b t.indirect, m.start) →
      P.FieldType offset name t b

/-- The type of what an operator computes. -/
def word (kind : TKind) : Attrs := { typeKind := kind, size := 8 }

/-- The basic type of an expression: that of the variable or the field that it starts from,
and 64 bits where an operator computes a number. -/
inductive Program.Basic (P : Program) (scope : Nat) : Expr → Attrs → Prop
  | identifier {name : String} {id : Nat} {a : Attrs} {t b : StoredType} :
      P.tables.varDetails name scope = some (id, a) →
      typeAt P.rows (P.symbols.typeOffset id) = some t →
      FirstDirect P.rows (P.symbols.typeOffset id) b →
      P.Basic scope (.identifier name) (kept b t.indirect)
  | constant (c : Constant) : P.Basic scope (.constant c) c.node.attrs
  | pointerItem {p k : Expr} {a : Attrs} : P.Basic scope p a → a.typeKind ≠ .array →
      a.indirect ≠ 0 → P.Basic scope (.item p k) { a with indirect := a.indirect - 1 }
  | arrayItem {p k : Expr} {a : Attrs} {t b : StoredType} : P.Basic scope p a →
      a.typeKind = .array → typeAt P.rows t.offset = some t → a.typeOffset = t.offset →
      LastBehind P.rows t.parent b → P.Basic scope (.item p k) (kept b t.indirect)
  | field {e : Expr} {name : String} {a : Attrs} {t b : StoredType} : P.Basic scope e a →
      P.FieldType a.typeOffset name t b → P.Basic scope (.field e name) (kept b t.indirect)
  | arrow {e : Expr} {name : String} {a : Attrs} {t b : StoredType} : P.Basic scope e a →
      P.FieldType a.typeOffset name t b → P.Basic scope (.arrow e name) (kept b t.indirect)
  | plus {e : Expr} {a : Attrs} : P.Basic scope e a → P.Basic scope (.plus e) a
  | addr {e : Expr} {a : Attrs} : P.Basic scope e a →
      P.Basic scope (.unaryOp .addr e) { a with indirect := a.indirect + 1 }
  | deref {e : Expr} {a : Attrs} : P.Basic scope e a → a.indirect ≠ 0 →
      P.Basic scope (.unaryOp .deref e) { a with indirect := a.indirect - 1 }
  | cast (a : Attrs) (e : Expr) : P.Basic scope (.cast a e) a
  | offset {op : BinaryOp} {p k : Expr} {a c : Attrs} : P.Basic scope p a → P.Basic scope k c →
      a.indirect ≠ 0 → c.indirect = 0 → op = .add ∨ op = .sub → P.Basic scope (.binaryOp op p k) a
  | difference {p k : Expr} {a c : Attrs} {kind : TKind} : P.Basic scope p a →
      P.Basic scope k c → a.indirect ≠ 0 → c.indirect ≠ 0 → kind.isNumeric →
      P.Basic scope (.binaryOp .sub p k) (word kind)
  | sum {op : BinaryOp} {p k : Expr} {a : Attrs} {kind : TKind} : P.Basic scope p a →
      a.indirect = 0 → op = .add ∨ op = .sub → kind.isNumeric →
      P.Basic scope (.binaryOp op p k) (word kind)
  | numeral {e : Expr} {kind : TKind} : isNumeral e → kind.isNumeric →
      P.Basic scope e (word kind)

/-! ## What the queries find -/

theorem unsized_typeAt {rows : List StoredType} {o : Nat} :
    typeAt (rows.map unsized) o = (typeAt rows o).map unsized :=
  map_typeAt fun _ => rfl

theorem Program.recorded_row (P : Program) {o : Nat} {r : StoredType}
    (hr : typeAt P.rows o = some r) : ∃ q, typeAt P.recorded o = some q ∧
      q.parent = r.parent ∧ q.flags = r.flags ∧ q.indirect = r.indirect := by
  have hsame : (typeAt P.recorded o).map unsized = some (unsized r) := by
    rw [← unsized_typeAt, ← P.resized, unsized_typeAt, hr]
    rfl
  obtain ⟨q, hq, heq⟩ := Option.map_eq_some_iff.mp hsame
  obtain ⟨-, -, -, -, hparent, hflags, hindirect⟩ := StoredType.mk.inj heq
  exact ⟨q, hq, hparent, hflags, hindirect⟩

theorem Program.offsets (P : Program) :
    P.rows.map (·.offset) = P.graph.rows.map (·.offset) := by
  have hsame := congrArg (List.map StoredType.offset) P.resized
  rw [List.map_map, List.map_map] at hsame
  exact hsame.trans (alterTypes_offsets P.altered)

theorem Program.parents (P : Program) : parentAt P.rows = parentAt P.graph.rows := by
  rw [← TypeGraph.alterTypes_parents P.acyclic P.altered]
  funext o
  have hsame := congrArg (Option.map StoredType.parent)
    (unsized_typeAt.symm.trans ((congrArg (typeAt · o) P.resized).trans unsized_typeAt))
  rw [Option.map_map, Option.map_map] at hsame
  exact hsame

theorem Program.row_of_graph (P : Program) {o : Nat} {r : StoredType}
    (hr : typeAt P.graph.rows o = some r) : ∃ r', typeAt P.rows o = some r' := by
  have hmem : o ∈ P.rows.map (·.offset) := by
    rw [P.offsets]
    exact lookup_isSome.mp (Option.isSome_iff_exists.mpr ⟨r, hr⟩)
  exact Option.isSome_iff_exists.mp (lookup_isSome.mpr hmem)

theorem Program.tabled (P : Program) : Tabled P.rows P.symbols where
  table := P.table
  nodup := P.offsets.symm ▸ TypeGraph.rows_nodup
  acyclic := by
    rw [P.parents]
    exact P.acyclic

section
variable {rows : List StoredType} {S : Symbols} {o n depth fuel : Nat} {x : Int} {d p : Nat}
  {r b c : StoredType}

theorem Tabled.mem_types (hT : Tabled rows S) {t : TypeRow} :
    (t ∈ S.types ∧ t.offset = o) ↔ ∃ r, typeAt rows o = some r ∧ t = typeRow r := by
  rw [hT.table]
  exact mem_typeTable hT.nodup

theorem parentAt_row (hr : typeAt rows o = some r) : parentAt rows o = some r.parent := by
  rw [parentAt, hr]
  rfl

theorem Tabled.mem_relation (hT : Tabled rows S) {fuel depth o : Nat} :
    (x, d) ∈ S.typeRelation fuel depth o ↔
      ∃ n p, n < fuel ∧ d = depth + n ∧ x = (p : Nat) ∧ Walk (parentAt rows) n o p := by
  induction fuel generalizing depth o with
  | zero =>
      refine iff_of_false List.not_mem_nil ?_
      rintro ⟨n, _, hn, _⟩
      exact Nat.not_lt_zero n hn
  | succ fuel ih =>
      rw [Symbols.typeRelation, List.mem_cons, Prod.mk.injEq, List.mem_flatMap]
      constructor
      · rintro (⟨rfl, rfl⟩ | ⟨t, ht, hd⟩)
        · exact ⟨0, o, Nat.succ_pos _, rfl, rfl, .refl o⟩
        · rw [List.mem_filter, decide_eq_true_eq, hT.mem_types] at ht
          obtain ⟨r, hr, rfl⟩ := ht
          obtain ⟨n, p, hn, rfl, rfl, hwalk⟩ := ih.mp hd
          refine ⟨n + 1, p, Nat.succ_lt_succ hn, ?_, rfl, .step (parentAt_row hr) hwalk⟩
          rw [Nat.add_assoc, Nat.add_comm 1]
      · rintro ⟨n, p, hn, rfl, rfl, hwalk⟩
        cases hwalk with
        | refl => exact .inl ⟨rfl, rfl⟩
        | @step n _ q _ hnext hwalk =>
            obtain ⟨r, hr, rfl⟩ := Option.map_eq_some_iff.mp hnext
            refine .inr ⟨typeRow r, ?_, ih.mpr ⟨n, p, Nat.lt_of_succ_lt_succ hn, ?_, rfl, hwalk⟩⟩
            · rw [List.mem_filter, decide_eq_true_eq, hT.mem_types]
              exact ⟨r, hr, rfl⟩
            · rw [Nat.add_assoc, Nat.add_comm 1]

theorem Tabled.walk_le (hT : Tabled rows S) (h : Walk (parentAt rows) n o p) :
    n ≤ S.types.length := by
  have hrows (y z : Nat) (hyz : parentAt rows y = some z) : y ∈ rows.map (·.offset) := by
    obtain ⟨r, hr, _⟩ := Option.map_eq_some_iff.mp hyz
    exact lookup_isSome.mp (Option.isSome_iff_exists.mpr ⟨r, hr⟩)
  have hle := h.le_length hT.acyclic fun y z _ hyz => hrows y z hyz
  rw [List.length_map] at hle
  rw [hT.table, typeTable, List.length_append, List.length_map]
  omega

theorem firstDirect_of_walk (h : Walk (parentAt rows) n o p) (hb : typeAt rows p = some b)
    (hdirect : b.indirect = 0)
    (hfirst : ∀ m q c, m < n → Walk (parentAt rows) m o q → typeAt rows q = some c →
      c.indirect ≠ 0) : FirstDirect rows o b := by
  induction h with
  | refl => exact .here hb hdirect
  | step hnext _ ih =>
      obtain ⟨r, hr, rfl⟩ := Option.map_eq_some_iff.mp hnext
      refine .behind hr (hfirst 0 _ r (Nat.succ_pos _) (.refl _) hr) (ih hb ?_)
      intro m q c hm hwalk hc
      exact hfirst (m + 1) q c (Nat.succ_lt_succ hm) (.step hnext hwalk) hc

theorem lastBehind_of_walk (h : Walk (parentAt rows) n o p) (hb : typeAt rows p = some b)
    (hlast : typeAt rows b.parent = none) : LastBehind rows o b := by
  induction h with
  | refl => exact .here hb hlast
  | step hnext _ ih =>
      obtain ⟨r, hr, rfl⟩ := Option.map_eq_some_iff.mp hnext
      exact .behind hr (ih hb)

/-- What `ORDER BY depth DESC` finds is the last type: another one behind it would be found. -/
theorem lastBehind_of_deepest (hT : Tabled rows S) (hwalk : Walk (parentAt rows) n o p)
    (hb : typeAt rows p = some b)
    (hdeepest : ∀ m q c, m < S.types.length + 1 → Walk (parentAt rows) m o q →
      typeAt rows q = some c → m ≤ n) : LastBehind rows o b := by
  refine lastBehind_of_walk hwalk hb ?_
  by_contra hnext
  obtain ⟨c, hc⟩ := Option.ne_none_iff_exists'.mp hnext
  have hlonger : Walk (parentAt rows) (n + 1) o b.parent := hwalk.tail (parentAt_row hb)
  have hle := hdeepest (n + 1) b.parent c (Nat.lt_succ_of_le (hT.walk_le hlonger)) hlonger hc
  exact Nat.not_succ_le_self n hle

variable {scope id start : Nat} {name : String} {a : Attrs} {offset : Int}

theorem getVarDetails_some (hT : Tabled rows S) (h : S.getVarDetails name scope = some (id, a)) :
    ∃ v ∈ S.info.vars, S.inChain scope v ∧ v.name = some name ∧ v.id = id ∧
      ∃ t b, typeAt rows (S.typeOffset v.id) = some t ∧
        FirstDirect rows (S.typeOffset v.id) b ∧ a = kept b t.indirect := by
  obtain ⟨⟨depth, id', a'⟩, hhead, hrest⟩ := Option.map_eq_some_iff.mp h
  cases hrest
  obtain ⟨hmem, hleast⟩ := orderBy_head hhead
  obtain ⟨v, hv, hseen, t, ht, htoffset, ⟨x, d⟩, hx, b, hb, ⟨hbx, hdirect⟩, hrow⟩ :=
    mem_varDetailRows.mp hmem
  cases hrow
  have hx' := hx
  rw [htoffset, hT.mem_relation] at hx'
  obtain ⟨n, p, _, hd, rfl, hwalk⟩ := hx'
  rw [Nat.zero_add] at hd
  obtain ⟨t', ht', rfl⟩ := hT.mem_types.mp ⟨ht, htoffset⟩
  obtain ⟨b', hb', rfl⟩ := hT.mem_types.mp ⟨hb, hbx⟩
  refine ⟨v, hv, hseen.1, hseen.2, rfl, t', b', ht', ?_, rfl⟩
  refine firstDirect_of_walk hwalk hb' (Int.ofNat.inj hdirect) fun m q c hm hq hc hzero => ?_
  -- a type without indirections that is nearer would have been found
  obtain ⟨hctypes, hcoffset⟩ := hT.mem_types.mpr ⟨c, hc, rfl⟩
  have hfuel : m < S.types.length + 1 := Nat.lt_succ_of_le (hT.walk_le hq)
  have hnear : ((q : Int), m) ∈ S.typeRelation (S.types.length + 1) 0
      (typeRow t').offset := by
    rw [htoffset, hT.mem_relation]
    exact ⟨m, q, hfuel, (Nat.zero_add m).symm, rfl, hq⟩
  have hle : d ≤ m := hleast (m, v.id, ⟨(typeRow c).offset, (typeRow c).kind, (typeRow c).size,
    (typeRow t').indirect⟩) <| mem_varDetailRows.mpr ⟨v, hv, hseen, typeRow t', ht, htoffset, _,
      hnear, typeRow c, hctypes, ⟨hcoffset, congrArg Int.ofNat hzero⟩, rfl⟩
  omega

theorem typeAt_offset (h : typeAt rows o = some b) : b.offset = o := (mem_of_lookup h).2

theorem FirstDirect.walk (h : FirstDirect rows o b) :
    b.indirect = 0 ∧ ∃ n p, Walk (parentAt rows) n o p ∧ typeAt rows p = some b := by
  induction h with
  | here hr hdirect => exact ⟨hdirect, 0, _, .refl _, hr⟩
  | behind hr _ _ ih =>
      obtain ⟨hdirect, n, p, hwalk, hb⟩ := ih
      exact ⟨hdirect, n + 1, p, .step (parentAt_row hr) hwalk, hb⟩

theorem FirstDirect.unique (h : FirstDirect rows o b) (h' : FirstDirect rows o c) : b = c := by
  induction h with
  | here hr hdirect =>
      cases h' with
      | here hr' _ => exact Option.some.inj (hr.symm.trans hr')
      | behind hr' hindirect _ =>
          cases hr.symm.trans hr'
          exact absurd hdirect hindirect
  | behind hr hindirect _ ih =>
      cases h' with
      | here hr' hdirect =>
          cases hr.symm.trans hr'
          exact absurd hdirect hindirect
      | behind hr' _ hrest =>
          cases hr.symm.trans hr'
          exact ih hrest

theorem getVarDetails_iff (hT : Tabled rows S) {v : VarRow} (hv : v ∈ S.info.vars)
    (hseen : S.inChain scope v) (hname : v.name = some name)
    (hunshadowed : S.Unshadowed scope v name) :
    S.getVarDetails name scope = some (id, a) ↔ id = v.id ∧ ∃ t b,
      typeAt rows (S.typeOffset v.id) = some t ∧ FirstDirect rows (S.typeOffset v.id) b ∧
        a = kept b t.indirect := by
  have hfound {id a} (hdetails : S.getVarDetails name scope = some (id, a)) :
      id = v.id ∧ ∃ t b, typeAt rows (S.typeOffset v.id) = some t ∧
        FirstDirect rows (S.typeOffset v.id) b ∧ a = kept b t.indirect := by
    obtain ⟨w, hw, hwseen, hwname, hid, t, b, ht, hb, ha⟩ := getVarDetails_some hT hdetails
    obtain rfl := hunshadowed w hw hwseen hwname
    exact ⟨hid.symm, t, b, ht, hb, ha⟩
  refine ⟨hfound, ?_⟩
  rintro ⟨rfl, t, b, ht, hb, rfl⟩
  obtain ⟨hdirect, n, p, hwalk, hp⟩ := hb.walk
  obtain ⟨httypes, htoffset⟩ := hT.mem_types.mpr ⟨t, ht, rfl⟩
  obtain ⟨hbtypes, hboffset⟩ := hT.mem_types.mpr ⟨b, hp, rfl⟩
  have hbehind : ((p : Int), n) ∈ S.typeRelation (S.types.length + 1) 0 (typeRow t).offset := by
    rw [htoffset, hT.mem_relation]
    exact ⟨n, p, Nat.lt_succ_of_le (hT.walk_le hwalk), (Nat.zero_add n).symm, rfl, hwalk⟩
  have hrow : (n, v.id, kept b t.indirect) ∈ S.varDetailRows name scope :=
    mem_varDetailRows.mpr ⟨v, hv, ⟨hseen, hname⟩, typeRow t, httypes, htoffset, _, hbehind,
      typeRow b, hbtypes, ⟨hboffset, congrArg Int.ofNat hdirect⟩, rfl⟩
  cases hhead : (orderBy Prod.fst (S.varDetailRows name scope)).head? with
  | none => exact absurd hrow (orderBy_head_none hhead _)
  | some row =>
      have hdetails : S.getVarDetails name scope = some row.2 :=
        congrArg (Option.map Prod.snd) hhead
      obtain ⟨hid, t', b', ht', hb', ha⟩ := hfound hdetails
      cases ht.symm.trans ht'
      obtain rfl := hb.unique hb'
      rw [hdetails]
      exact congrArg some (Prod.ext hid ha)

theorem mem_fieldDetailRows (hT : Tabled rows S) {row : Nat × Attrs × Nat} :
    row ∈ S.fieldDetailRows name offset ↔
      ∃ m ∈ S.info.members, ((m.offset : Int) = offset ∧ m.name = some name) ∧
        ∃ t, typeAt rows m.type = some t ∧ ∃ n q c, n < S.types.length + 1 ∧
          Walk (parentAt rows) n m.type q ∧ typeAt rows q = some c ∧
            (n, kept c t.indirect, m.start) = row := by
  simp only [Symbols.fieldDetailRows, List.mem_flatMap, List.mem_map, List.mem_filter,
    decide_eq_true_eq]
  constructor
  · rintro ⟨m, ⟨hm, hname⟩, t, ht, ⟨x, d⟩, hx, a, ha, rfl⟩
    rw [ht.2, hT.mem_relation] at hx
    obtain ⟨n, q, hn, hd, rfl, hwalk⟩ := hx
    obtain ⟨t', ht', rfl⟩ := hT.mem_types.mp ht
    obtain ⟨c, hc, rfl⟩ := hT.mem_types.mp ha
    rw [Nat.zero_add] at hd
    exact ⟨m, hm, hname, t', ht', n, q, c, hn, hwalk, hc, by rw [hd]; rfl⟩
  · rintro ⟨m, hm, hname, t, ht, n, q, c, hn, hwalk, hc, rfl⟩
    obtain ⟨httypes, htoffset⟩ := hT.mem_types.mpr ⟨t, ht, rfl⟩
    refine ⟨m, ⟨hm, hname⟩, typeRow t, ⟨httypes, htoffset⟩, (q, n), ?_, typeRow c,
      hT.mem_types.mpr ⟨c, hc, rfl⟩, rfl⟩
    rw [htoffset, hT.mem_relation]
    exact ⟨n, q, hn, (Nat.zero_add n).symm, rfl, hwalk⟩

theorem getFieldDetails_some (hT : Tabled rows S)
    (h : S.getFieldDetails name offset = some (a, start)) :
    ∃ m ∈ S.info.members, (m.offset : Int) = offset ∧ m.name = some name ∧
      ∃ t b, typeAt rows m.type = some t ∧ LastBehind rows m.type b ∧
        a = kept b t.indirect ∧ start = m.start := by
  obtain ⟨⟨depth, a', start'⟩, hhead, hrest⟩ := Option.map_eq_some_iff.mp h
  cases hrest
  obtain ⟨hmem, hgreatest⟩ := orderByDesc_head hhead
  obtain ⟨m, hm, hname, t, ht, n, q, c, _, hwalk, hc, hrow⟩ := (mem_fieldDetailRows hT).mp hmem
  cases hrow
  refine ⟨m, hm, hname.1, hname.2, t, c, ht, ?_, rfl, rfl⟩
  refine lastBehind_of_deepest hT hwalk hc fun k q' c' hk hwalk' hc' => ?_
  exact hgreatest (k, kept c' t.indirect, m.start)
    ((mem_fieldDetailRows hT).mpr ⟨m, hm, hname, t, ht, k, q', c', hk, hwalk', hc', rfl⟩)

end

section
variable {P : Program} {o n depth fuel : Nat} {x : Int} {d p : Nat} {a : Attrs} {offset : Int}

theorem typeAt_zero : typeAt P.rows 0 = none :=
  typeAt_none P.offsets TypeGraph.typeAt_zero

theorem relation_basicType {t : TypeRow} (ht : t ∈ P.symbols.types) (hbasic : t ∈ basicTypes)
    (hx : (x, d) ∈ P.symbols.typeRelation fuel 0 t.offset) (hd : 0 < d) : x = (0 : Nat) := by
  have hparents : ∀ b ∈ basicTypes, b.parent = (0 : Nat) := by decide
  cases fuel with
  | zero => cases hx
  | succ fuel =>
      rw [Symbols.typeRelation, List.mem_cons, List.mem_flatMap] at hx
      rcases hx with heq | ⟨t', ht', hx⟩
      · cases heq
        exact absurd hd (Nat.lt_irrefl 0)
      · rw [List.mem_filter, decide_eq_true_eq] at ht'
        rw [P.symbols.type_unique ht'.1 ht ht'.2, hparents t hbasic, P.tabled.mem_relation] at hx
        obtain ⟨n, p, _, _, rfl, hwalk⟩ := hx
        cases hwalk with
        | refl => rfl
        | step hnext _ =>
            obtain ⟨r, hr, _⟩ := Option.map_eq_some_iff.mp hnext
            cases typeAt_zero.symm.trans hr

theorem mem_baseTypeRows {row : Nat × Attrs} : row ∈ P.symbols.baseTypeRows offset ↔
    ∃ t, (t.offset : Int) = offset ∧ typeAt P.rows t.offset = some t ∧ ∃ n q c, 0 < n ∧
      n < P.symbols.types.length + 1 ∧ Walk (parentAt P.rows) n t.offset q ∧
        typeAt P.rows q = some c ∧ (n, kept c t.indirect) = row := by
  simp only [Symbols.baseTypeRows, List.mem_flatMap, List.mem_map, List.mem_filter,
    decide_eq_true_eq]
  constructor
  · rintro ⟨t, ⟨ht, rfl⟩, ⟨x, d⟩, ⟨hx, hpos⟩, a, ha, rfl⟩
    have htable := ht
    rw [P.table] at htable
    rcases List.mem_append.mp htable with hrow | hbasic
    · obtain ⟨t', ht', rfl⟩ := List.mem_map.mp hrow
      have hoffset : (typeRow t').offset = (t'.offset : Nat) := rfl
      rw [hoffset, P.tabled.mem_relation] at hx
      obtain ⟨n, q, hn, hd, rfl, hwalk⟩ := hx
      rw [Nat.zero_add] at hd
      obtain ⟨c, hc, rfl⟩ := P.tabled.mem_types.mp ha
      exact ⟨t', rfl, lookup_of_mem P.tabled.nodup ht', n, q, c, hd ▸ hpos, hn, hwalk, hc,
        by rw [hd]; rfl⟩
    · rw [relation_basicType ht hbasic hx hpos] at ha
      obtain ⟨c, hc, _⟩ := P.tabled.mem_types.mp ha
      cases typeAt_zero.symm.trans hc
  · rintro ⟨t, rfl, ht, n, q, c, hpos, hn, hwalk, hc, rfl⟩
    obtain ⟨httypes, htoffset⟩ := P.tabled.mem_types.mpr ⟨t, ht, rfl⟩
    refine ⟨typeRow t, ⟨httypes, htoffset⟩, (q, n), ⟨?_, hpos⟩, typeRow c,
      P.tabled.mem_types.mpr ⟨c, hc, rfl⟩, rfl⟩
    rw [htoffset, P.tabled.mem_relation]
    exact ⟨n, q, hn, (Nat.zero_add n).symm, rfl, hwalk⟩

theorem getBaseTypeDetails_some (h : P.symbols.getBaseTypeDetails offset = some a) :
    ∃ t b, (t.offset : Int) = offset ∧ typeAt P.rows t.offset = some t ∧
      LastBehind P.rows t.parent b ∧ a = kept b t.indirect := by
  obtain ⟨⟨depth, a'⟩, hhead, hrest⟩ := Option.map_eq_some_iff.mp h
  cases hrest
  obtain ⟨hmem, hgreatest⟩ := orderByDesc_head hhead
  obtain ⟨t, rfl, ht, n, q, c, hpos, _, hwalk, hc, hrow⟩ := mem_baseTypeRows.mp hmem
  cases hrow
  refine ⟨t, c, rfl, ht, ?_, rfl⟩
  have hlast : LastBehind P.rows t.offset c := by
    refine lastBehind_of_deepest P.tabled hwalk hc fun k q' c' hk hwalk' hc' => ?_
    by_cases hzero : k = 0
    · omega
    · exact hgreatest (k, kept c' t.indirect) (mem_baseTypeRows.mpr
        ⟨t, rfl, ht, k, q', c', Nat.pos_of_ne_zero hzero, hk, hwalk', hc', rfl⟩)
  cases hlast with
  | behind hr hrest =>
      cases ht.symm.trans hr
      exact hrest
  | here hr hnone =>
      -- what is behind a type is not the type itself
      cases ht.symm.trans hr
      cases hwalk with
      | refl => exact absurd hpos (Nat.lt_irrefl 0)
      | step hnext hrest =>
          cases (parentAt_row ht).symm.trans hnext
          cases hrest with
          | refl => cases hnone.symm.trans hc
          | step hnext' _ =>
              obtain ⟨r, hr', _⟩ := Option.map_eq_some_iff.mp hnext'
              cases hnone.symm.trans hr'

end

/-! ## What nodes keep -/

section
variable {T : Tables} {op : BinaryOp} {left right object member n : AstNode}

theorem subscriptAction_array (hkind : object.typeKind = .array)
    (h : subscriptAction T object member = .ok n) :
    ∃ a, T.baseTypeDetails object.typeOffset = some a ∧ n = .item a object member := by
  obtain ⟨_, h⟩ := ok_of_ite h
  obtain ⟨_, h⟩ := ok_of_ite h
  rw [if_pos hkind] at h
  split at h
  next a hdetails =>
    cases h
    exact ⟨a, hdetails, rfl⟩
  · cases h

/-- A number, of any size. -/
def NumberNode (n : AstNode) : Prop := n.attrs.indirect = 0 ∧ n.attrs.typeKind.isNumeric

/-- What an operator computes. -/
def WordNode (n : AstNode) : Prop := ∃ kind : TKind, kind.isNumeric ∧ n.attrs = word kind

theorem WordNode.number (h : WordNode n) : NumberNode n := by
  obtain ⟨kind, hkind, hattrs⟩ := h
  unfold NumberNode
  rw [hattrs]
  exact ⟨rfl, hkind⟩

theorem word_binaryOp : WordNode (binaryOp left right op) := by
  unfold binaryOp
  split
  · exact ⟨_, rfl, rfl⟩
  · split
    · exact ⟨_, rfl, rfl⟩
    · refine ⟨if op = .sub then .signed else .unsigned, ?_, rfl⟩
      split <;> rfl

theorem word_comparison (h : comparisonAction op left right = .ok n) : WordNode n := by
  obtain ⟨_, h⟩ := ok_of_ite h
  cases h
  exact ⟨_, rfl, rfl⟩

theorem word_bitwise {msg : String} (h : bitwiseAction op msg left right = .ok n) :
    WordNode n := by
  obtain ⟨_, h⟩ := ok_of_ite h
  cases h
  exact ⟨_, rfl, rfl⟩

theorem word_multiplicative {msg : String} (h : multiplicativeAction op msg left right = .ok n) :
    WordNode n := by
  obtain ⟨_, h⟩ := ok_of_ite h
  cases h
  exact word_binaryOp

theorem word_logical (h : logicalAction op left right = .ok n) : WordNode n := by
  obtain ⟨_, h⟩ := ok_of_ite h
  cases h
  exact ⟨_, rfl, rfl⟩

theorem word_modulo (h : moduloAction left right = .ok n) : WordNode n := by
  obtain ⟨_, h⟩ := ok_of_ite h
  cases h
  exact ⟨_, rfl, rfl⟩

/-- What `'+'` and `'-'` make of two operands: a pointer that is moved, or a number. -/
inductive SumNode (op : BinaryOp) (left right n : AstNode) : Prop
  | offset : left.indirect ≠ 0 → right.indirect = 0 → n.attrs = left.attrs →
      SumNode op left right n
  | difference : op = .sub → left.indirect ≠ 0 → right.indirect ≠ 0 → WordNode n →
      SumNode op left right n
  | sum : left.indirect = 0 → WordNode n → SumNode op left right n

theorem additionAction_node (h : additionAction left right = .ok n) :
    SumNode .add left right n := by
  by_cases hpointer : left.indirect ≠ 0
  · obtain ⟨hdirect, _, rfl⟩ := additionAction_pointer hpointer h
    exact .offset hpointer hdirect rfl
  · unfold additionAction at h
    rw [if_neg hpointer] at h
    obtain ⟨_, h⟩ := ok_of_ite h
    cases h
    exact .sum (not_not.mp hpointer) word_binaryOp

theorem subtractionAction_node (h : subtractionAction left right = .ok n) :
    SumNode .sub left right n := by
  unfold subtractionAction at h
  split at h
  next hpointer =>
    split at h
    next hboth =>
      obtain ⟨_, h⟩ := ok_of_ite h
      cases h
      exact .difference rfl hpointer hboth ⟨_, rfl, rfl⟩
    next hdirect =>
      split at h
      · cases h
        exact .offset hpointer (not_not.mp hdirect) rfl
      · cases h
  next hpointer =>
    obtain ⟨_, h⟩ := ok_of_ite h
    cases h
    exact .sum (not_not.mp hpointer) word_binaryOp

theorem binaryAction_node (h : binaryAction op left right = .ok n) :
    ((op = .add ∨ op = .sub) ∧ SumNode op left right n) ∨
      (op ≠ .add ∧ op ≠ .sub ∧ WordNode n) := by
  cases op with
  | add => exact .inl ⟨.inl rfl, additionAction_node h⟩
  | sub => exact .inl ⟨.inr rfl, subtractionAction_node h⟩
  | mul | div => exact .inr ⟨nofun, nofun, word_multiplicative h⟩
  | mod => exact .inr ⟨nofun, nofun, word_modulo h⟩
  | bitAnd | xor | bitOr | left | right => exact .inr ⟨nofun, nofun, word_bitwise h⟩
  | lt | gt | le | ge | eq | neq => exact .inr ⟨nofun, nofun, word_comparison h⟩
  | and | or => exact .inr ⟨nofun, nofun, word_logical h⟩

/-- A pointer and an integer have the type of the pointer, other operands that of a number. -/
theorem binaryAction_attrs (h : binaryAction op left right = .ok n) :
    (left.indirect ≠ 0 ∧ n.attrs = left.attrs) ∨ NumberNode n := by
  rcases binaryAction_node h with ⟨_, hsum⟩ | ⟨_, _, hword⟩
  · cases hsum with
    | offset hpointer _ hattrs => exact .inl ⟨hpointer, hattrs⟩
    | difference _ _ _ hword | sum _ hword => exact .inr hword.number
  · exact .inr hword.number

theorem word_unary {op : UnaryOp} (hop : op = .neg ∨ op = .inv ∨ op = .not)
    (h : unaryAction op object = .ok n) : WordNode n := by
  rcases hop with rfl | rfl | rfl
  · obtain ⟨_, h⟩ := ok_of_ite h
    split at h
    · cases h
      exact ⟨_, rfl, rfl⟩
    · cases h
      exact ⟨_, rfl, rfl⟩
  · obtain ⟨_, h⟩ := ok_of_ite h
    cases h
    exact ⟨_, rfl, rfl⟩
  · obtain ⟨_, h⟩ := ok_of_ite h
    cases h
    exact ⟨_, rfl, rfl⟩

end

section
variable {P : Program} {scope : Nat} {op : BinaryOp} {e x y : Expr} {n left right : AstNode}
  {a : Attrs}

theorem basic_numeral (he : isNumeral e) (h : WordNode n) : P.Basic scope e n.attrs := by
  obtain ⟨kind, hkind, hattrs⟩ := h
  rw [hattrs]
  exact .numeral he hkind

theorem basic_binary (hx : P.Basic scope x left.attrs) (hy : P.Basic scope y right.attrs)
    (h : binaryAction op left right = .ok n) : P.Basic scope (.binaryOp op x y) n.attrs := by
  rcases binaryAction_node h with ⟨hop, hsum⟩ | ⟨hadd, hsub, hword⟩
  · cases hsum with
    | offset hpointer hdirect hattrs =>
        rw [hattrs]
        exact .offset hx hy hpointer hdirect hop
    | difference hsub hpointer hboth hword =>
        obtain ⟨kind, hkind, hattrs⟩ := hword
        rw [hattrs, hsub]
        exact .difference hx hy hpointer hboth hkind
    | sum hdirect hword =>
        obtain ⟨kind, hkind, hattrs⟩ := hword
        rw [hattrs]
        exact .sum hx hdirect hop hkind
  · refine basic_numeral ?_ hword
    cases op <;> first | rfl | exact absurd rfl hadd | exact absurd rfl hsub

theorem fieldType_of_details {name : String} {offset : Int} {start : Nat}
    (h : P.tables.fieldDetails name offset = some (a, start)) :
    ∃ t b, P.FieldType offset name t b ∧ a = kept b t.indirect := by
  obtain ⟨m, hm, hoffset, hname, t, b, ht, hb, rfl, rfl⟩ := getFieldDetails_some P.tabled h
  exact ⟨t, b, .found hm hoffset hname ht hb h, rfl⟩

end

/-- **Basic types**: that of an accepted expression is what its node has. -/
theorem basic_ast (P : Program) (scope : Nat) : ∀ (e : Expr) {n : AstNode},
    e.ast P.tables scope = .ok n → P.Basic scope e n.attrs
  | .identifier name, n, h => by
      obtain ⟨id, a, hdetails, rfl⟩ := identifierAction_ok.mp h
      obtain ⟨v, _, _, _, rfl, t, b, ht, hb, rfl⟩ := getVarDetails_some P.tabled hdetails
      exact .identifier hdetails ht hb
  | .constant c, n, h => by
      cases h
      exact .constant c
  | .item p k, n, h => by
      obtain ⟨object, hobject, h⟩ := ok_of_bind h
      obtain ⟨member, _, h⟩ := ok_of_bind h
      by_cases hkind : object.typeKind = .array
      · obtain ⟨a, hdetails, rfl⟩ := subscriptAction_array hkind h
        obtain ⟨t, b, hoffset, ht, hb, rfl⟩ := getBaseTypeDetails_some hdetails
        exact .arrayItem (basic_ast P scope p hobject) hkind ht hoffset.symm hb
      · have hpointer : object.indirect ≠ 0 := fun hzero =>
          (ok_of_ite h).1 ⟨hzero, hkind⟩
        obtain rfl := subscriptAction_pointer hkind h
        exact .pointerItem (basic_ast P scope p hobject) hkind hpointer
  | .field e name, n, h => by
      obtain ⟨object, hobject, h⟩ := ok_of_bind h
      obtain ⟨a, start, hdetails, rfl⟩ := fieldAction_ok h
      obtain ⟨t, b, hfield, rfl⟩ := fieldType_of_details hdetails
      exact .field (basic_ast P scope e hobject) hfield
  | .arrow e name, n, h => by
      obtain ⟨object, hobject, h⟩ := ok_of_bind h
      obtain ⟨a, start, hdetails, rfl⟩ := arrowAction_ok h
      obtain ⟨t, b, hfield, rfl⟩ := fieldType_of_details hdetails
      exact .arrow (basic_ast P scope e hobject) hfield
  | .plus e, n, h => .plus (basic_ast P scope e h)
  | .unaryOp op e, n, h => by
      obtain ⟨object, hobject, h⟩ := ok_of_bind h
      cases op with
      | addr =>
          obtain ⟨_, rfl⟩ := unaryAction_addr h
          exact .addr (basic_ast P scope e hobject)
      | deref =>
          have hpointer : object.indirect ≠ 0 := (ok_of_ite h).1
          obtain rfl := unaryAction_deref h
          exact .deref (basic_ast P scope e hobject) hpointer
      | neg => exact basic_numeral rfl (word_unary (.inl rfl) h)
      | inv => exact basic_numeral rfl (word_unary (.inr (.inl rfl)) h)
      | not => exact basic_numeral rfl (word_unary (.inr (.inr rfl)) h)
  | .sizeofExpr e, n, h => by
      obtain ⟨object, _, h⟩ := ok_of_bind h
      cases h
      exact basic_numeral rfl ⟨_, rfl, rfl⟩
  | .sizeofType a, n, h => by
      cases h
      exact basic_numeral rfl ⟨_, rfl, rfl⟩
  | .cast a e, n, h => by
      obtain ⟨object, _, h⟩ := ok_of_bind h
      obtain ⟨rfl, _⟩ := castAction_ok h
      exact .cast a e
  | .binaryOp op x y, n, h => by
      obtain ⟨left, hleft, h⟩ := ok_of_bind h
      obtain ⟨right, hright, h⟩ := ok_of_bind h
      exact basic_binary (basic_ast P scope x hleft) (basic_ast P scope y hright) h

theorem isOperation_of_isNumeral {e : Expr} (h : isNumeral e) : isOperation e := by
  unfold isNumeral at h
  split at h
  · cases h
  · cases h
  · exact h

theorem Program.Basic.keeps {P : Program} {scope : Nat} {e : Expr} {a : Attrs}
    (h : P.Basic scope e a) : P.Keeps scope e a := by
  induction h with
  | identifier hdetails ht hb =>
      obtain ⟨v, hv, hseen, hname, rfl, _⟩ := getVarDetails_some P.tabled hdetails
      exact .identifier hv hseen hname ht hb
  | constant c => exact .constant c
  | pointerItem _ hkind hpointer ih => exact .pointerItem ih hkind hpointer
  | arrayItem _ hkind ht hoffset hb ih => exact .arrayItem ih hkind ht hoffset hb
  | field _ hfield ih =>
      obtain ⟨hm, hoffset, hname, ht, hb, _⟩ := hfield
      exact .field ih hm hoffset.symm hname ht hb
  | arrow _ hfield ih =>
      obtain ⟨hm, hoffset, hname, ht, hb, _⟩ := hfield
      exact .arrow ih hm hoffset.symm hname ht hb
  | plus _ ih => exact .plus ih
  | addr _ ih => exact .addr ih
  | deref _ hpointer ih => exact .deref ih hpointer
  | cast a e => exact .cast a e
  | offset _ _ hpointer _ hop ih _ => exact .offset ih hpointer hop
  | difference _ _ _ _ hkind => exact .number rfl rfl hkind
  | sum _ _ _ hkind => exact .number rfl rfl hkind
  | numeral he hkind => exact .number (isOperation_of_isNumeral he) rfl hkind

/-- **Types of nodes**: an accepted expression has what its operands and the rows give it. -/
theorem keeps_ast (P : Program) (scope : Nat) (e : Expr) {n : AstNode}
    (h : e.ast P.tables scope = .ok n) : P.Keeps scope e n.attrs :=
  (basic_ast P scope e h).keeps

end FlightRec.Agreement
