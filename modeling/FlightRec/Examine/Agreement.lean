/-
# `FlightRec.Examine.Agreement` — a variable that is listed and evaluated

The value of an integer variable is shown by two requests.  `variables` lists it with
the other variables of a scope (`add_var` and `add_var_entry` of examine/vars.c), and
`evaluate` parses its name and evaluates the node (examine/expressions).  Each finds
the frame, the type and the memory on its own:

    `variables`   the first frame with the scope    the type behind all typedefs   the current step
    `evaluate`    the frame with the id             the type of the variable       the frame's step

`views_agree_iff` says what a variable, its name and its memory have to be like for
the two to show one number.
-/
import FlightRec.Examine.Frames
import FlightRec.Expressions.Dispatch

namespace FlightRec.Agreement

open Expressions Hoare Query

/-! ## Types of variables -/

/-- A row of table `type`. -/
structure TypeRow where
  offset : Int
  name : Option String
  size : Nat
  parent : Int
  flags : Nat
  indirect : Int
  deriving DecidableEq, Repr

/-- `TKIND_ALIAS` -/
def tkindAlias : Nat := 11

/-- `flags & TKIND_TYPE` -/
def TypeRow.kind (t : TypeRow) : TKind :=
  match t.flags % 0x10000 with
  | 0 => .none
  | 1 => .signed
  | 2 => .unsigned
  | 3 => .float
  | 4 => .pointer
  | 5 => .struct
  | 6 => .union
  | 7 => .array
  | 8 => .func
  | 9 => .klass
  | 10 => .enum
  | 11 => .alias
  | n => .other n

/-- What the two requests know of the client: what `FlightRec.Examine.Refs` lists, the
types, and the type of a variable, which `get_var_address` returns with its address.  An
offset is that of one DIE, or of one built-in type. -/
structure Symbols where
  info : DebugInfo
  types : List TypeRow
  typeOffset : Nat → Nat
  offsets : (types.map (·.offset)).Nodup
  located : ∀ varId step addr type,
    info.varLocation varId step = some (addr, type) → type = typeOffset varId

/-- `get_type_size` -/
def Symbols.getTypeSize (S : Symbols) (offset : Int) : Option TypeRow :=
  S.types.find? (·.offset == offset)

/-- The loop over typedefs in `add_var_entry`; no chain is longer than the table. -/
def Symbols.drillDown (S : Symbols) : Nat → TypeRow → Option TypeRow
  | 0, _ => none
  | fuel + 1, t =>
      if t.flags = tkindAlias then (S.getTypeSize t.parent).bind (S.drillDown fuel) else some t

/-- The type that `add_var_entry` formats the value for. -/
def Symbols.actualType (S : Symbols) (offset : Int) : Option TypeRow :=
  (S.getTypeSize offset).bind (S.drillDown (S.types.length + 1))

/-! ## `variables` -/

/-- An entry of the list.  Values that are no integers are not distinguished. -/
inductive Entry where
  | number (value : Int) (char : Option UInt8)
  | unsupported
  | other
  deriving DecidableEq, Repr

/-- `isprint` -/
def isprint (value : Int) : Bool := 32 ≤ value && value ≤ 126

/-- The sizes that integers can have. -/
def integerSize (size : Nat) : Bool := size = 1 || size = 2 || size = 4 || size = 8

/-- The number in the first `size` bytes of a buffer. -/
def integerOf (signed : Bool) (size : Nat) (buffer : Nat → UInt8) : Int :=
  if signed then (BitVec.ofNat (8 * size) (load buffer size)).toInt else load buffer size

/-- The number at an address. -/
def readInteger (mem : List MemMsg) (signed : Bool) (addr size step : Nat) : Int :=
  integerOf signed size fun i => (getVarValue mem addr size step).getD i 0

/-- `add_var_entry`, with `indirect` 0.  The `ret` of the switch is not the one that is
returned, so that an entry is added without a value if the memory cannot be read. -/
def Symbols.addVarEntry (S : Symbols) (mem : Option (List MemMsg)) (curStep addr : Nat)
    (type : Int) : Option Entry :=
  match S.actualType type with
  | none => none
  | some t =>
      if t.kind.isInteger then
        match mem with
        | none => some .other
        | some mem =>
            if integerSize t.size then
              let value := readInteger mem (t.kind = .signed) addr t.size curStep
              some (.number value (if t.size = 1 ∧ isprint value then
                some (UInt8.ofNat value.toNat) else none))
            else some .unsupported
      else some .other

/-- `add_var` -/
def Symbols.addVar (S : Symbols) (mem : Option (List MemMsg)) (curStep varId step : Nat) :
    Option Entry :=
  match S.info.varLocation varId step with
  | none => none
  | some (addr, type) => S.addVarEntry mem curStep addr type

/-- The variables that are listed for a scope. -/
def Symbols.scopeVars (S : Symbols) (frames : List Frame) (scope : Nat) : List VarRow :=
  if scope = globalScope then S.info.vars.filter (·.scopeId = globalScope)
  else
    match frames.find? (·.scope == scope) with
    | none => []
    | some frame => S.info.localVars frame

/-- `process_variables` for a scope; one entry that fails makes the request fail. -/
def Symbols.processVariables (S : Symbols) (env : Env) (frames : List Frame) (scope : Nat) :
    Except String (List (VarRow × Entry)) :=
  match variablesStep env.curStep frames scope with
  | .error msg => .error msg
  | .ok step =>
      match (S.scopeVars frames scope).mapM fun v =>
          (S.addVar env.mem env.curStep v.id step).map fun entry => (v, entry) with
      | none => .error "Error adding variable"
      | some entries => .ok entries

/-! ## `evaluate` -/

/-- What the lexer makes of a name; some names are its own. -/
def lexWord : String → Lexeme
  | "sizeof" => .symbol .sizeof
  | "void" => .void
  | "float" => .basicType .float
  | "double" => .basicType .double
  | "unsigned" => .basicType .unsignedInt
  | "uint64_t" => .basicType .uint64
  | "uint32_t" => .basicType .uint32
  | "uint16_t" => .basicType .uint16
  | "uint8_t" => .basicType .uint8
  | "long" => .basicType .signedLong
  | "int" => .basicType .signedInt
  | "short" => .basicType .signedShort
  | "char" => .basicType .signedChar
  | "signed" => .basicType .signedInt
  | "int64_t" => .basicType .int64
  | "int32_t" => .basicType .int32
  | "int16_t" => .basicType .int16
  | "int8_t" => .basicType .int8
  | "NULL" => .constant .null
  | name => .word name

/-- `get_type_details` -/
def Symbols.getTypeDetails (S : Symbols) (name : String) : Option (Int × TKind × Nat) :=
  (S.types.find? fun t => t.kind ≠ .struct ∧ t.kind ≠ .union ∧ t.name = some name).map
    fun t => (t.offset, t.kind, t.size)

/-- `type_relation`: the ancestors of a type with their distances. -/
def Symbols.typeRelation (S : Symbols) : Nat → Nat → Int → List (Int × Nat)
  | 0, _, _ => []
  | fuel + 1, depth, offset =>
      (offset, depth) :: (S.types.filter (·.offset = offset)).flatMap fun t =>
        S.typeRelation fuel (depth + 1) t.parent

/-- The variable can be seen from the scope. -/
def Symbols.inChain (S : Symbols) (scope : Nat) (v : VarRow) : Prop :=
  v.scopeId = scope ∨ ⟨scope, v.scopeId⟩ ∈ S.info.scopeAncestors

instance (S : Symbols) (scope : Nat) (v : VarRow) : Decidable (S.inChain scope v) :=
  inferInstanceAs (Decidable (_ ∨ _))

/-- The rows of the query of `get_var_details`, with the depth they are ordered by. -/
def Symbols.varDetailRows (S : Symbols) (name : String) (scope : Nat) :
    List (Nat × Nat × Attrs) :=
  (S.info.vars.filter fun v => S.inChain scope v ∧ v.name = some name).flatMap fun v =>
    (S.types.filter (·.offset = (S.typeOffset v.id : Int))).flatMap fun t =>
      (S.typeRelation (S.types.length + 1) 0 t.offset).flatMap fun r =>
        (S.types.filter fun a => a.offset = r.1 ∧ a.indirect = 0).map fun a =>
          (r.2, v.id, ⟨a.offset, a.kind, a.size, t.indirect⟩)

/-- `get_var_details` -/
def Symbols.getVarDetails (S : Symbols) (name : String) (scope : Nat) : Option (Nat × Attrs) :=
  ((orderBy Prod.fst (S.varDetailRows name scope)).head?).map Prod.snd

/-- The tables of the parser; those for fields and for base types are left open. -/
def Symbols.tables (S : Symbols) (T : Tables) : Tables :=
  { T with varDetails := S.getVarDetails, typeDetails := S.getTypeDetails }

/-- The lookups of the evaluator, with the addresses that `add_var` finds too. -/
def Symbols.env (S : Symbols) (env : Env) : Env :=
  { env with varAddress := fun varId step =>
      (S.info.varLocation varId step).map fun l => BitVec.ofNat 64 l.1 }

/-- The number in a result. -/
def number : Printed → Option Int
  | .signed value _ => some value
  | .unsigned value _ => some value
  | _ => none

/-- An `evaluate` request for a name in a frame shows a number. -/
def Symbols.EvaluateShows (S : Symbols) (T : Tables) (env : Env) (frames : List Frame)
    (exprId : Nat) (frameId : Int) (name : String) (n : Int) : Prop :=
  ∃ scope step ast result printed status,
    evaluateFrame frames (some frameId) = .ok (scope, step) ∧
      ExprParse (S.tables T) scope [lexWord name] ast ∧
      (getEvalResult (S.env env) exprId ast step).run {} = some (some result, status) ∧
      result.result = some printed ∧ number printed = some n

/-! ## Numbers and bytes -/

theorem load_eq_ofDigits (buffer : Nat → UInt8) (size : Nat) :
    load buffer size = Nat.ofDigits 256 ((List.range size).map fun i => (buffer i).toNat) := by
  rw [load, Nat.ofDigits_eq_foldr, List.foldr_map]
  simp only [Nat.cast_id]

theorem load_lt (buffer : Nat → UInt8) (size : Nat) : load buffer size < 2 ^ (8 * size) := by
  rw [load_eq_ofDigits, Nat.pow_mul]
  refine (Nat.ofDigits_lt_base_pow_length (by decide) fun x hx => ?_).trans_eq ?_
  · obtain ⟨i, _, rfl⟩ := List.mem_map.mp hx
    exact (buffer i).toNat_lt
  · rw [List.length_map, List.length_range]

theorem load_inj {size : Nat} {b b' : Nat → UInt8} :
    load b size = load b' size ↔ ∀ i < size, b i = b' i := by
  have hbytes : ∀ b : Nat → UInt8, ∀ x ∈ (List.range size).map fun i => (b i).toNat, x < 256 := by
    intro b x hx
    obtain ⟨i, _, rfl⟩ := List.mem_map.mp hx
    exact (b i).toNat_lt
  rw [load_eq_ofDigits, load_eq_ofDigits]
  constructor
  · intro h i hi
    have hlist := Nat.ofDigits_inj_of_len_eq (by decide) (by simp) (hbytes b) (hbytes b') h
    exact UInt8.toNat_inj.mp (List.map_inj_left.mp hlist i (List.mem_range.mpr hi))
  · intro h
    congr 1
    exact List.map_congr_left fun i hi => by rw [h i (List.mem_range.mp hi)]

theorem integerOf_inj {signed : Bool} {size : Nat} {b b' : Nat → UInt8} :
    integerOf signed size b = integerOf signed size b' ↔ ∀ i < size, b i = b' i := by
  rw [← load_inj]
  have hb := load_lt b size
  have hb' := load_lt b' size
  cases signed with
  | false => exact Int.ofNat_inj
  | true =>
      constructor
      · intro h
        have hbits := congrArg BitVec.toNat (BitVec.toInt_inj.mp h)
        rwa [BitVec.toNat_ofNat, BitVec.toNat_ofNat, Nat.mod_eq_of_lt hb, Nat.mod_eq_of_lt hb']
          at hbits
      · intro h
        rw [integerOf, integerOf, h]

theorem integerOf_eq_zero {signed : Bool} {size : Nat} {b : Nat → UInt8} :
    integerOf signed size b = 0 ↔ ∀ i < size, b i = 0 := by
  have hload : load (fun _ => 0) size = 0 := by
    unfold load
    induction List.range size with
    | nil => rfl
    | cons i l ih =>
        rw [List.foldr_cons, ih]
        rfl
  have hzero : integerOf signed size (fun _ => 0) = 0 := by
    rw [integerOf, hload]
    cases signed with
    | false => rfl
    | true => exact BitVec.toInt_zero
  rw [← hzero]
  exact integerOf_inj

/-- The bytes at an address. -/
def bytesAt (mem : List MemMsg) (addr size step : Nat) : List UInt8 :=
  (getVarValue mem addr size step).take size

theorem lt_length_getVarValue (mem : List MemMsg) (addr size step : Nat) :
    size < (getVarValue mem addr size step).length := by
  unfold getVarValue
  rw [List.length_append, List.length_replicate]
  omega

theorem bytesAt_eq_iff {mem : List MemMsg} {addr size step : Nat} {l : List UInt8}
    (hl : size ≤ l.length) : bytesAt mem addr size step = l.take size ↔
      ∀ i < size, (getVarValue mem addr size step).getD i 0 = l.getD i 0 := by
  have hlt := lt_length_getVarValue mem addr size step
  unfold bytesAt
  constructor
  · intro h i hi
    have hget := congrArg (fun l => l.getD i 0) h
    simpa only [List.getD_eq_getElem?_getD, List.getElem?_take_of_lt hi] using hget
  · intro h
    refine List.ext_getElem ?_ fun i hi hi' => ?_
    · rw [List.length_take, List.length_take]
      omega
    · rw [List.length_take] at hi hi'
      have hget := h i (by omega)
      rw [List.getD_eq_getElem _ _ (by omega), List.getD_eq_getElem _ _ (by omega)] at hget
      rwa [List.getElem_take, List.getElem_take]

theorem readInteger_eq_iff {mem : List MemMsg} {signed : Bool} {addr addr' size step step' : Nat} :
    readInteger mem signed addr size step = readInteger mem signed addr' size step' ↔
      bytesAt mem addr size step = bytesAt mem addr' size step' := by
  rw [readInteger, readInteger, integerOf_inj]
  exact (bytesAt_eq_iff (lt_length_getVarValue mem addr' size step').le).symm

theorem readInteger_eq_zero_iff {mem : List MemMsg} {signed : Bool} {addr size step : Nat} :
    readInteger mem signed addr size step = 0 ↔
      bytesAt mem addr size step = List.replicate size 0 := by
  have hzero := @bytesAt_eq_iff mem addr size step (List.replicate size 0) (by simp)
  rw [List.take_replicate, Nat.min_self] at hzero
  rw [readInteger, integerOf_eq_zero, hzero]
  refine forall₂_congr fun i hi => ?_
  have hget : (List.replicate size (0 : UInt8)).getD i 0 = 0 := by
    rw [List.getD_eq_getElem?_getD, List.getElem?_replicate_of_lt hi]
    rfl
  rw [hget]

/-! ## A name as an expression -/

theorem lexWord_cases (name : String) : lexWord name = .word name ∨
    lexWord name = .constant .null ∨ lexWord name = .symbol .sizeof ∨ lexWord name = .void ∨
      ∃ t, lexWord name = .basicType t := by
  unfold lexWord
  split <;> simp

theorem exprParse_single {T : Tables} {scope : Nat} {x : Lexeme} {ast : AstNode} :
    ExprParse T scope [x] ast ↔
      (∃ name, yylex T x = .ok (.identifier name) ∧ identifierAction T scope name = .ok ast) ∨
        ∃ c, yylex T x = .ok (.constant c) ∧ ast = c.node := by
  constructor
  · rintro ⟨tokens, e, hlex, hderives, hast⟩
    rw [List.mapM_cons] at hlex
    obtain ⟨tok, htok, hlex⟩ := ok_of_bind hlex
    cases hlex
    obtain ⟨name, rfl, rfl⟩ | ⟨c, rfl, rfl⟩ := hderives.of_single
    · exact .inl ⟨name, htok, hast⟩
    · cases hast
      exact .inr ⟨c, htok, rfl⟩
  · have hlex {tok : Token} (htok : yylex T x = .ok tok) : [x].mapM (yylex T) = .ok [tok] := by
      rw [List.mapM_cons, htok]
      rfl
    rintro (⟨name, htok, hast⟩ | ⟨c, htok, rfl⟩)
    · exact ⟨_, _, hlex htok, (Derives.identifier name).ofPrimary _, hast⟩
    · exact ⟨_, _, hlex htok, (Derives.constant c).ofPrimary _, rfl⟩

theorem identifierAction_ok {T : Tables} {scope : Nat} {name : String} {ast : AstNode} :
    identifierAction T scope name = .ok ast ↔
      ∃ id a, T.varDetails name scope = some (id, a) ∧ ast = .var a name id := by
  unfold identifierAction
  cases T.varDetails name scope with
  | none => simp
  | some d => simp [Prod.ext_iff, eq_comm]

/-- A name is a variable, unless it is a word of the lexer or a type. -/
theorem exprParse_name {T : Tables} {scope : Nat} {name : String} {ast : AstNode} :
    ExprParse T scope [lexWord name] ast ↔
      (lexWord name = .constant .null ∧ ast = Constant.null.node) ∨
        (lexWord name = .word name ∧ T.typeDetails name = none ∧
          ∃ id a, T.varDetails name scope = some (id, a) ∧ ast = .var a name id) := by
  rw [exprParse_single]
  rcases lexWord_cases name with h | h | h | h | ⟨t, h⟩ <;> rw [h]
  · simp only [yylex, findVarOrType]
    cases T.typeDetails name with
    | some t => simp
    | none => simp [identifierAction_ok]
  · simp [yylex, eq_comm]
  · simp [yylex]
  · simp [yylex]
  · simp [yylex]

/-! ### The result is a number -/

/-- The response shows no number. -/
def NoNumber (r : Option EvalResult) : Prop :=
  ∀ result printed, r = some result → result.result = some printed → number printed = none

theorem noNumber_none : NoNumber none := by
  rintro _ _ ⟨⟩

theorem noNumber_some {r : EvalResult} (h : ∀ printed, r.result = some printed →
    number printed = none) : NoNumber (some r) := by
  rintro _ printed ⟨⟩ hprinted
  exact h printed hprinted

theorem noNumber_shown {r : EvalResult} {printed : Printed} (hr : r.result = some printed)
    (h : number printed = none) : NoNumber (some r) := by
  refine noNumber_some ?_
  intro printed' hprinted
  rw [hr] at hprinted
  cases hprinted
  exact h

theorem noNumber_evalItems {env : Env} {id underKind : Nat} {a : Attrs}
    {addr dim pointerSize : NodeValue} {value : Printed} (h : number value = none) :
    NoNumber (evalItems env id a addr dim pointerSize underKind value) := by
  unfold evalItems
  split
  · dsimp only
    split
    · exact noNumber_none
    · exact noNumber_shown rfl rfl
  · split
    · exact noNumber_none
    · exact noNumber_shown rfl h

theorem returns_evalPointer {env : Env} {id underKind : Nat} {a : Attrs}
    {addr : NodeValue} : Returns NoNumber (evalPointer env id a addr underKind) := by
  unfold evalPointer
  cases env.pointerSize addr with
  | released => exact returns_pure (noNumber_shown rfl rfl)
  | notFound => exact returns_pure (noNumber_shown rfl rfl)
  | failure => exact returns_pure (noNumber_some fun _ h => by cases h)
  | size bytes =>
      refine returns_ite (fun _ => returns_pure (noNumber_evalItems rfl)) ?_
      intro _
      exact returns_ite (fun _ => returns_none) fun _ => returns_pure (noNumber_evalItems rfl)

theorem noNumber_printBasic {a : Attrs} {v : NodeValue} (h : ¬ a.typeKind.isInteger) :
    NoNumber (some { result := printBasic a v }) := by
  refine noNumber_some ?_
  intro printed hprinted
  unfold printBasic at hprinted
  split at hprinted
  · next hk => exact absurd (by rw [hk]; rfl) h
  · next hk => exact absurd (by rw [hk]; rfl) h
  · cases hprinted
    rfl
  · cases hprinted

theorem returns_getEvalResult {env : Env} {id step : Nat} {ast : AstNode}
    (h : ¬ (ast.indirect = 0 ∧ ast.typeKind.isInteger)) :
    Returns NoNumber (getEvalResult env id ast step) := by
  have hevaluate (flags : Flags) {f : NodeValue → Eval (Option EvalResult)}
      (hf : ∀ v, Returns NoNumber (f v)) :
      Returns NoNumber (do
        let v ← evaluateNode env step ast flags
        if ← failed then return none
        f v) := by
    refine returns_bind ?_
    intro v
    refine returns_bind ?_
    intro _
    exact returns_ite (fun _ => returns_pure noNumber_none) fun _ => hf v
  refine returns_ite ?_ ?_
  · rintro ⟨hdirect, _⟩
    refine hevaluate _ fun v => returns_pure (noNumber_printBasic ?_)
    intro hinteger
    exact h ⟨hdirect, hinteger⟩
  · intro _
    split
    · exact returns_bind fun _ => returns_pure noNumber_none
    · refine returns_ite ?_ ?_
      · intro _
        refine hevaluate _ ?_
        intro addr
        split
        · exact returns_pure noNumber_none
        · exact returns_pure (noNumber_shown rfl rfl)
      · intro _
        refine returns_ite ?_ fun _ => hevaluate _ fun addr =>
          returns_pure (noNumber_evalItems rfl)
        intro _
        refine hevaluate _ ?_
        intro addr
        exact returns_ite (fun _ => returns_pure (noNumber_shown rfl rfl))
          fun _ => returns_evalPointer

/-- What is printed for a value of integer type. -/
def shownInteger (a : Attrs) (v : NodeValue) : Int :=
  if a.typeKind = .signed then v.toInt else v.toNat

theorem number_printBasic {a : Attrs} {v : NodeValue} {n : Int} (h : a.typeKind.isInteger) :
    (∃ printed, printBasic a v = some printed ∧ number printed = some n) ↔
      shownInteger a v = n := by
  unfold printBasic shownInteger
  obtain hk | hk := isInteger_iff.mp h <;> rw [hk] <;> simp [number]

theorem getEvalResult_basic {env : Env} {id step : Nat} {ast : AstNode} {r : EvalResult}
    {s : Status} (h : ast.indirect = 0 ∧ ast.typeKind.isNumeric) :
    getEvalResult env id ast step {} = some (some r, s) ↔
      ∃ v, evaluateNode env step ast .noFlags {} = some (v, s) ∧ s.error = none ∧
        r = { result := printBasic ast.attrs v } := by
  unfold getEvalResult
  rw [if_pos h, bind_run]
  constructor
  · rintro ⟨v, ⟨_ | msg, internal, overshift⟩, hv, hrest⟩
    · cases hrest
      exact ⟨v, hv, rfl, rfl⟩
    · cases hrest
  · rintro ⟨v, hv, hs, rfl⟩
    refine ⟨v, s, hv, ?_⟩
    obtain ⟨_ | msg, internal, overshift⟩ := s
    · rfl
    · cases hs

/-- An expression is shown as a number if it is of integer type and has a value. -/
theorem getEvalResult_number {env : Env} {id step : Nat} {ast : AstNode} {n : Int} :
    (∃ result printed status, getEvalResult env id ast step {} = some (some result, status) ∧
        result.result = some printed ∧ number printed = some n) ↔
      (ast.indirect = 0 ∧ ast.typeKind.isInteger) ∧
        ∃ v s, evaluateNode env step ast .noFlags {} = some (v, s) ∧ s.error = none ∧
          shownInteger ast.attrs v = n := by
  by_cases h : ast.indirect = 0 ∧ ast.typeKind.isInteger
  · have hnumeric : ast.typeKind.isNumeric := by
      obtain hk | hk := isInteger_iff.mp h.2 <;> rw [hk] <;> rfl
    simp only [getEvalResult_basic ⟨h.1, hnumeric⟩, ← number_printBasic h.2, h, true_and]
    constructor
    · rintro ⟨_, printed, s, ⟨v, hv, hs, rfl⟩, hprinted, hn⟩
      exact ⟨v, s, hv, hs, printed, hprinted, hn⟩
    · rintro ⟨v, s, hv, hs, printed, hprinted, hn⟩
      exact ⟨_, printed, s, ⟨v, hv, hs, rfl⟩, hprinted, hn⟩
  · refine iff_of_false ?_ fun hright => h hright.1
    rintro ⟨result, printed, s, hrun, hprinted, hn⟩
    have hnone := returns_getEvalResult h {} _ _ hrun result printed rfl hprinted
    rw [hnone] at hn
    cases hn

/-! ### The value of a variable -/

theorem getVarValue_mod (mem : List MemMsg) (addr size step : Nat) :
    getVarValue mem (addr % addressSpace) size step = getVarValue mem addr size step := by
  unfold getVarValue
  rw [Nat.mod_mod]

theorem load_congr {b b' : Nat → UInt8} {size : Nat} (h : ∀ i < size, b i = b' i) :
    load b size = load b' size := load_inj.mpr h

theorem shownInteger_load {a : Attrs} {b : Nat → UInt8} (hsize : integerSize a.size) :
    shownInteger a (if a.typeKind = .signed then
        (BitVec.ofNat (8 * a.size) (load b a.size)).signExtend 64
      else BitVec.ofNat 64 (load b a.size)) = integerOf (a.typeKind = .signed) a.size b := by
  have hle : 8 * a.size ≤ 64 := by
    simp only [integerSize, Bool.or_eq_true, decide_eq_true_eq] at hsize
    omega
  unfold shownInteger integerOf
  by_cases hk : a.typeKind = .signed
  · simp only [hk, if_true, decide_true]
    exact BitVec.toInt_signExtend_of_le hle
  · simp only [hk, if_false, decide_false, Bool.false_eq_true]
    rw [BitVec.toNat_ofNat, Nat.mod_eq_of_lt]
    exact (load_lt b a.size).trans_le (Nat.pow_le_pow_right (by decide) hle)

theorem shows_value {a : Attrs} {x : NodeValue} {n : Int} :
    (∃ v s, some (x, ({} : Status)) = some (v, s) ∧ s.error = none ∧ shownInteger a v = n) ↔
      shownInteger a x = n := by
  constructor
  · rintro ⟨v, s, hrun, _, hn⟩
    cases hrun
    exact hn
  · intro hn
    exact ⟨x, {}, rfl, rfl, hn⟩

theorem varValue_number {env : Env} {a : Attrs} {addr step : Nat} {n : Int}
    (hdirect : a.indirect = 0) (hinteger : a.typeKind.isInteger) :
    (∃ v s, varValue env a (BitVec.ofNat 64 addr) step {} = some (v, s) ∧ s.error = none ∧
        shownInteger a v = n) ↔
      ∃ mem, env.mem = some mem ∧ integerSize a.size ∧
        readInteger mem (a.typeKind = .signed) addr a.size step = n := by
  unfold varValue
  cases hmem : env.mem with
  | none =>
      refine iff_of_false ?_ ?_
      · rintro ⟨v, s, hrun, hs, _⟩
        cases hrun
        cases hs
      · rintro ⟨mem, hsome, _⟩
        cases hsome
  | some mem =>
      have haddr : (BitVec.ofNat 64 addr).toNat = addr % addressSpace := BitVec.toNat_ofNat ..
      have hbytes : ∀ i < a.size, (getVarValue mem addr a.size step).getD i (env.heap i) =
          (getVarValue mem addr a.size step).getD i 0 := by
        intro i hi
        have hlt := lt_length_getVarValue mem addr a.size step
        rw [List.getD_eq_getElem _ _ (by omega), List.getD_eq_getElem _ _ (by omega)]
      have hnot : ¬ a.indirect ≠ 0 := not_not_intro hdirect
      simp only [haddr, getVarValue_mod, if_neg hnot, Option.some.injEq, exists_eq_left']
      by_cases hsize : integerSize a.size
      · have hcond : a.size = 1 ∨ a.size = 2 ∨ a.size = 4 ∨ a.size = 8 := by
          simpa [integerSize, or_assoc] using hsize
        have hshown := @shownInteger_load a
          (fun i => (getVarValue mem addr a.size step).getD i 0) hsize
        rw [← load_congr hbytes] at hshown
        unfold readInteger
        rw [← hshown]
        have hloaded (x : NodeValue) : loaded x {} = some (x, {}) := rfl
        obtain hk | hk := isInteger_iff.mp hinteger
        · simp only [hk, if_pos hcond, hloaded, hsize, true_and, if_true]
          exact shows_value
        · simp only [hk, if_pos hcond, hloaded, hsize, true_and, reduceCtorEq, if_false]
          exact shows_value
      · have hcond : ¬ (a.size = 1 ∨ a.size = 2 ∨ a.size = 4 ∨ a.size = 8) := by
          simpa [integerSize, or_assoc] using hsize
        refine iff_of_false ?_ fun h => hsize h.1
        rintro ⟨v, s, hrun, hs, _⟩
        obtain hk | hk := isInteger_iff.mp hinteger
        · simp only [hk, if_neg hcond] at hrun
          cases hrun
          cases hs
        · simp only [hk, if_neg hcond] at hrun
          cases hrun
          cases hs

section
variable {S : Symbols} {T : Tables} {env : Env} {frames : List Frame} {frame : Frame}
  {exprId : Nat} {frameId : Int} {name : String} {n : Int}

theorem evaluateNode_var {a : Attrs} {id step : Nat} :
    (∃ v s, evaluateNode (S.env env) step (.var a name id) .noFlags {} = some (v, s) ∧
        s.error = none ∧ shownInteger a v = n) ↔
      ∃ addr type, S.info.varLocation id step = some (addr, type) ∧
        ∃ v s, varValue (S.env env) a (BitVec.ofNat 64 addr) step {} = some (v, s) ∧
          s.error = none ∧ shownInteger a v = n := by
  rw [evaluateNode]
  have haddress : (S.env env).varAddress id step =
      (S.info.varLocation id step).map fun l => BitVec.ofNat 64 l.1 := rfl
  rw [haddress]
  cases S.info.varLocation id step with
  | none =>
      refine iff_of_false ?_ ?_
      · rintro ⟨v, s, hrun, hs, _⟩
        cases hrun
        cases hs
      · rintro ⟨_, _, hlocation, _⟩
        cases hlocation
  | some l =>
      obtain ⟨addr, type⟩ := l
      constructor
      · intro h
        exact ⟨addr, type, rfl, h⟩
      · rintro ⟨_, _, hlocation, h⟩
        cases hlocation
        exact h

/-- **A name is shown as a number** if it is `NULL`, or if it is a variable of integer type
for the parser, which is read at the step of the frame. -/
theorem evaluateShows_iff
    (hframe : findFrame frames (toUnsigned (jsonInt64 frameId)) = some frame) :
    S.EvaluateShows T env frames exprId frameId name n ↔
      (lexWord name = .constant .null ∧ n = 0) ∨
        (lexWord name = .word name ∧ S.getTypeDetails name = none ∧
          ∃ id a, S.getVarDetails name frame.scope = some (id, a) ∧
            (a.indirect = 0 ∧ a.typeKind.isInteger) ∧
            ∃ addr type mem, S.info.varLocation id frame.step = some (addr, type) ∧
              env.mem = some mem ∧ integerSize a.size ∧
              readInteger mem (a.typeKind = .signed) addr a.size frame.step = n) := by
  have hfound : evaluateFrame frames (some frameId) = .ok (frame.scope, frame.step) := by
    simp only [evaluateFrame, hframe]
  have hshows : S.EvaluateShows T env frames exprId frameId name n ↔
      ∃ ast, ExprParse (S.tables T) frame.scope [lexWord name] ast ∧
        (ast.indirect = 0 ∧ ast.typeKind.isInteger) ∧
          ∃ v s, evaluateNode (S.env env) frame.step ast .noFlags {} = some (v, s) ∧
            s.error = none ∧ shownInteger ast.attrs v = n := by
    constructor
    · rintro ⟨scope, step, ast, result, printed, status, hat, hparse, hrun⟩
      cases hfound.symm.trans hat
      exact ⟨ast, hparse, getEvalResult_number.mp ⟨result, printed, status, hrun⟩⟩
    · rintro ⟨ast, hparse, hnumber⟩
      obtain ⟨result, printed, status, hrun⟩ := getEvalResult_number.mpr hnumber
      exact ⟨_, _, ast, result, printed, status, hfound, hparse, hrun⟩
  rw [hshows]
  simp only [exprParse_name]
  constructor
  · rintro ⟨ast, ⟨hnull, rfl⟩ | ⟨hword, htype, id, a, hdetails, rfl⟩, hkind, hvalue⟩
    · obtain ⟨v, s, hrun, _, hn⟩ := hvalue
      cases hrun
      exact .inl ⟨hnull, hn.symm⟩
    · obtain ⟨addr, type, hlocation, hvalue⟩ := evaluateNode_var.mp hvalue
      obtain ⟨mem, hmem, hsize, hread⟩ := (varValue_number hkind.1 hkind.2).mp hvalue
      exact .inr ⟨hword, htype, id, a, hdetails, hkind, addr, type, mem, hlocation, hmem, hsize,
        hread⟩
  · rintro (⟨hnull, rfl⟩ | ⟨hword, htype, id, a, hdetails, hkind, addr, type, mem, hlocation,
      hmem, hsize, hread⟩)
    · exact ⟨_, .inl ⟨hnull, rfl⟩, ⟨rfl, rfl⟩, _, _, rfl, rfl, rfl⟩
    · refine ⟨.var a name id, .inr ⟨hword, htype, id, a, hdetails, rfl⟩, hkind, ?_⟩
      refine evaluateNode_var.mpr ⟨addr, type, hlocation, ?_⟩
      exact (varValue_number hkind.1 hkind.2).mpr ⟨mem, hmem, hsize, hread⟩

end

/-! ## The type of a name -/

section
variable {S : Symbols}

theorem Symbols.type_unique {t t' : TypeRow} (ht : t ∈ S.types) (ht' : t' ∈ S.types)
    (h : t.offset = t'.offset) : t = t' := List.inj_on_of_nodup_map S.offsets ht ht' h

theorem getTypeSize_eq_some {offset : Int} {t : TypeRow} :
    S.getTypeSize offset = some t ↔ t ∈ S.types ∧ t.offset = offset := by
  unfold Symbols.getTypeSize
  constructor
  · intro h
    exact ⟨List.mem_of_find?_eq_some h, by simpa using List.find?_some h⟩
  · rintro ⟨ht, rfl⟩
    cases h : S.types.find? (·.offset == t.offset) with
    | none => exact absurd (List.find?_eq_none.mp h t ht) (by simp)
    | some t' =>
        have hoffset : t'.offset = t.offset := by simpa using List.find?_some h
        rw [S.type_unique (List.mem_of_find?_eq_some h) ht hoffset]

theorem mem_typeRelation {fuel depth : Nat} {offset : Int} {r : Int × Nat}
    (h : r ∈ S.typeRelation fuel depth offset) : r = (offset, depth) ∨ depth < r.2 := by
  induction fuel generalizing depth offset with
  | zero => cases h
  | succ fuel ih =>
      rcases List.mem_cons.mp h with rfl | h
      · exact .inl rfl
      · obtain ⟨t, _, hr⟩ := List.mem_flatMap.mp h
        rcases ih hr with rfl | hlt
        · exact .inr (Nat.lt_succ_self depth)
        · exact .inr (Nat.lt_of_succ_lt hlt)

theorem mem_varDetailRows {name : String} {scope depth id : Nat} {a : Attrs} :
    (depth, id, a) ∈ S.varDetailRows name scope ↔
      ∃ v ∈ S.info.vars, (S.inChain scope v ∧ v.name = some name) ∧
        ∃ t ∈ S.types, t.offset = S.typeOffset v.id ∧
          ∃ r ∈ S.typeRelation (S.types.length + 1) 0 t.offset,
            ∃ b ∈ S.types, (b.offset = r.1 ∧ b.indirect = 0) ∧
              (r.2, v.id, (⟨b.offset, b.kind, b.size, t.indirect⟩ : Attrs)) = (depth, id, a) := by
  simp only [Symbols.varDetailRows, List.mem_flatMap, List.mem_map, List.mem_filter,
    decide_eq_true_eq, and_assoc]

theorem ownRow_mem {name : String} {scope : Nat} {v : VarRow} {t : TypeRow}
    (hv : v ∈ S.info.vars) (hseen : S.inChain scope v ∧ v.name = some name) (ht : t ∈ S.types)
    (hoffset : t.offset = S.typeOffset v.id) (hdirect : t.indirect = 0) :
    (0, v.id, (⟨t.offset, t.kind, t.size, t.indirect⟩ : Attrs)) ∈ S.varDetailRows name scope :=
  mem_varDetailRows.mpr ⟨v, hv, hseen, t, ht, hoffset, (t.offset, 0), List.mem_cons_self, t, ht,
    ⟨rfl, hdirect⟩, rfl⟩

/-- No other variable that can be seen from the scope has the name. -/
def Symbols.Unshadowed (S : Symbols) (scope : Nat) (v : VarRow) (name : String) : Prop :=
  ∀ w ∈ S.info.vars, S.inChain scope w → w.name = some name → w = v

/-- The parser finds a variable that is no pointer with its own type, a typedef or not. -/
theorem getVarDetails_direct {scope id : Nat} {v : VarRow} {name : String} {a : Attrs}
    (hv : v ∈ S.info.vars) (hchain : S.inChain scope v) (hname : v.name = some name)
    (hunshadowed : S.Unshadowed scope v name) :
    (S.getVarDetails name scope = some (id, a) ∧ a.indirect = 0) ↔
      id = v.id ∧ ∃ t, S.getTypeSize (S.typeOffset v.id) = some t ∧ t.indirect = 0 ∧
        a = ⟨t.offset, t.kind, t.size, 0⟩ := by
  -- a row of a type that is no pointer comes with the type's own row
  have hrow : ∀ {row : Nat × Nat × Attrs},
      (orderBy Prod.fst (S.varDetailRows name scope)).head? = some row → row.2.2.indirect = 0 →
        row.2.1 = v.id ∧ ∃ t, S.getTypeSize (S.typeOffset v.id) = some t ∧ t.indirect = 0 ∧
          row.2.2 = ⟨t.offset, t.kind, t.size, 0⟩ := by
    rintro ⟨depth, id, a⟩ hhead hdirect
    obtain ⟨hmem, hleast⟩ := orderBy_head hhead
    obtain ⟨w, hw, ⟨hwchain, hwname⟩, t, ht, htoffset, r, hr, b, hb, ⟨hboffset, _⟩, hrow⟩ :=
      mem_varDetailRows.mp hmem
    cases hunshadowed w hw hwchain hwname
    cases hrow
    have hindirect : t.indirect = 0 := hdirect
    have hzero : r.2 ≤ 0 := hleast _ (ownRow_mem hv ⟨hchain, hname⟩ ht htoffset hindirect)
    rcases mem_typeRelation hr with rfl | hlt
    · cases S.type_unique hb ht hboffset
      refine ⟨rfl, t, getTypeSize_eq_some.mpr ⟨ht, htoffset⟩, hindirect, ?_⟩
      rw [hindirect]
    · omega
  unfold Symbols.getVarDetails
  constructor
  · rintro ⟨hdetails, hdirect⟩
    obtain ⟨⟨depth, id', a'⟩, hhead, hrest⟩ := Option.map_eq_some_iff.mp hdetails
    cases hrest
    exact hrow hhead hdirect
  · rintro ⟨rfl, t, ht, hindirect, rfl⟩
    obtain ⟨htypes, htoffset⟩ := getTypeSize_eq_some.mp ht
    have hown := ownRow_mem hv ⟨hchain, hname⟩ htypes htoffset hindirect
    cases hhead : (orderBy Prod.fst (S.varDetailRows name scope)).head? with
    | none => exact absurd hown (orderBy_head_none hhead _)
    | some row =>
        obtain ⟨depth, id, a⟩ := row
        -- all rows have the indirections of the one type that the variable has
        have hdirect : a.indirect = 0 := by
          obtain ⟨w, hw, ⟨hwchain, hwname⟩, t', ht', htoffset', r, _, b, _, _, hrow⟩ :=
            mem_varDetailRows.mp (orderBy_head hhead).1
          cases hunshadowed w hw hwchain hwname
          cases S.type_unique ht' htypes (htoffset'.trans htoffset.symm)
          cases hrow
          exact hindirect
        obtain ⟨hid, t', ht', _, ha⟩ := hrow hhead hdirect
        cases ht.symm.trans ht'
        exact ⟨congrArg some (Prod.ext hid ha), rfl⟩

end

/-! ## What is listed -/

theorem mem_of_mapM {α β : Type} {f : α → Option β} {l : List α} {l' : List β}
    (h : l.mapM f = some l') : ∀ y ∈ l', ∃ x ∈ l, f x = some y := by
  induction l generalizing l' with
  | nil =>
      cases h
      intro y hy
      cases hy
  | cons x l ih =>
      rw [List.mapM_cons] at h
      obtain ⟨y, hy, h⟩ := Option.bind_eq_some_iff.mp h
      obtain ⟨ys, hys, h⟩ := Option.bind_eq_some_iff.mp h
      cases h
      intro z hz
      rcases List.mem_cons.mp hz with rfl | hz
      · exact ⟨x, List.mem_cons_self, hy⟩
      · obtain ⟨w, hw, hwz⟩ := ih hys z hz
        exact ⟨w, List.mem_cons_of_mem _ hw, hwz⟩

section
variable {S : Symbols} {env : Env} {frames : List Frame} {scope : Nat}

theorem mem_scopeVars {v : VarRow} (h : v ∈ S.scopeVars frames scope) :
    v ∈ S.info.vars ∧ S.inChain scope v := by
  unfold Symbols.scopeVars at h
  split at h
  · next hglobal =>
      obtain ⟨hv, hscope⟩ := List.mem_filter.mp h
      exact ⟨hv, .inl ((of_decide_eq_true hscope).trans hglobal.symm)⟩
  · split at h
    · cases h
    · next frame hframe =>
        have hscope : frame.scope = scope := by simpa using List.find?_some hframe
        subst hscope
        obtain ⟨hlocal, _⟩ := List.mem_filter.mp h
        obtain ⟨w, hw, hancestors⟩ := List.mem_flatMap.mp hlocal
        obtain ⟨⟨id, ancestor⟩, hs, rfl⟩ := List.mem_map.mp hancestors
        obtain ⟨hs, hcond⟩ := List.mem_filter.mp hs
        obtain ⟨hscope, rfl, _⟩ := of_decide_eq_true hcond
        rcases hscope with rfl | hscope
        · exact ⟨hw, .inr hs⟩
        · exact ⟨hw, .inl hscope⟩

/-- A number that is listed is that of the type behind all typedefs, at the current step. -/
theorem listed_number {entries : List (VarRow × Entry)} {v : VarRow} {n : Int}
    {c : Option UInt8} (hlist : S.processVariables env frames scope = .ok entries)
    (hlisted : (v, .number n c) ∈ entries) :
    (v ∈ S.info.vars ∧ S.inChain scope v) ∧
      ∃ step mem addr t, variablesStep env.curStep frames scope = .ok step ∧
        env.mem = some mem ∧ S.info.varLocation v.id step = some (addr, S.typeOffset v.id) ∧
        S.actualType (S.typeOffset v.id) = some t ∧ t.kind.isInteger ∧ integerSize t.size ∧
        readInteger mem (t.kind = .signed) addr t.size env.curStep = n := by
  unfold Symbols.processVariables at hlist
  split at hlist
  · cases hlist
  · next step hstep =>
      split at hlist
      · cases hlist
      · next hentries =>
          cases hlist
          obtain ⟨w, hw, hentry⟩ := mem_of_mapM hentries _ hlisted
          obtain ⟨entry, hadd, hentry⟩ := Option.map_eq_some_iff.mp hentry
          cases hentry
          refine ⟨mem_scopeVars hw, step, ?_⟩
          unfold Symbols.addVar at hadd
          split at hadd
          · cases hadd
          · next addr type hlocation =>
              cases S.located _ _ _ _ hlocation
              unfold Symbols.addVarEntry at hadd
              split at hadd
              · cases hadd
              · next t ht =>
                  split at hadd
                  · next hinteger =>
                      split at hadd
                      · cases hadd
                      · next mem hmem =>
                          split at hadd
                          · next hsize =>
                              cases hadd
                              exact ⟨mem, addr, t, hstep, hmem, hlocation, ht, hinteger, hsize, rfl⟩
                          · cases hadd
                  · cases hadd

end

/-! ## Both -/

/-- The bytes that are listed for a variable of the scope. -/
def Symbols.listedBytes (S : Symbols) (env : Env) (frames : List Frame) (scope varId size : Nat) :
    Option (List UInt8) :=
  match variablesStep env.curStep frames scope with
  | .error _ => none
  | .ok step => (S.info.varLocation varId step).map fun l =>
      bytesAt (env.mem.getD []) l.1 size env.curStep

/-- The bytes of the variable when the frame was at its step. -/
def Symbols.frameBytes (S : Symbols) (env : Env) (frame : Frame) (varId size : Nat) :
    Option (List UInt8) :=
  (S.info.varLocation varId frame.step).map fun l =>
    bytesAt (env.mem.getD []) l.1 size frame.step

/-- A variable with this name that `evaluate` shows as `variables` does: the name is
neither a word of the lexer nor a type, the type is an integer and no typedef, and the
bytes of the variable are now what they were at the step of the frame.  Or the name is
`NULL`, and the variable is 0. -/
def Symbols.Agrees (S : Symbols) (env : Env) (frames : List Frame) (frame : Frame) (v : VarRow)
    (name : String) : Prop :=
  (lexWord name = .word name ∧ S.getTypeDetails name = none ∧
    ∃ t, S.getTypeSize (S.typeOffset v.id) = some t ∧ t.flags ≠ tkindAlias ∧ t.indirect = 0 ∧
      ∃ bytes, S.listedBytes env frames frame.scope v.id t.size = some bytes ∧
        S.frameBytes env frame v.id t.size = some bytes) ∨
  (lexWord name = .constant .null ∧
    ∃ t, S.actualType (S.typeOffset v.id) = some t ∧
      S.listedBytes env frames frame.scope v.id t.size = some (List.replicate t.size 0))

section
variable {S : Symbols} {T : Tables} {env : Env} {frames : List Frame} {frame : Frame}
  {exprId : Nat} {frameId : Int} {v : VarRow} {name : String}
  {entries : List (VarRow × Entry)} {n : Int} {c : Option UInt8}

theorem listedBytes_of_unwritten {varId addr type size : Nat}
    (hfirst : variablesStep env.curStep frames frame.scope = .ok frame.step)
    (hlocation : S.info.varLocation varId frame.step = some (addr, type))
    (hstep : frame.step ≤ env.curStep)
    (hunwritten : ∀ m ∈ memRows (env.mem.getD []) (addr % addressSpace) size env.curStep,
      m.stepId ≤ frame.step) :
    S.listedBytes env frames frame.scope varId size = S.frameBytes env frame varId size := by
  have hrows : memRows (env.mem.getD []) (addr % addressSpace) size env.curStep =
      memRows (env.mem.getD []) (addr % addressSpace) size frame.step := by
    refine List.filter_congr fun m hm => decide_eq_decide.mpr (and_congr_left fun hrange => ?_)
    constructor
    · intro hle
      exact hunwritten m (List.mem_filter.mpr ⟨hm, decide_eq_true ⟨hle, hrange⟩⟩)
    · intro hle
      exact hle.trans hstep
  simp only [Symbols.listedBytes, Symbols.frameBytes, hfirst, hlocation, Option.map_some, bytesAt,
    getVarValue, latestSegments, hrows]

theorem kind_of_alias {t : TypeRow} (h : t.flags = tkindAlias) : t.kind = .alias := by
  unfold TypeRow.kind
  rw [h]
  rfl

theorem actualType_of_plain {offset : Int} {t : TypeRow} (ht : S.getTypeSize offset = some t)
    (hplain : t.flags ≠ tkindAlias) : S.actualType offset = some t := by
  unfold Symbols.actualType
  rw [ht]
  exact if_neg hplain

/-- **The two views of a variable**: `evaluate` shows the number that `variables` shows
for exactly the variables that agree. -/
theorem views_agree_iff (hframe : findFrame frames (toUnsigned (jsonInt64 frameId)) = some frame)
    (hname : v.name = some name) (hunshadowed : S.Unshadowed frame.scope v name)
    (hlist : S.processVariables env frames frame.scope = .ok entries)
    (hlisted : (v, .number n c) ∈ entries) :
    S.EvaluateShows T env frames exprId frameId name n ↔ S.Agrees env frames frame v name := by
  obtain ⟨⟨hv, hchain⟩, step, mem, addr, t, hstep, hmem, hlocation, ht, hinteger, hsize, hread⟩ :=
    listed_number hlist hlisted
  have hbytes (size : Nat) : S.listedBytes env frames frame.scope v.id size =
      some (bytesAt mem addr size env.curStep) := by
    simp only [Symbols.listedBytes, hstep, hlocation, hmem, Option.map_some, Option.getD_some]
  rw [evaluateShows_iff hframe, or_comm]
  refine or_congr (and_congr_right fun _ => and_congr_right fun _ => ?_)
    (and_congr_right fun _ => ?_)
  · constructor
    · rintro ⟨id, a, hdetails, ⟨hdirect, hkind⟩, addr', type, mem', hlocation', hmem', _, hread'⟩
      cases hmem.symm.trans hmem'
      obtain ⟨rfl, t', ht', hindirect, rfl⟩ :=
        (getVarDetails_direct hv hchain hname hunshadowed).mp ⟨hdetails, hdirect⟩
      have hplain : t'.flags ≠ tkindAlias := by
        intro halias
        rw [kind_of_alias halias] at hkind
        cases hkind
      cases ht.symm.trans (actualType_of_plain ht' hplain)
      refine ⟨t, ht', hplain, hindirect, _, hbytes t.size, ?_⟩
      have hsame := readInteger_eq_iff.mp (hread.trans hread'.symm)
      simp only [Symbols.frameBytes, hlocation', hmem, Option.map_some, Option.getD_some, hsame]
    · rintro ⟨t', ht', hplain, hindirect, bytes, hlistedBytes, hframeBytes⟩
      cases ht.symm.trans (actualType_of_plain ht' hplain)
      obtain ⟨⟨addr', type⟩, hlocation', hframeBytes⟩ := Option.map_eq_some_iff.mp hframeBytes
      cases (hbytes t.size).symm.trans hlistedBytes
      rw [hmem] at hframeBytes
      obtain ⟨hdetails, hdirect⟩ := (getVarDetails_direct hv hchain hname hunshadowed).mpr
        ⟨rfl, t, ht', hindirect, rfl⟩
      refine ⟨v.id, _, hdetails, ⟨hdirect, hinteger⟩, addr', type, mem, hlocation', hmem, hsize, ?_⟩
      exact (readInteger_eq_iff.mpr hframeBytes).trans hread
  · rw [← hread, readInteger_eq_zero_iff]
    constructor
    · intro hzero
      exact ⟨t, ht, (hbytes t.size).trans (congrArg some hzero)⟩
    · rintro ⟨t', ht', hzero⟩
      cases ht.symm.trans ht'
      exact Option.some.inj ((hbytes t.size).symm.trans hzero)

end

/-! ### Examples -/

/-- `int x` of `main`, on its stack. -/
def counterOfMain : Symbols where
  info := { vars := [⟨1, some "x", 1, 1, 10⟩], scopeAncestors := [⟨1, 0⟩, ⟨2, 0⟩], members := [],
            varLocation := fun id _ => if id = 1 then some (0x7000, 100) else none,
            arrayInfo := fun _ _ => none, shown := fun _ _ => .plain, parsed := fun _ _ => none,
            evaluated := fun _ _ _ => .plain }
  types := [⟨100, some "int", 4, 0, 1, 0⟩]
  typeOffset := fun _ => 100
  offsets := by decide
  located := by
    intro varId step addr type h
    dsimp only at h
    split at h <;> cases h
    rfl

/-- In the second call of `twice`, with what was stored to `x` so far. -/
def inSecondCall (mem : List MemMsg) : Env := { noRecording with mem := some mem, curStep := 7 }

/-- The stack there, and its frame of `main`. -/
def secondCallFrames : List Frame :=
  frameList calledTwiceDb "" [⟨7, 2, some (some 0, some 20)⟩]

def mainFrame : Frame := ⟨1, 1, 5, 1, 12⟩

/-- `x = 1` of `main`. -/
def storedByMain : MemMsg := ⟨0x7000, 2, 1 :: List.replicate 31 0⟩

/-- `*p = 2` of `twice`, with the address of `x` in `p`. -/
def storedByTwice : MemMsg := ⟨0x7000, 7, 2 :: List.replicate 31 0⟩

theorem findFrame_main :
    findFrame secondCallFrames (toUnsigned (jsonInt64 1)) = some mainFrame := by decide

theorem unshadowed_x : counterOfMain.Unshadowed 1 ⟨1, some "x", 1, 1, 10⟩ "x" := by
  intro w hw _ _
  exact List.mem_singleton.mp hw

example : counterOfMain.processVariables (inSecondCall [storedByMain, storedByTwice])
    secondCallFrames 1 = .ok [(⟨1, some "x", 1, 1, 10⟩, .number 2 none)] := by rfl

/-- As long as the call does not store to `x`, its value in `main` is shown alike. -/
theorem views_agree_iff_unwritten :
    (findFrame secondCallFrames (toUnsigned (jsonInt64 1)) = some mainFrame ∧
        counterOfMain.processVariables (inSecondCall [storedByMain]) secondCallFrames 1 =
          .ok [(⟨1, some "x", 1, 1, 10⟩, .number 1 none)]) ∧
      counterOfMain.EvaluateShows noTables (inSecondCall [storedByMain]) secondCallFrames 1 1
        "x" 1 := by
  have hlist : counterOfMain.processVariables (inSecondCall [storedByMain]) secondCallFrames
      mainFrame.scope = .ok [(⟨1, some "x", 1, 1, 10⟩, .number 1 none)] := by rfl
  refine ⟨⟨findFrame_main, hlist⟩, (views_agree_iff findFrame_main rfl unshadowed_x hlist
    List.mem_cons_self).mpr (.inl ⟨by decide, by decide, ?_⟩)⟩
  exact ⟨⟨100, some "int", 4, 0, 1, 0⟩, rfl, by decide, rfl, [1, 0, 0, 0], by rfl, by rfl⟩

/-- `variables` shows 2 for the `x` of the frame of `main`, and `evaluate` does not. -/
theorem overwritten_local_disagrees :
    ¬ ∀ (S : Symbols) (T : Tables) (env : Env) (frames : List Frame) (frame : Frame)
      (exprId : Nat) (frameId : Int) (v : VarRow) (name : String)
      (entries : List (VarRow × Entry)) (n : Int) (c : Option UInt8),
      findFrame frames (toUnsigned (jsonInt64 frameId)) = some frame → v.name = some name →
        S.Unshadowed frame.scope v name →
        S.processVariables env frames frame.scope = .ok entries → (v, .number n c) ∈ entries →
        S.EvaluateShows T env frames exprId frameId name n := by
  intro h
  have hlist : counterOfMain.processVariables (inSecondCall [storedByMain, storedByTwice])
      secondCallFrames mainFrame.scope = .ok [(⟨1, some "x", 1, 1, 10⟩, .number 2 none)] := by rfl
  have hshows := h counterOfMain noTables _ _ _ 1 1 _ _ _ _ _ findFrame_main rfl unshadowed_x
    hlist List.mem_cons_self
  rcases (evaluateShows_iff findFrame_main).mp hshows with ⟨hnull, _⟩ |
    ⟨_, _, id, a, hdetails, _, addr, type, mem, hlocation, hmem, _, hread⟩
  · exact absurd hnull (by decide)
  · have hvar : counterOfMain.getVarDetails "x" mainFrame.scope =
        some (1, ⟨100, .signed, 4, 0⟩) := by rfl
    have hplace : counterOfMain.info.varLocation 1 mainFrame.step = some (0x7000, 100) := by rfl
    cases hvar.symm.trans hdetails
    cases hplace.symm.trans hlocation
    cases hmem
    have hone : readInteger [storedByMain, storedByTwice] true 0x7000 4 5 = 1 := by rfl
    exact absurd (hone.symm.trans hread) (by decide)

end FlightRec.Agreement
