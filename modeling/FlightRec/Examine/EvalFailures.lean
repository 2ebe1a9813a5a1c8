/-
# `FlightRec.Examine.EvalFailures` — lookups for the value of an expression that fail

`get_eval_result` has a second `ret` as well, but in the block of the pointers: only a pointer
whose size cannot be looked up ends in success, without a value
(`getEvalResult_reports_iff`).  `evaluate_node` reports by `*error`, which is looked at each
time.

It is `get_eval_result` of `Expressions.Evaluate` (`expressions_getEvalResult`), but for
`type_name`, which may fail here.
-/
import FlightRec.Examine.Failures
import FlightRec.Expressions.Dispatch

namespace FlightRec.Failures

open Cleanup Expressions

/-! ## `get_eval_result` -/

/-- What `evaluate_node` comes to. -/
inductive Evaluated where
  | crash
  | failed
  | value (v : NodeValue)
  deriving DecidableEq, Repr

/-- `evaluate_node`; it fails if it stores an error. -/
def evaluate (env : Env) (step : Nat) (ast : AstNode) (flags : Flags) : Evaluated :=
  match evaluateNode env step ast flags {} with
  | none => .crash
  | some (v, status) => if status.error.isSome then .failed else .value v

/-- A run of `get_eval_result`, with the body of the response. -/
abbrev EvalExit := Exit Lookup EvalResult

/-- What follows an evaluation; `leave` is the way out if it fails. -/
def evaluating (e : Evaluated) (leave : Leave) (next : NodeValue → EvalExit) : EvalExit :=
  match e with
  | .crash => { leave := .crash, entry := {} }
  | .failed => { leave, refused := [.evaluation], entry := {} }
  | .value v => next v

/-- What is shown with the name of the type; without it the debugger ends. -/
def withName (tname : Option String) (next : String → EvalExit) : EvalExit :=
  match tname with
  | none => { leave := .crash, entry := {} }
  | some name => next name

/-- `type_details`, if the node has a type. -/
def details (env : Env) (ast : AstNode) : Option (NodeValue × Nat) :=
  if ast.typeOffset = 0 then some (env.dim, env.underKind) else env.typeDetails ast.typeOffset

/-- Shown as a string. -/
def isChar (a : Attrs) (underKind : Nat) : Bool :=
  a.size = 1 && (underKind = 1 || underKind = 2)

section
variable (env : Env) (tname : Option String) (id : Nat) (a : Attrs)

/-- What pointers and arrays have in common; `shown` is the result if it is there already. -/
def evalItems (addr dim pointerSize : NodeValue) (underKind : Nat) (shown : Option Printed) :
    EvalExit :=
  if isChar a underKind then
    let dim := if pointerSize = 0 then 32 else dim.toNat
    match env.mem with
    | none => { leave := .clean .failure, refused := [.memory], entry := { result := shown } }
    | some mem =>
        let bytes := (getVarValue mem addr.toNat dim env.curStep).take dim
        let text := bytes.takeWhile (· ≠ 0)
        { leave := .clean .success
          entry := ⟨some (.string addr text (text.length < dim)), some 0, none, none⟩ }
  else
    match env.varRef id addr a.typeOffset a.indirect with
    | none => { leave := .clean .failure, refused := [.reference], entry := { result := shown } }
    | some ref =>
        let result (shown : Printed) : EvalExit :=
          { leave := .clean .success
            entry := { result := some shown, variablesReference := some ref,
                       indexedVariables := some dim } }
        match shown with
        | none => withName tname fun name => result (.typeName name)
        | some shown => result shown

/-- A pointer that is not `NULL`: the block has a `ret` of its own. -/
def evalPointer (addr : NodeValue) (underKind : Nat) : EvalExit :=
  match env.pointerSize addr with
  | .released => withName tname fun name =>
      { leave := .shadowed .success
        entry := { result := some (.pointer name addr "dangling"), variablesReference := some 0 } }
  | .notFound => withName tname fun name =>
      { leave := .shadowed .success
        entry := { result := some (.pointer name addr "invalid"), variablesReference := some 0 } }
  | .failure => { leave := .shadowed .failure, refused := [.heap], entry := {} }
  | .size bytes => withName tname fun name =>
      let shown := some (.pointer name addr "")
      if bytes = 0 then evalItems env tname id a addr 1 bytes underKind shown
      else if a.size = 0 then { leave := .crash, entry := { result := shown } }
      else evalItems env tname id a addr (bytes / BitVec.ofNat 64 a.size) bytes underKind shown

/-- A struct. -/
def evalStruct (addr dim : NodeValue) : EvalExit :=
  match env.varRef id addr a.typeOffset 0 with
  | none => { leave := .clean .failure, refused := [.reference], entry := {} }
  | some ref => withName tname fun name =>
      { leave := .clean .success, entry := ⟨some (.typeName name), some ref, some dim, none⟩ }

end

/-- What is not of a basic type: a struct, a pointer or an array. -/
def evalDerived (env : Env) (tname : Option String) (id : Nat) (ast : AstNode) (step : Nat)
    (dim : NodeValue) (underKind : Nat) : EvalExit :=
  if ast.indirect = 0 ∧ ast.typeKind = .struct then
    evaluating (evaluate env step ast .addr) (.clean .failure) fun addr =>
      evalStruct env tname id ast.attrs addr dim
  else if ast.indirect ≠ 0 then
    evaluating (evaluate env step ast .noFlags) (.clean .failure) fun addr =>
      if addr = 0 then { leave := .clean .success, entry := { result := some .null } }
      else evalPointer env tname id ast.attrs addr underKind
  else
    evaluating (evaluate env step ast .addr) (.clean .failure) fun addr =>
      evalItems env tname id ast.attrs addr dim 0 underKind none

/-- `get_eval_result` -/
def getEvalResult (env : Env) (typeName : Int → Int → Option String) (id : Nat) (ast : AstNode)
    (step : Nat) : EvalExit :=
  if ast.indirect = 0 ∧ ast.typeKind.isNumeric then
    evaluating (evaluate env step ast .noFlags) (.ret .failure) fun res =>
      { leave := .ret .success, entry := { result := printBasic ast.attrs res } }
  else
    let tname := typeName ast.typeOffset ast.indirect
    Exit.passing
      (match details env ast with
        | none => { leave := .clean .failure, refused := [.type], entry := {} }
        | some (dim, underKind) =>
            evalDerived env tname id ast step dim underKind)
      (if tname.isNone then [.typeName] else [])

/-- Field `success` of the response to an evaluate request, if there is one. -/
def responseSuccess (e : EvalExit) : Option Bool := e.leave.returned.map (· = .success)

/-- The size of a pointer cannot be looked up. -/
def EvalLost (env : Env) (ast : AstNode) (step : Nat) : Prop :=
  ast.indirect ≠ 0 ∧ ∃ addr, evaluate env step ast .noFlags = .value addr ∧ addr ≠ 0 ∧
    env.pointerSize addr = .failure

/-- The items of an array, or the reference to it, cannot be looked up. -/
def ItemsCaught (env : Env) (id : Nat) (a : Attrs) (addr : NodeValue) (underKind : Nat) : Prop :=
  if isChar a underKind then env.mem = none
  else env.varRef id addr a.typeOffset a.indirect = none

/-- A lookup fails where the `ret` of the function is assigned, before the name of the type
is used. -/
def EvalCaught (env : Env) (id : Nat) (ast : AstNode) (step underKind : Nat) : Prop :=
  if ast.indirect = 0 ∧ ast.typeKind = .struct then
    evaluate env step ast .addr = .failed ∨ ∃ addr, evaluate env step ast .addr = .value addr ∧
      env.varRef id addr ast.typeOffset 0 = none
  else if ast.indirect ≠ 0 then evaluate env step ast .noFlags = .failed
  else
    evaluate env step ast .addr = .failed ∨ ∃ addr, evaluate env step ast .addr = .value addr ∧
      ItemsCaught env id ast.attrs addr underKind

section
variable {env : Env} {tname : Option String} {name : String} {id step : Nat} {a : Attrs}
  {ast : AstNode} {addr dim pointerSize : NodeValue} {underKind : Nat} {shown : Option Printed}

theorem evaluating_reports {e : Evaluated} {leave : Leave} {next : NodeValue → EvalExit}
    (hleave : leave.returned = some .failure) :
    (evaluating e leave next).Reports ↔ ∀ v, e = .value v → (next v).Reports := by
  cases e with
  | crash => exact iff_of_true (Exit.reports_of_nil rfl) (by simp)
  | failed => exact iff_of_true (fun _ => hleave) (by simp)
  | value v => simp [evaluating]

theorem evaluating_fails {e : Evaluated} {leave : Leave} {next : NodeValue → EvalExit}
    (hleave : leave.returned = some .failure) :
    (evaluating e leave next).Fails ↔ e = .failed ∨ ∃ v, e = .value v ∧ (next v).Fails := by
  cases e with
  | crash => simp [evaluating]
  | failed => exact iff_of_true hleave (.inl rfl)
  | value v => simp [evaluating]

theorem withName_fails {next : String → EvalExit} : ¬ (withName none next).Fails := by
  simp [withName]

theorem evalItems_reports (name : String) :
    (evalItems env (some name) id a addr dim pointerSize underKind shown).Reports := by
  rw [evalItems]
  split
  · cases env.mem with
    | none => exact fun _ => rfl
    | some mem => exact Exit.reports_of_nil rfl
  · cases env.varRef id addr a.typeOffset a.indirect with
    | none => exact fun _ => rfl
    | some ref => cases shown <;> exact Exit.reports_of_nil rfl

theorem evalItems_fails :
    (evalItems env none id a addr dim pointerSize underKind none).Fails ↔
      ItemsCaught env id a addr underKind := by
  rw [evalItems, ItemsCaught]
  split
  · cases env.mem with
    | none => exact iff_of_true rfl rfl
    | some mem => simp
  · cases env.varRef id addr a.typeOffset a.indirect with
    | none => exact iff_of_true rfl rfl
    | some ref => exact iff_of_false withName_fails (Option.some_ne_none ref)

theorem evalPointer_reports :
    (evalPointer env (some name) id a addr underKind).Reports ↔
      env.pointerSize addr ≠ .failure := by
  rw [evalPointer]
  cases env.pointerSize addr with
  | released => exact iff_of_true (Exit.reports_of_nil rfl) (by simp)
  | notFound => exact iff_of_true (Exit.reports_of_nil rfl) (by simp)
  | failure => simp
  | size bytes =>
      refine iff_of_true ?_ (by simp)
      rw [withName]
      dsimp only
      split
      · exact evalItems_reports name
      · split
        · exact Exit.reports_of_nil rfl
        · exact evalItems_reports name

theorem evalPointer_fails : ¬ (evalPointer env none id a addr underKind).Fails := by
  rw [evalPointer]
  cases env.pointerSize addr with
  | released => exact withName_fails
  | notFound => exact withName_fails
  | failure => simp
  | size bytes => exact withName_fails

theorem evalStruct_reports : (evalStruct env (some name) id a addr dim).Reports := by
  rw [evalStruct]
  cases env.varRef id addr a.typeOffset 0 with
  | none => exact fun _ => rfl
  | some ref => exact Exit.reports_of_nil rfl

theorem evalStruct_fails :
    (evalStruct env none id a addr dim).Fails ↔ env.varRef id addr a.typeOffset 0 = none := by
  rw [evalStruct]
  cases env.varRef id addr a.typeOffset 0 with
  | none => exact iff_of_true rfl rfl
  | some ref => exact iff_of_false withName_fails (Option.some_ne_none ref)

theorem evalDerived_reports :
    (evalDerived env (some name) id ast step dim underKind).Reports ↔ ¬ EvalLost env ast step := by
  rw [evalDerived, EvalLost]
  split
  next hstruct =>
    refine iff_of_true ?_ fun hlost => hlost.1 hstruct.1
    exact (evaluating_reports rfl).mpr fun addr _ => evalStruct_reports
  next hstruct =>
    split
    next hindirect =>
      rw [evaluating_reports rfl]
      simp only [hindirect, ne_eq, not_false_eq_true, true_and, not_exists, not_and]
      refine forall_congr' fun addr => imp_congr_right fun _ => ?_
      split
      next hnull => exact iff_of_true (Exit.reports_of_nil rfl) fun hne => absurd hnull hne
      next hnull => exact evalPointer_reports.trans (imp_iff_right hnull).symm
    next hdirect =>
      refine iff_of_true ?_ fun hlost => hdirect hlost.1
      exact (evaluating_reports rfl).mpr fun addr _ => evalItems_reports name

theorem evalDerived_fails :
    (evalDerived env none id ast step dim underKind).Fails ↔
      EvalCaught env id ast step underKind := by
  rw [evalDerived, EvalCaught]
  split
  · rw [evaluating_fails rfl]
    exact or_congr_right (exists_congr fun addr => and_congr_right fun _ => evalStruct_fails)
  · split
    · rw [evaluating_fails rfl, or_iff_left]
      rintro ⟨addr, _, hfails⟩
      split at hfails
      · simp at hfails
      · exact evalPointer_fails hfails
    · rw [evaluating_fails rfl]
      exact or_congr_right (exists_congr fun addr => and_congr_right fun _ => evalItems_fails)

end

/-- Nothing that fails is lost, by what the name of the type is looked up for. -/
def EvalNothingLost (env : Env) (typeName : Int → Int → Option String) (id : Nat)
    (ast : AstNode) (step : Nat) : Prop :=
  ast.indirect = 0 ∧ ast.typeKind.isNumeric ∨
    ∀ d, details env ast = some d →
      match typeName ast.typeOffset ast.indirect with
      | none => EvalCaught env id ast step d.2
      | some _ => ¬ EvalLost env ast step

/-- **Failures of `get_eval_result`** are reported exactly if the size of a pointer can be
looked up and, where the name of the type is not found, something else is caught. -/
theorem getEvalResult_reports_iff (env : Env) (typeName : Int → Int → Option String) (id : Nat)
    (ast : AstNode) (step : Nat) :
    (getEvalResult env typeName id ast step).Reports ↔
      EvalNothingLost env typeName id ast step := by
  rw [getEvalResult, EvalNothingLost]
  split
  next hbasic =>
    refine iff_of_true ?_ (.inl hbasic)
    exact (evaluating_reports rfl).mpr fun v _ => Exit.reports_of_nil rfl
  next hbasic =>
    rw [or_iff_right hbasic]
    cases details env ast with
    | none =>
        refine iff_of_true ?_ (by simp)
        exact Exit.Fails.reports rfl
    | some d =>
        obtain ⟨dim, underKind⟩ := d
        simp only [Option.some_inj, forall_eq']
        cases typeName ast.typeOffset ast.indirect with
        | none =>
            rw [Option.isNone_none, if_pos rfl, Exit.passing_reports (List.cons_ne_nil _ _)]
            exact evalDerived_fails
        | some name =>
            rw [Option.isNone_some, if_neg Bool.false_ne_true, Exit.passing_nil]
            exact evalDerived_reports

theorem responseSuccess_eq_false {e : EvalExit} : responseSuccess e = some false ↔ e.Fails := by
  rw [responseSuccess, Exit.Fails, Option.map_eq_some_iff]
  constructor
  · rintro ⟨status, hstatus, hfalse⟩
    cases status with
    | success => cases hfalse
    | failure => exact hstatus
  · intro hfails
    exact ⟨_, hfails, rfl⟩

/-! ## With a name for each type -/

theorem evaluate_bind {env : Env} {step : Nat} {ast : AstNode} {flags : Flags}
    {next : NodeValue → Eval (Option EvalResult)} {leave : Leave} {k : NodeValue → EvalExit}
    (hleave : leave.returned = some .failure)
    (hnext : ∀ v status, (next v status).map Prod.fst = answer (k v)) :
    ((do
      let v ← evaluateNode env step ast flags
      if ← failed then return none
      next v : Eval (Option EvalResult)) {}).map Prod.fst =
      answer (evaluating (evaluate env step ast flags) leave k) := by
  change Option.map Prod.fst ((evaluateNode env step ast flags {}).bind _) = _
  rw [evaluate]
  cases evaluateNode env step ast flags {} with
  | none => rfl
  | some r =>
      obtain ⟨v, status⟩ := r
      change Option.map Prod.fst ((if status.error.isSome then (return none : Eval _)
        else next v) status) = _
      dsimp only
      split
      · rw [evaluating, answer, hleave]
        rfl
      · exact hnext v status

theorem isChar_iff {a : Attrs} {underKind : Nat} :
    isChar a underKind = true ↔ a.size = 1 ∧ (underKind = 1 ∨ underKind = 2) := by
  simp [isChar]

theorem answer_evalItems {env : Env} {name : String} {id : Nat} {a : Attrs}
    {addr dim pointerSize : NodeValue} {underKind : Nat} (shown : Option Printed) :
    answer (evalItems env (some name) id a addr dim pointerSize underKind shown) =
      some (Expressions.evalItems env id a addr dim pointerSize underKind
        (shown.getD (.typeName name))) := by
  rw [evalItems, Expressions.evalItems]
  by_cases hchar : isChar a underKind
  · rw [if_pos hchar, if_pos (isChar_iff.mp hchar)]
    cases env.mem with
    | none => rfl
    | some mem => rfl
  · rw [if_neg hchar, if_neg (hchar ∘ isChar_iff.mpr)]
    cases env.varRef id addr a.typeOffset a.indirect with
    | none => rfl
    | some ref => cases shown <;> rfl

theorem answer_evalPointer {env : Env} {id : Nat} {a : Attrs} {addr : NodeValue}
    {underKind : Nat} (status : Expressions.Status) :
    (Expressions.evalPointer env id a addr underKind status).map Prod.fst =
      answer (evalPointer env (some (env.typeName a.typeOffset a.indirect)) id a addr
        underKind) := by
  rw [Expressions.evalPointer, evalPointer]
  cases env.pointerSize addr with
  | released => rfl
  | notFound => rfl
  | failure => rfl
  | size bytes =>
      dsimp only [withName]
      by_cases hempty : bytes = 0
      · rw [if_pos hempty, if_pos hempty, answer_evalItems]
        rfl
      · rw [if_neg hempty, if_neg hempty]
        by_cases hsize : a.size = 0
        · rw [if_pos hsize, if_pos hsize]
          rfl
        · rw [if_neg hsize, if_neg hsize, answer_evalItems]
          rfl

theorem answer_evalStruct {env : Env} {id : Nat} {ast : AstNode} {addr dim : NodeValue}
    (status : Expressions.Status) :
    ((match env.varRef id addr ast.typeOffset 0 with
      | none => return none
      | some ref =>
          return some ⟨some (.typeName (env.typeName ast.typeOffset ast.indirect)), some ref,
            some dim, none⟩ : Eval (Option EvalResult)) status).map Prod.fst =
      answer (evalStruct env (some (env.typeName ast.typeOffset ast.indirect)) id ast.attrs addr
        dim) := by
  have href : env.varRef id addr ast.attrs.typeOffset 0 = env.varRef id addr ast.typeOffset 0 := rfl
  rw [evalStruct, href]
  cases env.varRef id addr ast.typeOffset 0 with
  | none => rfl
  | some ref => rfl

theorem expressions_getEvalResult (env : Env) (id : Nat) (ast : AstNode) (step : Nat) :
    (Expressions.getEvalResult env id ast step {}).map Prod.fst =
      answer (getEvalResult env (fun type indirect => some (env.typeName type indirect)) id ast
        step) := by
  rw [Expressions.getEvalResult, getEvalResult]
  by_cases hbasic : ast.indirect = 0 ∧ ast.typeKind.isNumeric
  · rw [if_pos hbasic, if_pos hbasic]
    exact evaluate_bind rfl fun v status => rfl
  · rw [if_neg hbasic, if_neg hbasic]
    dsimp only
    rw [Option.isNone_some, if_neg Bool.false_ne_true, Exit.passing_nil, ← details]
    cases details env ast with
    | none => rfl
    | some d =>
        obtain ⟨dim, underKind⟩ := d
        dsimp only
        rw [evalDerived]
        by_cases hstruct : ast.indirect = 0 ∧ ast.typeKind = .struct
        · rw [if_pos hstruct, if_pos hstruct]
          refine evaluate_bind rfl fun addr status => ?_
          exact answer_evalStruct status
        · rw [if_neg hstruct, if_neg hstruct]
          by_cases hindirect : ast.indirect ≠ 0
          · rw [if_pos hindirect, if_pos hindirect]
            refine evaluate_bind rfl fun addr status => ?_
            by_cases hnull : addr = 0
            · rw [if_pos hnull, if_pos hnull]
              rfl
            · rw [if_neg hnull, if_neg hnull]
              exact answer_evalPointer status
          · rw [if_neg hindirect, if_neg hindirect]
            refine evaluate_bind rfl fun addr status => ?_
            rw [answer_evalItems]
            rfl

/-! ## Both functions -/

/-- **Failures are reported** by the two functions exactly where none is lost; those of
`get_eval_result` as a failure response. -/
theorem failures_reported_iff (L : Lookups) (fuel addr type indirect : Nat) (env : Env)
    (typeName : Int → Int → Option String) (id : Nat) (ast : AstNode) (step : Nat) :
    ((addVarEntry L fuel addr type indirect).Reports ↔ NothingLost L fuel addr type indirect) ∧
      (((getEvalResult env typeName id ast step).refused ≠ [] →
          responseSuccess (getEvalResult env typeName id ast step) = some false) ↔
        EvalNothingLost env typeName id ast step) := by
  refine ⟨addVarEntry_reports_iff L fuel addr type indirect, ?_⟩
  rw [responseSuccess_eq_false]
  exact getEvalResult_reports_iff env typeName id ast step

/-- A session in which no variable was read yet: for a pointer that is not on the heap there is
no cursor to look up its memory with. -/
def newSession : Env :=
  { noRecording with
    varAddress := fun _ _ => some 4096
    typeDetails := fun _ => some (0, 4)
    pointerSize := fun _ => .failure }

/-- `&x`, for an `int`. -/
def addressOfX : AstNode :=
  .unaryOp { typeOffset := 7, typeKind := .signed, size := 4, indirect := 1 } .addr
    (.var { typeOffset := 7, typeKind := .signed, size := 4 } "x" 1)

/-- The type `int`, and a recording whose memory cannot be read. -/
def unreadableMemory : Lookups where
  type _ := some ⟨7, "int", some 4, 0, 0, 1, 0⟩
  typeName _ _ := some "int"
  varValue _ _ := none
  pointerSize _ := .failure
  varRef _ _ _ := none
  funcName _ := none
  enumItem _ _ := none

/-- An address is shown without its value, with success, and so is a variable. -/
theorem failures_lost :
    ((getEvalResult newSession (fun _ _ => some "int") 1 addressOfX 1).refused = [.heap] ∧
      responseSuccess (getEvalResult newSession (fun _ _ => some "int") 1 addressOfX 1) =
        some true) ∧
    (addVarEntry unreadableMemory 1 4096 7 0).refused = [.memory] ∧
      (addVarEntry unreadableMemory 1 4096 7 0).leave.returned = some .success :=
  ⟨⟨rfl, rfl⟩, rfl, rfl⟩

end FlightRec.Failures
