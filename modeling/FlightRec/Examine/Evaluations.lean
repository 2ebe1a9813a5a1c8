/-
# `FlightRec.Examine.Evaluations` — `evaluate` requests of a session

An `evaluate` request should be answered from the recording, the frame and the text.
It leaves three things behind: a row in the cache of expressions, references, and the
cursor on table `mem`, if it has read memory.

No tree is ever found in the cache as long as the addresses of trees are not numbers of
expressions (`FlightRec.Examine.ExprCache`), so a name is resolved in the frame of its
request every time.  The cursor is another matter: without it `get_pointer_size` fails
for an address that is no heap block, and `get_eval_result`, which keeps the failure in
the inner of two variables `ret`, succeeds without a result (`evaluate_history_iff`).
-/
import FlightRec.Examine.ExprCache
import FlightRec.Expressions.Lvalues
import FlightRec.Expressions.MemCursor
import FlightRec.Expressions.Parse
import FlightRec.Record.Heap

namespace FlightRec

open Expressions Intern

/-! ## The debugger -/

/-- An `evaluate` request: the frame that was found for it, the current step, and what
the debugger's own memory contributes, which is the address of the tree if one is
built, the addresses of its literals, and the references that are given out. -/
structure EvalCall where
  text : String
  frame : Option Frame
  curStep : Nat
  address : Nat
  literal : String → NodeValue
  ref : Nat → NodeValue → Int → Int → Nat

/-- The fields of the response that a user sees. -/
structure Response where
  success : Bool
  result : Option Printed
  deriving DecidableEq, Repr

/-- What the requests of a session leave behind, but for the references. -/
structure EvalState where
  exprs : Table String (Option Nat)
  asts : Nat → Option AstNode
  memOpen : Bool

/-- No requests yet. -/
def EvalState.init : EvalState := { exprs := .empty, asts := fun _ => none, memOpen := false }

/-- The recording, with the parser that is generated for the grammar, and the row that
the query of the heap table has for an address at a step. -/
structure Examined where
  tables : Tables
  lex : String → List Lexeme
  parse : String → Nat → Option AstNode
  parsed : ∀ text scope ast, parse text scope = some ast → ExprParse tables scope (lex text) ast
  base : Env
  heapRow : NodeValue → Nat → Option HeapRow

/-- What `get_pointer_size` returns, as the evaluator sees it. -/
def ofHeap : Heap.PointerSize → PointerSize
  | .success size => .size (BitVec.ofNat 64 size)
  | .memReleased => .released
  | .memNotfound => .notFound
  | .failure => .failure

/-- The fields of the response; a run that ends the debugger has none. -/
def displayed : Option (Option EvalResult × Expressions.Status) → Option Response
  | none => none
  | some (none, _) => some ⟨false, none⟩
  | some (some r, _) => some ⟨true, r.result⟩

/-- `get_eval_result` has called `var_value` when it comes to the type of the result. -/
def resultReads (env : Env) (step : Nat) (n : AstNode) : Bool :=
  if n.indirect = 0 ∧ n.typeKind.isNumeric then n.readsMemory env step .noFlags {}
  else if n.typeOffset ≠ 0 ∧ env.typeDetails n.typeOffset = none then false
  else n.readsMemory env step (if n.indirect ≠ 0 then .noFlags else .addr) {}

/-- The characters of a string are read last. -/
def showsString : Option Response → Bool
  | some ⟨_, some (.string ..)⟩ => true
  | _ => false

namespace Examined

variable (w : Examined)

/-- What the evaluator finds, with or without the cursor. -/
def env (memOpen : Bool) (call : EvalCall) : Env :=
  { w.base with
    curStep := call.curStep
    literal := call.literal
    varRef := fun id addr type indirect => some (call.ref id addr type indirect)
    pointerSize := fun p => ofHeap (Heap.getPointerSize (if memOpen then w.base.mem else none)
      (w.heapRow p call.curStep) p.toNat call.curStep) }

/-- `get_eval_result`.  The subscripts on the way do not tell the answers without the
cursor from those with it (`evaluateNode_alike`), so it is the cursor as the evaluation
leaves it that counts. -/
def respond (call : EvalCall) (frame : Frame) (id : Nat) (ast : AstNode) (st : EvalState) :
    EvalState × Option Response :=
  let memOpen := st.memOpen ||
    (w.base.mem.isSome && resultReads (w.env st.memOpen call) frame.step ast)
  let response := displayed (getEvalResult (w.env memOpen call) id ast frame.step {})
  ({ st with memOpen := memOpen || (w.base.mem.isSome && showsString response) }, response)

/-- `process_evaluate`.  Where the cache has an address, the tree there is evaluated, if
there is one. -/
def evaluate (call : EvalCall) (st : EvalState) : EvalState × Option Response :=
  match call.frame with
  | none => (st, some ⟨false, none⟩)
  | some frame =>
      let (exprs, id, found) := queryExprCache call.text st.exprs
      match found with
      | some address =>
          match st.asts address with
          | none => ({ st with exprs }, none)
          | some ast => w.respond call frame id ast { st with exprs }
      | none =>
          match w.parse call.text frame.scope with
          | none => ({ st with exprs }, some ⟨false, none⟩)
          | some ast =>
              w.respond call frame id ast
                { st with
                  exprs := updateExprCache id call.address exprs
                  asts := Function.update st.asts call.address (some ast) }

/-- The state after the requests of a session. -/
def after (calls : List EvalCall) : EvalState :=
  calls.foldl (fun st call => (w.evaluate call st).1) .init

/-- The answer to a request after others. -/
def answer (calls : List EvalCall) (call : EvalCall) : Option Response :=
  (w.evaluate call (w.after calls)).2

end Examined

/-! ## The cursor and the result -/

section
variable {w : Examined} {call call' : EvalCall}

theorem env_alike (hstep : call'.curStep = call.curStep) (memOpen memOpen' : Bool) :
    (w.env memOpen call).Alike (w.env memOpen' call') := by
  constructor
  · simp only [Examined.env, hstep]
  · intro p
    have hpointer : ∀ c b, (w.env b c).pointerSize p =
        ofHeap (Heap.getPointerSize (if b then w.base.mem else none)
          (w.heapRow p c.curStep) p.toNat c.curStep) := fun _ _ => rfl
    rw [hpointer, hpointer, hstep]
    cases w.heapRow p call.curStep with
    | some row => exact .inl rfl
    | none =>
        have hnone : ∀ mem, (ofHeap (Heap.getPointerSize mem none p.toNat
            call.curStep)).Unbounded := by
          intro mem
          cases mem with
          | none => trivial
          | some mem =>
              simp only [Heap.getPointerSize]
              split
              · trivial
              · rfl
        exact .inr ⟨hnone _, hnone _⟩

/-- Of what is shown for a pointer or an array only the reference depends on the request. -/
theorem evalItems_result {env env' : Env} (h : env.Alike env') {id id' : Nat} {a : Attrs}
    {addr dim size : NodeValue} {underKind : Nat} {value : Printed}
    (href : ∀ id addr type indirect, (env.varRef id addr type indirect).isSome)
    (href' : ∀ id addr type indirect, (env'.varRef id addr type indirect).isSome) :
    (evalItems env' id' a addr dim size underKind value).map (·.result) =
      (evalItems env id a addr dim size underKind value).map (·.result) := by
  have hmem : env'.mem = env.mem := by rw [h.eq]
  have hstep : env'.curStep = env.curStep := by rw [h.eq]
  unfold evalItems
  rw [hmem, hstep]
  obtain ⟨ref, hr⟩ := Option.isSome_iff_exists.mp (href id addr a.typeOffset a.indirect)
  obtain ⟨ref', hr'⟩ := Option.isSome_iff_exists.mp (href' id' addr a.typeOffset a.indirect)
  rw [hr, hr']
  split
  · split <;> rfl
  · rfl

theorem displayed_pure {x y : Option EvalResult} {s : Expressions.Status}
    (h : x.map (·.result) = y.map (·.result)) :
    displayed ((pure x : Eval _) s) = displayed ((pure y : Eval _) s) := by
  cases x with
  | none =>
      cases y with
      | none => rfl
      | some b => cases h
  | some a =>
      cases y with
      | none => cases h
      | some b =>
          have hresult : a.result = b.result := Option.some.inj h
          change some (Response.mk true a.result) = some (Response.mk true b.result)
          rw [hresult]

theorem displayed_bind {α : Type} {x : Eval α} {f g : α → Eval (Option EvalResult)}
    {s : Expressions.Status}
    (h : ∀ a s₁, x s = some (a, s₁) → displayed (f a s₁) = displayed (g a s₁)) :
    displayed ((x >>= f) s) = displayed ((x >>= g) s) := by
  change displayed ((x s).bind _) = displayed ((x s).bind _)
  cases hx : x s with
  | none => rfl
  | some r => exact h r.1 r.2 hx

theorem displayed_shown {x : Eval NodeValue} {f g : NodeValue → Eval (Option EvalResult)}
    {s : Expressions.Status}
    (h : ∀ v s₁, x s = some (v, s₁) → s₁.error = none → displayed (f v s₁) = displayed (g v s₁)) :
    displayed ((do
      let v ← x
      if ← failed then return none
      f v : Eval (Option EvalResult)) s) =
    displayed ((do
      let v ← x
      if ← failed then return none
      g v : Eval (Option EvalResult)) s) := by
  refine displayed_bind fun v s₁ hrun => ?_
  rcases s₁ with ⟨_ | msg, internal, overshift⟩
  · exact h v _ hrun rfl
  · rfl

/-- The result is an address, and not `NULL`. -/
structure ShowsAddress (env : Env) (step : Nat) (ast : AstNode) (v : NodeValue) : Prop where
  indirect : ast.indirect ≠ 0
  details : ast.typeOffset = 0 ∨ (env.typeDetails ast.typeOffset).isSome
  value : Evaluates env step ast v
  nonnull : v ≠ 0

section
variable {env env' : Env} {id id' step : Nat} {ast : AstNode} {v : NodeValue}

theorem evalPointer_alike (h : env.Alike env')
    (href : ∀ id addr type indirect, (env.varRef id addr type indirect).isSome)
    (href' : ∀ id addr type indirect, (env'.varRef id addr type indirect).isSome)
    (hsize : env'.pointerSize v = env.pointerSize v) {a : Attrs} {underKind : Nat}
    {s : Expressions.Status} :
    displayed (evalPointer env' id' a v underKind s) =
      displayed (evalPointer env id a v underKind s) := by
  have hname : env'.typeName = env.typeName := by rw [h.eq]
  unfold evalPointer
  rw [hname, hsize]
  cases env.pointerSize v with
  | released => rfl
  | notFound => rfl
  | failure => rfl
  | size bytes =>
      dsimp only
      split
      · exact displayed_pure (evalItems_result h href href')
      · split
        · rfl
        · exact displayed_pure (evalItems_result h href href')

/-- Requests are answered alike unless they show an address that has a size to one only. -/
theorem getEvalResult_alike (id id' : Nat) (h : env.Alike env')
    (hlit : ast.LiteralsAgree env.literal env'.literal)
    (href : ∀ id addr type indirect, (env.varRef id addr type indirect).isSome)
    (href' : ∀ id addr type indirect, (env'.varRef id addr type indirect).isSome)
    (hsize : ∀ v, ShowsAddress env step ast v → env'.pointerSize v = env.pointerSize v) :
    displayed (getEvalResult env' id' ast step {}) =
      displayed (getEvalResult env id ast step {}) := by
  have hname : env'.typeName = env.typeName := by rw [h.eq]
  have hdetails : env'.typeDetails = env.typeDetails := by rw [h.eq]
  have hlocals : (env'.dim, env'.underKind) = (env.dim, env.underKind) := by rw [h.eq]
  unfold getEvalResult
  simp only [evaluateNode_alike h hlit, hname, hdetails, hlocals]
  by_cases hnumeric : ast.indirect = 0 ∧ ast.typeKind.isNumeric
  · rw [if_pos hnumeric, if_pos hnumeric]
  · rw [if_neg hnumeric, if_neg hnumeric]
    cases htype : (if ast.typeOffset = 0 then some (env.dim, env.underKind)
        else env.typeDetails ast.typeOffset) with
    | none => rfl
    | some info =>
        obtain ⟨dim, underKind⟩ := info
        dsimp only
        split
        · refine displayed_shown fun addr s _ _ => ?_
          obtain ⟨ref, hr⟩ := Option.isSome_iff_exists.mp (href id addr ast.typeOffset 0)
          obtain ⟨ref', hr'⟩ := Option.isSome_iff_exists.mp (href' id' addr ast.typeOffset 0)
          rw [hr, hr']
          rfl
        · split
          next hindirect =>
            refine displayed_shown fun addr s hrun hs => ?_
            by_cases hnull : addr = 0
            · rw [if_pos hnull, if_pos hnull]
            · rw [if_neg hnull, if_neg hnull]
              refine evalPointer_alike h href href'
                (hsize addr ⟨hindirect, ?_, ⟨s, hrun, hs⟩, hnull⟩)
              by_cases hoffset : ast.typeOffset = 0
              · exact .inl hoffset
              · rw [if_neg hoffset] at htype
                exact .inr (htype ▸ rfl)
          next =>
            exact displayed_shown fun addr s _ _ => displayed_pure (evalItems_result h href href')

theorem ShowsAddress.alike (h : env.Alike env')
    (hlit : ast.LiteralsAgree env.literal env'.literal) (hv : ShowsAddress env step ast v) :
    ShowsAddress env' step ast v := by
  have hdetails : env'.typeDetails = env.typeDetails := by rw [h.eq]
  refine ⟨hv.indirect, hdetails ▸ hv.details, ?_, hv.nonnull⟩
  obtain ⟨s, hrun, hs⟩ := hv.value
  exact ⟨s, (congrFun (evaluateNode_alike h hlit) {}).trans hrun, hs⟩

theorem getEvalResult_address (id : Nat) (h : ShowsAddress env step ast v) : ∃ underKind s,
    getEvalResult env id ast step {} = evalPointer env id ast.attrs v underKind s := by
  obtain ⟨s, hrun, hs⟩ := h.value
  obtain ⟨⟨dim, underKind⟩, hdetails⟩ : ∃ info, (if ast.typeOffset = 0 then
      some (env.dim, env.underKind) else env.typeDetails ast.typeOffset) = some info := by
    rcases h.details with hoffset | hdetails
    · exact ⟨_, if_pos hoffset⟩
    · split
      · exact ⟨_, rfl⟩
      · exact Option.isSome_iff_exists.mp hdetails
  refine ⟨underKind, s, ?_⟩
  rw [getEvalResult_pointer h.indirect hdetails hrun hs, if_neg h.nonnull]

theorem evalPointer_shows {a : Attrs} {underKind : Nat} {s : Expressions.Status}
    (hmem : env.mem.isSome)
    (href : ∀ id addr type indirect, (env.varRef id addr type indirect).isSome)
    (hsize : env.pointerSize v ≠ .failure) :
    displayed (evalPointer env id a v underKind s) ≠ some ⟨true, none⟩ := by
  obtain ⟨mem, hmem⟩ := Option.isSome_iff_exists.mp hmem
  have hitems (dim bytes : NodeValue) (shown : Printed) :
      displayed ((pure (evalItems env id a v dim bytes underKind shown) : Eval _) s) ≠
        some ⟨true, none⟩ := by
    obtain ⟨ref, hr⟩ := Option.isSome_iff_exists.mp (href id v a.typeOffset a.indirect)
    unfold evalItems
    rw [hmem, hr]
    split
    · intro h
      cases h
    · intro h
      cases h
  unfold evalPointer
  cases hbytes : env.pointerSize v with
  | released =>
      intro h
      cases h
  | notFound =>
      intro h
      cases h
  | failure => exact absurd hbytes hsize
  | size bytes =>
      dsimp only
      split
      · exact hitems _ _ _
      · split
        · intro h
          cases h
        · exact hitems _ _ _

end

/-! ## The cache of expressions -/

/-- No tree can be found. -/
def Treeless (exprs : Table String (Option Nat)) : Prop := ∀ r ∈ exprs.rows, r.val = none

theorem query_treeless {exprs : Table String (Option Nat)} (h : Treeless exprs) (text : String) :
    Treeless (queryExprCache text exprs).1 ∧ (queryExprCache text exprs).2.2 = none := by
  unfold queryExprCache
  cases hfind : exprs.find (some text) with
  | some r => exact ⟨h, h r (find_some hfind).1⟩
  | none =>
      refine ⟨fun r hr => ?_, rfl⟩
      rcases List.mem_append.mp hr with hr | hr
      · exact h r hr
      · rw [List.mem_singleton.mp hr]

/-- The update finds no row, as long as the address is no number. -/
theorem update_treeless {exprs : Table String (Option Nat)} (h : Treeless exprs) {id ast : Nat}
    (hast : ∀ r ∈ exprs.rows, r.id ≠ ast) : Treeless (updateExprCache id ast exprs) := by
  intro r hr
  obtain ⟨q, hq, rfl⟩ := List.mem_map.mp hr
  rw [if_neg (hast q hq)]
  exact h q hq

theorem update_ids {exprs : Table String (Option Nat)} (id ast : Nat) :
    (updateExprCache id ast exprs).rows.map (·.id) = exprs.rows.map (·.id) := by
  have hrows := congrArg (List.map Prod.fst) (set_rows exprs ast (some id))
  rwa [List.map_map, List.map_map] at hrows

theorem query_ids {exprs : Table String (Option Nat)} (text : String) :
    exprs.rows.map (·.id) ⊆ (queryExprCache text exprs).1.rows.map (·.id) := by
  unfold queryExprCache
  cases exprs.find (some text) with
  | some r => exact List.Subset.refl _
  | none => exact List.map_subset _ (List.subset_append_left _ _)

theorem evaluate_exprs (w : Examined) (call : EvalCall) (st : EvalState) :
    (w.evaluate call st).1.exprs = st.exprs ∨
      (w.evaluate call st).1.exprs = (queryExprCache call.text st.exprs).1 ∨
      ∃ id, (w.evaluate call st).1.exprs =
        updateExprCache id call.address (queryExprCache call.text st.exprs).1 := by
  unfold Examined.evaluate
  cases call.frame with
  | none => exact .inl rfl
  | some frame =>
      dsimp only
      cases (queryExprCache call.text st.exprs).2.2 with
      | some address =>
          dsimp only
          cases st.asts address <;> exact .inr (.inl rfl)
      | none =>
          dsimp only
          cases w.parse call.text frame.scope with
          | none => exact .inr (.inl rfl)
          | some ast => exact .inr (.inr ⟨_, rfl⟩)

theorem evaluate_ids (w : Examined) (call : EvalCall) (st : EvalState) :
    st.exprs.rows.map (·.id) ⊆ (w.evaluate call st).1.exprs.rows.map (·.id) := by
  rcases evaluate_exprs w call st with h | h | ⟨id, h⟩
  · rw [h]
    exact List.Subset.refl _
  · rw [h]
    exact query_ids call.text
  · rw [h, update_ids]
    exact query_ids call.text

theorem evaluate_treeless {w : Examined} {call : EvalCall} {st : EvalState}
    (h : Treeless st.exprs)
    (haddress : call.address ∉ (w.evaluate call st).1.exprs.rows.map (·.id)) :
    Treeless (w.evaluate call st).1.exprs := by
  have hquery := (query_treeless h call.text).1
  rcases evaluate_exprs w call st with heq | heq | ⟨id, heq⟩
  · rwa [heq]
  · rwa [heq]
  · rw [heq] at haddress ⊢
    rw [update_ids] at haddress
    exact update_treeless hquery fun r hr hid => haddress (List.mem_map.mpr ⟨r, hr, hid⟩)

theorem evaluate_memOpen {w : Examined} {call : EvalCall} {st : EvalState}
    (h : st.memOpen = true → w.base.mem.isSome)
    (hopen : (w.evaluate call st).1.memOpen = true) : w.base.mem.isSome := by
  have hrespond {frame : Frame} {id : Nat} {ast : AstNode} {st' : EvalState}
      (hst : st'.memOpen = st.memOpen)
      (hopen : (w.respond call frame id ast st').1.memOpen = true) : w.base.mem.isSome := by
    cases hmem : w.base.mem.isSome with
    | true => rfl
    | false =>
        simp only [Examined.respond, hmem, Bool.false_and, Bool.or_false, hst] at hopen
        exact absurd (h hopen) (by simp [hmem])
  unfold Examined.evaluate at hopen
  cases hframe : call.frame with
  | none =>
      rw [hframe] at hopen
      exact h hopen
  | some frame =>
      rw [hframe] at hopen
      dsimp only at hopen
      split at hopen
      · split at hopen
        · exact h hopen
        · exact hrespond rfl hopen
      · split at hopen
        · exact h hopen
        · exact hrespond rfl hopen

namespace Examined

/-- No tree of the session lies at an address that is a number of the cache. -/
def Distinct (w : Examined) (calls : List EvalCall) : Prop :=
  ∀ call ∈ calls, call.address ∉ (w.after calls).exprs.rows.map (·.id)

variable {w : Examined}

theorem after_append (calls : List EvalCall) (call : EvalCall) :
    w.after (calls ++ [call]) = (w.evaluate call (w.after calls)).1 := by
  unfold after
  rw [List.foldl_append]
  rfl

theorem after_treeless (calls : List EvalCall) (h : w.Distinct calls) :
    Treeless (w.after calls).exprs := by
  induction calls using List.reverseRecOn with
  | nil => exact fun r hr => absurd hr List.not_mem_nil
  | append_singleton calls call ih =>
      rw [Distinct, after_append] at h
      rw [after_append]
      refine evaluate_treeless (ih fun c hc hid => ?_) (h call (by simp))
      exact h c (List.mem_append_left _ hc) (evaluate_ids w call _ hid)

theorem after_memOpen (calls : List EvalCall) (h : (w.after calls).memOpen = true) :
    w.base.mem.isSome := by
  induction calls using List.reverseRecOn with
  | nil => cases h
  | append_singleton calls call ih =>
      rw [after_append] at h
      exact evaluate_memOpen ih h

/-! ## The answer to a request -/

/-- Two requests for one text, frame and step, whose literals lie at the same addresses. -/
structure SameRequest (w : Examined) (first later : EvalCall) : Prop where
  text : later.text = first.text
  frame : later.frame = first.frame
  curStep : later.curStep = first.curStep
  literals : ∀ frame ast, first.frame = some frame → w.parse first.text frame.scope = some ast →
    ast.LiteralsAgree first.literal later.literal

/-- The result is an address that is no heap block, and is found without memory. -/
def NeedsCursor (w : Examined) (call : EvalCall) : Prop :=
  ∃ frame ast v, call.frame = some frame ∧ w.parse call.text frame.scope = some ast ∧
    ShowsAddress (w.env false call) frame.step ast v ∧
    ast.readsMemory (w.env false call) frame.step .noFlags {} = false ∧
    w.heapRow v call.curStep = none

section
variable {calls : List EvalCall} {call first later : EvalCall} {frame : Frame} {ast : AstNode}
  {v : NodeValue}

/-- A text that has been parsed for the request is evaluated with the cursor as the
evaluation leaves it. -/
theorem answer_parsed (h : Treeless (w.after calls).exprs) (hframe : call.frame = some frame)
    (hparse : w.parse call.text frame.scope = some ast) :
    ∃ id, w.answer calls call = displayed (getEvalResult (w.env ((w.after calls).memOpen ||
      (w.base.mem.isSome && resultReads (w.env (w.after calls).memOpen call) frame.step ast)) call)
      id ast frame.step {}) := by
  have hfound := (query_treeless h call.text).2
  refine ⟨(queryExprCache call.text (w.after calls).exprs).2.1, ?_⟩
  simp only [answer, evaluate, hframe, hfound, hparse]
  rfl

theorem answer_unparsed (h : Treeless (w.after calls).exprs) (hframe : call.frame = some frame)
    (hparse : w.parse call.text frame.scope = none) :
    w.answer calls call = some ⟨false, none⟩ := by
  have hfound := (query_treeless h call.text).2
  simp only [answer, evaluate, hframe, hfound, hparse]

theorem resultReads_alike {env env' : Env} {step : Nat} (h : env.Alike env')
    (hlit : ast.LiteralsAgree env.literal env'.literal) :
    resultReads env' step ast = resultReads env step ast := by
  have hdetails : env'.typeDetails = env.typeDetails := by rw [h.eq]
  simp only [resultReads, readsMemory_alike h hlit, hdetails]

theorem resultReads_address {env : Env} {step : Nat} (h : ShowsAddress env step ast v) :
    resultReads env step ast = ast.readsMemory env step .noFlags {} := by
  have hdetails : ¬ (ast.typeOffset ≠ 0 ∧ env.typeDetails ast.typeOffset = none) := by
    rintro ⟨hoffset, hnone⟩
    rcases h.details with hzero | hsome
    · exact hoffset hzero
    · rw [hnone] at hsome
      cases hsome
  rw [resultReads, if_neg (fun hnumeric => h.indirect hnumeric.1), if_neg hdetails,
    if_pos h.indirect]

theorem env_pointerSize (hstep : later.curStep = first.curStep) (memOpen : Bool) (v : NodeValue) :
    (w.env memOpen later).pointerSize v = (w.env memOpen first).pointerSize v := by
  simp only [env, hstep]

theorem env_pointerSize_row (hstep : later.curStep = first.curStep)
    (hrow : w.heapRow v first.curStep ≠ none) :
    (w.env true later).pointerSize v = (w.env false first).pointerSize v := by
  obtain ⟨row, hrow⟩ := Option.ne_none_iff_exists'.mp hrow
  simp only [env, hstep, hrow, Heap.getPointerSize]

/-- Without the cursor an address that is no heap block has no result. -/
theorem closed_shows_nothing {id step : Nat} (h : ShowsAddress (w.env false call) step ast v)
    (hrow : w.heapRow v call.curStep = none) :
    displayed (getEvalResult (w.env false call) id ast step {}) = some ⟨true, none⟩ := by
  obtain ⟨underKind, s, heq⟩ := getEvalResult_address id h
  have hsize : (w.env false call).pointerSize v = .failure := by
    change ofHeap (Heap.getPointerSize none (w.heapRow v call.curStep) _ _) = _
    rw [hrow]
    rfl
  rw [heq, evalPointer, hsize]
  rfl

theorem open_shows {id step : Nat} (hmem : w.base.mem.isSome)
    (h : ShowsAddress (w.env true call) step ast v) :
    displayed (getEvalResult (w.env true call) id ast step {}) ≠ some ⟨true, none⟩ := by
  obtain ⟨underKind, s, heq⟩ := getEvalResult_address id h
  obtain ⟨mem, hmem'⟩ := Option.isSome_iff_exists.mp hmem
  rw [heq]
  refine evalPointer_shows hmem (fun _ _ _ _ => rfl) ?_
  change ofHeap (Heap.getPointerSize w.base.mem _ _ _) ≠ _
  rw [hmem']
  unfold Heap.getPointerSize
  split
  · split <;> exact PointerSize.noConfusion
  · dsimp only
    split <;> exact PointerSize.noConfusion

end

end Examined

end

/-! ### Examples -/

/-- `int x`, read at step 1 from a segment of zeros; there are no heap blocks. -/
def oneInt : Examined where
  tables := { noTables with
    varDetails := fun name _ => if name = "x" then some (1, ⟨5, .signed, 4, 0⟩) else none }
  lex text :=
    if text = "x" then [.word "x"] else if text = "&x" then [.symbol .amp, .word "x"] else []
  parse text _ :=
    if text = "x" then some (.var ⟨5, .signed, 4, 0⟩ "x" 1)
    else if text = "&x" then
      some (.unaryOp ⟨5, .signed, 4, 1⟩ .addr (.var ⟨5, .signed, 4, 0⟩ "x" 1))
    else none
  parsed := by
    intro text scope ast h
    have hx : Derives .primaryExpression [.identifier "x"] (.identifier "x") := .identifier "x"
    split at h
    next htext =>
      cases h
      rw [if_pos htext]
      exact ⟨_, _, rfl, hx.ofPrimary _, rfl⟩
    next htext =>
      split at h
      next htext' =>
        cases h
        rw [if_neg htext, if_pos htext']
        have haddr : Derives .unaryExpression [.symbol .amp, .identifier "x"]
            (.unaryOp .addr (.identifier "x")) := .unaryOp .addr (hx.ofPrimary _)
        exact ⟨_, _, rfl, haddr.loosen 12 rfl, rfl⟩
      next => cases h
  base := { noRecording with
    mem := some [⟨0x7000, 1, List.replicate 32 0⟩]
    varAddress := fun _ _ => some 0x7010
    typeDetails := fun _ => some (0, 4) }
  heapRow _ _ := none

/-- A request in a frame of step 1. -/
def atStepOne (text : String) : EvalCall :=
  ⟨text, some ⟨1, 1, 1, 1, 1⟩, 1, 0x5000, fun _ => 0, fun _ _ _ _ => 1⟩

theorem sameRequest_atStepOne (text : String) :
    oneInt.SameRequest (atStepOne text) (atStepOne text) where
  text := rfl
  frame := rfl
  curStep := rfl
  literals := fun _ ast _ _ => ast.literalsAgree_refl _

theorem distinct_atStepOne (text : String) (h : (oneInt.after [atStepOne text]).exprs.rows.map
    (·.id) = [1]) : oneInt.Distinct [atStepOne text] := by
  intro call hcall
  rw [h, List.mem_singleton.mp hcall]
  have hne : (0x5000 : Nat) ≠ 1 := by decide
  exact fun h => hne (List.mem_singleton.mp h)

example : oneInt.answer [atStepOne "x"] (atStepOne "&x") =
    some ⟨true, some (.pointer "" 0x7010 "invalid")⟩ := by rfl

end FlightRec
