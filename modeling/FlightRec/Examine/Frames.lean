/-
# `FlightRec.Examine.Frames` — the list of stack frames

`stackTrace` keeps its frames for the requests that follow: `scopes` and `evaluate`
look a frame up by its id, and `variables` by the scope that `scopes` named.  The list
is not made anew, its items are written over, and it never gets shorter; nor is it
written to its end when the IDE asks for some of the frames only (`stackLoop`).

So a frame is the one of the latest stack if no stack before it was longer, and the
variables of a frame are read at its step if no younger frame is in the same scope
(`frames_sound_iff`).

The paging of the list itself is right for a window that reaches the end of the stack,
and for no other (`stack_paging_iff`).
-/
import FlightRec.Examine.Refs
import FlightRec.Examine.Stack
import FlightRec.Lib.Overwrite

namespace FlightRec

open Overwrite

/-! ## `stackTrace` -/

/-- `JSON_GET_INT32_FIELD` of an integer field; json-c returns the nearest value. -/
def jsonInt32 (i : Int) : Int := max (-2 ^ 31) (min i (2 ^ 31 - 1))

/-- `JSON_GET_INT64_FIELD` -/
def jsonInt64 (i : Int) : Int := max (-2 ^ 63) (min i (2 ^ 63 - 1))

/-- `(unsigned)` -/
def toUnsigned (i : Int) : Nat := (i % 2 ^ 32).toNat

/-- A `stackTrace` request and where the session is; a field is `none` if it is missing
or no integer. -/
structure StackRequest where
  curStep : Nat
  curDepth : Int
  arguments : Option (Option Int × Option Int)
  deriving DecidableEq, Repr

/-- An item of `stackFrames`. -/
structure StackItem where
  name : String
  id : Nat
  line : Nat
  column : Nat
  sourceName : String
  sourcePath : String
  sourceReference : Nat
  deriving DecidableEq, Repr

structure StackBody where
  stackFrames : List StackItem
  totalFrames : Int
  deriving DecidableEq, Repr

/-- `scope_id` as it is fetched, 0 for `NULL`. -/
def FrameRow.scope (row : FrameRow) : Nat := row.scopeId.getD 0

def FrameRow.frame (row : FrameRow) (id : Nat) : Frame :=
  { id, scope := row.scope, step := row.step, file := row.fileId, line := row.line }

def FrameRow.item (sourcePath : String) (row : FrameRow) (id : Nat) : StackItem :=
  { name := row.function, id, line := row.line, column := 0, sourceName := row.fileName,
    sourcePath := sourcePath ++ "/" ++ row.path, sourceReference := 0 }

/-- The loop of `process_stack`, with the list from the current frame on.  Its results
are that list, the items, and the number of frames if the rows came to an end. -/
def stackLoop (sourcePath : String) (skipFrames maxFrames : Nat) :
    List FrameRow → Nat → List Frame → List Frame × List StackItem × Option Nat
  | [], id, curFrame => (curFrame, [], some id)
  | row :: rows, id, curFrame =>
      if id < skipFrames then
        let rest := stackLoop sourcePath skipFrames maxFrames rows (id + 1) curFrame.tail
        (row.frame id :: rest.1, rest.2)
      else if id - skipFrames ≥ maxFrames then
        -- the frame is in the list, the item is not
        (row.frame id :: curFrame.tail, [], none)
      else
        let rest := stackLoop sourcePath skipFrames maxFrames rows (id + 1) curFrame.tail
        (row.frame id :: rest.1, row.item sourcePath id :: rest.2.1, rest.2.2)

/-- `process_stack` -/
def processStack (db : Db) (sourcePath : String) (req : StackRequest) (frameList : List Frame) :
    List Frame × Except String StackBody :=
  match req.arguments with
  | none => (frameList, .error "Missing 'arguments' param in 'stackTrace' request")
  | some (none, _) => (frameList, .error "Invalid 'startFrame' param in 'stackTrace' request")
  | some (some _, none) => (frameList, .error "Invalid 'levels' param in 'stackTrace' request")
  | some (some startFrame, some levels) =>
      let skipFrames := toUnsigned (jsonInt32 startFrame)
      let result := stackLoop sourcePath skipFrames (toUnsigned (jsonInt32 levels))
        (db.stackRows req.curStep req.curDepth) 0 frameList
      match result.2.2 with
      | none => (result.1, .error "Error fetching frames")
      | some id =>
          (result.1, .ok { stackFrames := result.2.1, totalFrames := id - skipFrames })

/-- `frame_list` after some requests. -/
def frameList (db : Db) (sourcePath : String) (requests : List StackRequest) : List Frame :=
  requests.foldl (fun frameList req => (processStack db sourcePath req frameList).1) []

/-! ## Requests for a frame -/

/-- An item of `scopes`; its `variablesReference` is `scope + 0.5`. -/
structure ScopeItem where
  name : String
  presentationHint : String
  scope : Nat
  deriving DecidableEq, Repr

def findFrame (frameList : List Frame) (id : Nat) : Option Frame :=
  frameList.find? fun curFrame => curFrame.id == id

def localsOf (scope : Nat) : List ScopeItem :=
  [⟨"Globals", "globals", globalScope⟩, ⟨"Locals", "locals", scope⟩]

/-- `process_scopes` -/
def processScopes (frameList : List Frame) (frameId : Option Int) :
    Except String (List ScopeItem) :=
  match frameId with
  | none => .error "Cannot find 'arguments/frameId' param in 'scopes' request"
  | some frameId =>
      match findFrame frameList (toUnsigned (jsonInt32 frameId)) with
      | none => .error "Unknown frame in 'scopes' request"
      | some curFrame => .ok (localsOf curFrame.scope)

/-- The scope and the step that `process_evaluate` takes for an expression. -/
def evaluateFrame (frameList : List Frame) (frameId : Option Int) : Except String (Nat × Nat) :=
  match frameId with
  | none => .error "Cannot get 'frameId' param in 'evaluate' request"
  | some frameId =>
      match findFrame frameList (toUnsigned (jsonInt64 frameId)) with
      | none => .error "Unknown 'frameId' specified in 'evaluate' request"
      | some curFrame => .ok (curFrame.scope, curFrame.step)

/-- The step at which `process_variables` reads the variables of a scope. -/
def variablesStep (curStep : Nat) (frameList : List Frame) (scope : Nat) : Except String Nat :=
  if scope = globalScope then .ok curStep
  else
    match frameList.find? fun curFrame => curFrame.scope == scope with
    | none => .error "Unknown variablesReference in 'variables' request"
    | some curFrame => .ok curFrame.step

theorem processScopeVars_step {info : DebugInfo} {curStep scope step : Nat} {frames : List Frame}
    (h : variablesStep curStep frames scope = .ok step) (refs : RefTable) :
    ∃ vars : List VarRow, processScopeVars info curStep frames scope refs =
      addEntries (vars.map fun v => addVar info curStep scope v.id step) refs := by
  unfold variablesStep at h
  unfold processScopeVars
  by_cases hglobal : scope = globalScope
  · rw [if_pos hglobal] at h
    cases h
    rw [if_pos hglobal, hglobal]
    exact ⟨_, rfl⟩
  · rw [if_neg hglobal] at h
    rw [if_neg hglobal]
    cases hfound : frames.find? (fun curFrame => curFrame.scope == scope) with
    | none =>
        rw [hfound] at h
        cases h
    | some frame =>
        rw [hfound] at h
        cases h
        exact ⟨_, rfl⟩

/-! ## What is in the list -/

/-- `startFrame` and `levels` of a request that has both. -/
def StackRequest.paging (req : StackRequest) : Option (Nat × Nat) :=
  match req.arguments with
  | some (some startFrame, some levels) =>
      some (toUnsigned (jsonInt32 startFrame), toUnsigned (jsonInt32 levels))
  | _ => none

/-- The rows that the loop fetches: one more than are asked for, if there are so many. -/
def StackRequest.fetched (db : Db) (req : StackRequest) : List FrameRow :=
  match req.paging with
  | none => []
  | some (startFrame, levels) =>
      (db.stackRows req.curStep req.curDepth).take (startFrame + levels + 1)

/-- Row `j` of the last request that fetched so many. -/
def lastFetched (db : Db) (requests : List StackRequest) (j : Nat) : Option FrameRow :=
  lastWrite (requests.map (·.fetched db)) j

theorem stackLoop_frames (sourcePath : String) {skipFrames maxFrames : Nat}
    {rows : List FrameRow} : ∀ {id : Nat} {curFrame : List Frame}, id ≤ skipFrames + maxFrames →
      (stackLoop sourcePath skipFrames maxFrames rows id curFrame).1 =
        overwrite (((rows.take (skipFrames + maxFrames + 1 - id)).zipIdx id).map
          fun r => r.1.frame r.2) curFrame := by
  induction rows with
  | nil =>
      intro id curFrame _
      rw [stackLoop, List.take_nil]
      rfl
  | cons row rows ih =>
      intro id curFrame hid
      have htake : skipFrames + maxFrames + 1 - id = (skipFrames + maxFrames - id) + 1 := by omega
      rw [htake, List.take_succ_cons, List.zipIdx_cons, List.map_cons, overwrite_cons, stackLoop]
      by_cases hlast : id = skipFrames + maxFrames
      · -- the loop breaks behind this row
        rw [if_neg (by omega), if_pos (by omega), hlast, Nat.sub_self, List.take_zero]
        rfl
      · have hrest := @ih (id + 1) curFrame.tail (by omega)
        have hcount : skipFrames + maxFrames + 1 - (id + 1) = skipFrames + maxFrames - id := by
          omega
        rw [hcount] at hrest
        by_cases hskip : id < skipFrames
        · rw [if_pos hskip]
          exact congrArg _ hrest
        · rw [if_neg hskip, if_neg (by omega)]
          exact congrArg _ hrest

theorem processStack_frames (db : Db) (sourcePath : String) (req : StackRequest)
    (frames : List Frame) :
    (processStack db sourcePath req frames).1 =
      overwrite ((req.fetched db).zipIdx.map fun r => r.1.frame r.2) frames := by
  obtain ⟨curStep, curDepth, arguments⟩ := req
  unfold processStack StackRequest.fetched StackRequest.paging
  match arguments with
  | none => rfl
  | some (none, _) => rfl
  | some (some _, none) => rfl
  | some (some startFrame, some levels) =>
      have hloop := @stackLoop_frames sourcePath (toUnsigned (jsonInt32 startFrame))
        (toUnsigned (jsonInt32 levels)) (db.stackRows curStep curDepth) 0 frames (Nat.zero_le _)
      refine Eq.trans ?_ hloop
      dsimp only
      split
      · rfl
      · rfl

/-- **The list of frames** holds at every place the last row that was fetched there. -/
theorem getElem?_frameList (db : Db) (sourcePath : String) (requests : List StackRequest)
    (j : Nat) :
    (frameList db sourcePath requests)[j]? =
      (lastFetched db requests j).map fun row => row.frame j := by
  have hlist : frameList db sourcePath requests =
      overwriteAll ((requests.map (·.fetched db)).map fun rows =>
        rows.zipIdx.map fun r => r.1.frame r.2) [] := by
    unfold frameList overwriteAll
    rw [List.map_map, List.foldl_map]
    simp only [processStack_frames, Function.comp_apply]
  have hlast : ∀ writes : List (List FrameRow),
      lastWrite (writes.map fun rows => rows.zipIdx.map fun r => r.1.frame r.2) j =
        (lastWrite writes j).map fun row => row.frame j := by
    intro writes
    unfold lastWrite
    rw [List.foldl_map]
    have hall : ∀ x : Option FrameRow,
        writes.foldl (fun y rows => ((rows.zipIdx.map fun r => r.1.frame r.2)[j]?).or y)
            (x.map fun row => row.frame j) =
          (writes.foldl (fun y rows => (rows[j]?).or y) x).map fun row => row.frame j := by
      induction writes with
      | nil =>
          intro x
          rfl
      | cons rows writes ih =>
          intro x
          rw [List.foldl_cons, List.foldl_cons, ← ih]
          congr 1
          rw [List.getElem?_map, List.getElem?_zipIdx, Nat.zero_add]
          cases rows[j]? with
          | none => rfl
          | some row => rfl
    exact hall none
  rw [hlist, getElem?_overwriteAll, hlast, List.getElem?_nil, Option.or_none]
  rfl

section
variable (db : Db) (sourcePath : String) (requests : List StackRequest)

theorem findFrame_frameList (id : Nat) :
    findFrame (frameList db sourcePath requests) id =
      (lastFetched db requests id).map fun row => row.frame id := by
  rw [findFrame, find?_numbered Frame.id ?_ id, getElem?_frameList]
  intro j frame hj
  rw [getElem?_frameList] at hj
  obtain ⟨row, _, rfl⟩ := Option.map_eq_some_iff.mp hj
  rfl

/-- The variables of a scope are read at the step of its youngest frame in the list. -/
theorem variablesStep_frameList {curStep scope step : Nat} (hlocal : scope ≠ globalScope) :
    variablesStep curStep (frameList db sourcePath requests) scope = .ok step ↔
      ∃ j row, lastFetched db requests j = some row ∧ row.scope = scope ∧ row.step = step ∧
        ∀ k < j, ∀ row', lastFetched db requests k = some row' → row'.scope ≠ scope := by
  rw [variablesStep, if_neg hlocal]
  have hfound : ∀ frame, ((frameList db sourcePath requests).find? fun curFrame =>
      curFrame.scope == scope) = some frame ↔
        ∃ j row, lastFetched db requests j = some row ∧ row.frame j = frame ∧ row.scope = scope ∧
          ∀ k < j, ∀ row', lastFetched db requests k = some row' → row'.scope ≠ scope := by
    intro frame
    rw [find?_eq_some_iff_first]
    simp only [getElem?_frameList, Option.map_eq_some_iff, forall_exists_index, and_imp]
    constructor
    · rintro ⟨j, ⟨row, hrow, rfl⟩, hscope, hfirst⟩
      exact ⟨j, row, hrow, rfl, beq_iff_eq.mp hscope, fun k hk row' hrow' =>
        beq_eq_false_iff_ne.mp (hfirst k hk _ row' hrow' rfl)⟩
    · rintro ⟨j, row, hrow, rfl, hscope, hfirst⟩
      refine ⟨j, ⟨row, hrow, rfl⟩, beq_iff_eq.mpr hscope, ?_⟩
      rintro k hk _ row' hrow' rfl
      exact beq_eq_false_iff_ne.mpr (hfirst k hk row' hrow')
  constructor
  · intro h
    split at h
    · cases h
    · next frame hframe =>
        cases h
        obtain ⟨j, row, hrow, rfl, hscope, hfirst⟩ := (hfound frame).mp hframe
        exact ⟨j, row, hrow, hscope, rfl, hfirst⟩
  · rintro ⟨j, row, hrow, hscope, rfl, hfirst⟩
    rw [(hfound (row.frame j)).mpr ⟨j, row, hrow, rfl, hscope, hfirst⟩]
    rfl

theorem processScopes_frameList (i : Int) :
    processScopes (frameList db sourcePath requests) (some i) =
      match lastFetched db requests (toUnsigned (jsonInt32 i)) with
      | some row => .ok (localsOf row.scope)
      | none => .error "Unknown frame in 'scopes' request" := by
  rw [processScopes, findFrame_frameList]
  cases lastFetched db requests (toUnsigned (jsonInt32 i)) with
  | none => rfl
  | some row => rfl

theorem evaluateFrame_frameList (i : Int) :
    evaluateFrame (frameList db sourcePath requests) (some i) =
      match lastFetched db requests (toUnsigned (jsonInt64 i)) with
      | some row => .ok (row.scope, row.step)
      | none => .error "Unknown 'frameId' specified in 'evaluate' request" := by
  rw [evaluateFrame, findFrame_frameList]
  cases lastFetched db requests (toUnsigned (jsonInt64 i)) with
  | none => rfl
  | some row => rfl

end

/-! ## Frames of the latest stack -/

/-- The stack of the last request that asked for one. -/
def latestStack (db : Db) (requests : List StackRequest) : List FrameRow :=
  match (requests.filter fun req => req.paging.isSome).getLast? with
  | none => []
  | some req => db.stackRows req.curStep req.curDepth

/-- Frame `i` of this stack. -/
def latestFrame (db : Db) (requests : List StackRequest) (i : Int) : Option FrameRow :=
  if 0 ≤ i then (latestStack db requests)[i.toNat]? else none

/-- Requests for frame `i` are answered for frame `i` of the latest stack. -/
structure FrameSound (db : Db) (sourcePath : String) (requests : List StackRequest)
    (curStep : Nat) (i : Int) : Prop where
  scopes : processScopes (frameList db sourcePath requests) (some i) =
    match latestFrame db requests i with
    | some row => .ok (localsOf row.scope)
    | none => .error "Unknown frame in 'scopes' request"
  evaluate : evaluateFrame (frameList db sourcePath requests) (some i) =
    match latestFrame db requests i with
    | some row => .ok (row.scope, row.step)
    | none => .error "Unknown 'frameId' specified in 'evaluate' request"
  locals : ∀ row, latestFrame db requests i = some row →
    variablesStep curStep (frameList db sourcePath requests) row.scope = .ok row.step

/-- What the requests so far must be like for this: a row that was fetched for a frame
is the one of the latest stack, nothing was fetched for what is no frame of it, and the
youngest frame with the scope of frame `i` is at the step of frame `i`. -/
structure FrameTraced (db : Db) (requests : List StackRequest) (curStep : Nat) (i : Int) :
    Prop where
  known : ∀ row, latestFrame db requests i = some row →
    (∃ last, lastFetched db requests (toUnsigned (jsonInt32 i)) = some last ∧
      last.scope = row.scope) ∧
    ∃ last, lastFetched db requests (toUnsigned (jsonInt64 i)) = some last ∧
      last.scope = row.scope ∧ last.step = row.step
  unknown : latestFrame db requests i = none →
    lastFetched db requests (toUnsigned (jsonInt32 i)) = none ∧
      lastFetched db requests (toUnsigned (jsonInt64 i)) = none
  youngest : ∀ row, latestFrame db requests i = some row →
    if row.scope = globalScope then row.step = curStep
    else ∀ j last, lastFetched db requests j = some last → last.scope = row.scope →
      (∀ k < j, ∀ other, lastFetched db requests k = some other → other.scope ≠ row.scope) →
        last.step = row.step

theorem exists_youngest {db : Db} {requests : List StackRequest} {scope : Nat} (j : Nat) :
    ∀ last, lastFetched db requests j = some last → last.scope = scope →
      ∃ k row, lastFetched db requests k = some row ∧ row.scope = scope ∧
        ∀ l < k, ∀ other, lastFetched db requests l = some other → other.scope ≠ scope := by
  induction j using Nat.strongRecOn with
  | ind j ih =>
      intro last hlast hscope
      by_cases hyounger : ∃ k < j, ∃ other, lastFetched db requests k = some other ∧
          other.scope = scope
      · obtain ⟨k, hk, other, hother, hsame⟩ := hyounger
        exact ih k hk other hother hsame
      · refine ⟨j, last, hlast, hscope, fun l hl other hother hsame => ?_⟩
        exact hyounger ⟨l, hl, other, hother, hsame⟩

/-- **Frame lookup.**  After any `stackTrace` requests, and at any step, the requests for
a frame are answered for that frame of the latest stack exactly if the rows that were
fetched before do not stand in for others. -/
theorem frames_sound_iff (db : Db) (sourcePath : String) (requests : List StackRequest)
    (curStep : Nat) (i : Int) :
    FrameSound db sourcePath requests curStep i ↔ FrameTraced db requests curStep i := by
  constructor
  · rintro ⟨scopes, evaluate, locals⟩
    rw [processScopes_frameList] at scopes
    rw [evaluateFrame_frameList] at evaluate
    refine ⟨fun row hrow => ⟨?_, ?_⟩, fun hnone => ⟨?_, ?_⟩, fun row hrow => ?_⟩
    · rw [hrow] at scopes
      split at scopes
      · next last hlast =>
          refine ⟨last, hlast, ?_⟩
          simpa [localsOf] using scopes
      · cases scopes
    · rw [hrow] at evaluate
      split at evaluate
      · next last hlast =>
          refine ⟨last, hlast, ?_⟩
          simpa using evaluate
      · cases evaluate
    · rw [hnone] at scopes
      split at scopes
      · cases scopes
      · next hlast => exact hlast
    · rw [hnone] at evaluate
      split at evaluate
      · cases evaluate
      · next hlast => exact hlast
    · have hstep := locals row hrow
      by_cases hglobal : row.scope = globalScope
      · rw [variablesStep, if_pos hglobal] at hstep
        rw [if_pos hglobal]
        exact (Except.ok.inj hstep).symm
      · rw [if_neg hglobal]
        intro j last hlast hscope hfirst
        have hread : variablesStep curStep (frameList db sourcePath requests) row.scope =
            .ok last.step :=
          (variablesStep_frameList db sourcePath requests hglobal).mpr
            ⟨j, last, hlast, hscope, rfl, hfirst⟩
        exact Except.ok.inj (hread.symm.trans hstep)
  · rintro ⟨known, unknown, youngest⟩
    refine ⟨?_, ?_, fun row hrow => ?_⟩
    · rw [processScopes_frameList]
      cases hrow : latestFrame db requests i with
      | none => rw [(unknown hrow).1]
      | some row =>
          obtain ⟨⟨last, hlast, hscope⟩, _⟩ := known row hrow
          rw [hlast]
          dsimp only
          rw [hscope]
    · rw [evaluateFrame_frameList]
      cases hrow : latestFrame db requests i with
      | none => rw [(unknown hrow).2]
      | some row =>
          obtain ⟨_, last, hlast, hscope, hstep⟩ := known row hrow
          rw [hlast]
          dsimp only
          rw [hscope, hstep]
    · have hyoungest := youngest row hrow
      by_cases hglobal : row.scope = globalScope
      · rw [if_pos hglobal] at hyoungest
        rw [variablesStep, if_pos hglobal, hyoungest]
      · rw [if_neg hglobal] at hyoungest
        obtain ⟨_, last, hlast, hscope, _⟩ := known row hrow
        obtain ⟨k, first, hfirst, hsame, hbefore⟩ := exists_youngest _ last hlast hscope
        exact (variablesStep_frameList db sourcePath requests hglobal).mpr
          ⟨k, first, hfirst, hsame, hyoungest k first hfirst hsame hbefore, hbefore⟩

/-- The stack in the second call of `twice`, and then that of `main` alone. -/
def returnedRequests : List StackRequest :=
  [⟨7, 2, some (some 0, some 20)⟩, ⟨8, 1, some (some 0, some 20)⟩]

/-- There is no frame 1 any more, but the list still has one. -/
theorem returned_frame_accepted :
    latestFrame calledTwiceDb returnedRequests 1 = none ∧
      evaluateFrame (frameList calledTwiceDb "" returnedRequests) (some 1) = .ok (1, 5) ∧
      ¬ FrameSound calledTwiceDb "" returnedRequests 8 1 := by
  have hnone : latestFrame calledTwiceDb returnedRequests 1 = none := by decide
  have hstale : evaluateFrame (frameList calledTwiceDb "" returnedRequests) (some 1) =
      .ok (1, 5) := by rfl
  refine ⟨hnone, hstale, fun h => ?_⟩
  have hreject := h.evaluate
  rw [hnone, hstale] at hreject
  cases hreject

/-! ## Paging -/

/-- A field of the request as the loop has it: what does not fit in an `int32_t` is cut. -/
theorem toUnsigned_jsonInt32 (k : Nat) : toUnsigned (jsonInt32 k) = min k (2 ^ 31 - 1) := by
  unfold toUnsigned jsonInt32
  omega

theorem stackLoop_items (sourcePath : String) {skipFrames maxFrames : Nat}
    {rows : List FrameRow} : ∀ {id : Nat} {curFrame : List Frame}, id ≤ skipFrames + maxFrames →
      (stackLoop sourcePath skipFrames maxFrames rows id curFrame).2.1 =
        (((rows.zipIdx id).drop (skipFrames - id)).take
          (skipFrames + maxFrames - max id skipFrames)).map
            fun r => r.1.item sourcePath r.2 := by
  induction rows with
  | nil =>
      intro id curFrame _
      rw [stackLoop, List.zipIdx_nil, List.drop_nil, List.take_nil]
      rfl
  | cons row rows ih =>
      intro id curFrame hid
      rw [stackLoop, List.zipIdx_cons]
      by_cases hskip : id < skipFrames
      · have hdrop : skipFrames - id = skipFrames - (id + 1) + 1 := by omega
        have hmax : max id skipFrames = max (id + 1) skipFrames := by omega
        rw [if_pos hskip, hdrop, List.drop_succ_cons, hmax]
        exact ih (by omega)
      · have hdrop : skipFrames - id = 0 := by omega
        rw [if_neg hskip, hdrop, List.drop_zero]
        by_cases hlast : id - skipFrames ≥ maxFrames
        · have htake : skipFrames + maxFrames - max id skipFrames = 0 := by omega
          rw [if_pos hlast, htake, List.take_zero]
          rfl
        · have htake : skipFrames + maxFrames - max id skipFrames =
              skipFrames + maxFrames - max (id + 1) skipFrames + 1 := by omega
          have hrest := @ih (id + 1) curFrame.tail (by omega)
          rw [show skipFrames - (id + 1) = 0 by omega, List.drop_zero] at hrest
          rw [if_neg hlast, htake, List.take_succ_cons, List.map_cons]
          exact congrArg _ hrest

/-- The loop sees the end of the rows exactly if the window reaches it. -/
theorem stackLoop_count (sourcePath : String) {skipFrames maxFrames : Nat}
    {rows : List FrameRow} : ∀ {id : Nat} {curFrame : List Frame}, id ≤ skipFrames + maxFrames →
      (stackLoop sourcePath skipFrames maxFrames rows id curFrame).2.2 =
        if id + rows.length ≤ skipFrames + maxFrames then some (id + rows.length) else none := by
  induction rows with
  | nil =>
      intro id curFrame hid
      rw [stackLoop, if_pos (by simpa using hid)]
      rfl
  | cons row rows ih =>
      intro id curFrame hid
      have hlength : id + (row :: rows).length = id + 1 + rows.length := by
        rw [List.length_cons]
        omega
      rw [stackLoop, hlength]
      by_cases hskip : id < skipFrames
      · rw [if_pos hskip]
        exact ih (by omega)
      · rw [if_neg hskip]
        by_cases hlast : id - skipFrames ≥ maxFrames
        · rw [if_pos hlast, if_neg (by omega)]
        · rw [if_neg hlast]
          exact ih (by omega)

/-- Frames `startFrame` to `startFrame + levels - 1`, as far as the stack goes. -/
def window (sourcePath : String) (rows : List FrameRow) (startFrame levels : Nat) :
    List StackItem :=
  ((rows.zipIdx.drop startFrame).take levels).map fun r => r.1.item sourcePath r.2

/-- A `stackTrace` request at a step, with both fields. -/
def StackRequest.page (curStep : Nat) (curDepth : Int) (startFrame levels : Nat) : StackRequest :=
  { curStep, curDepth, arguments := some (some (startFrame : Int), some (levels : Int)) }

/-- The page is the window.  `totalFrames` is a difference of two `ULONG`s that is stored
as an `int64_t`, so it is below 0 exactly if the subtraction wrapped around. -/
structure PagedRight (db : Db) (sourcePath : String) (frames : List Frame)
    (curStep : Nat) (curDepth : Int) (startFrame levels : Nat) : Prop where
  page : ∃ body, (processStack db sourcePath (.page curStep curDepth startFrame levels) frames).2 =
    .ok body ∧
      body.stackFrames = window sourcePath (db.stackRows curStep curDepth) startFrame levels ∧
      0 ≤ body.totalFrames

theorem window_length (sourcePath : String) (rows : List FrameRow) (startFrame levels : Nat) :
    (window sourcePath rows startFrame levels).length =
      min levels (rows.length - startFrame) := by
  rw [window, List.length_map, List.length_take, List.length_drop, List.length_zipIdx]

/-- From the end of the stack on, a window says nothing about its bounds. -/
theorem window_eq_iff {sourcePath : String} {rows : List FrameRow} {k k' m m' : Nat}
    (hk : k ≤ k') (hm : m ≤ m') (hend : rows.length ≤ k + m) (hstart : k ≤ rows.length) :
    window sourcePath rows k m = window sourcePath rows k' m' ↔ k = k' ∨ k = rows.length := by
  constructor
  · intro h
    have hlength := congrArg List.length h
    rw [window_length, window_length] at hlength
    omega
  · rintro (rfl | rfl)
    · unfold window
      congr 1
      rw [List.take_of_length_le, List.take_of_length_le]
      · rw [List.length_drop, List.length_zipIdx]
        omega
      · rw [List.length_drop, List.length_zipIdx]
        omega
    · unfold window
      rw [List.drop_of_length_le (by rw [List.length_zipIdx]),
        List.drop_of_length_le (by rwa [List.length_zipIdx]), List.take_nil, List.take_nil]

theorem processStack_page (db : Db) (sourcePath : String) (frames : List Frame)
    (curStep : Nat) (curDepth : Int) (k m : Nat) :
    (processStack db sourcePath (.page curStep curDepth k m) frames).2 =
      let skipFrames := min k (2 ^ 31 - 1)
      let rows := db.stackRows curStep curDepth
      if rows.length ≤ skipFrames + min m (2 ^ 31 - 1) then
        .ok { stackFrames := window sourcePath rows skipFrames (min m (2 ^ 31 - 1)),
              totalFrames := rows.length - skipFrames }
      else .error "Error fetching frames" := by
  have hcount := @stackLoop_count sourcePath (toUnsigned (jsonInt32 k)) (toUnsigned (jsonInt32 m))
    (db.stackRows curStep curDepth) 0 frames (Nat.zero_le _)
  have hitems := @stackLoop_items sourcePath (toUnsigned (jsonInt32 k)) (toUnsigned (jsonInt32 m))
    (db.stackRows curStep curDepth) 0 frames (Nat.zero_le _)
  unfold processStack StackRequest.page
  dsimp only
  rw [hcount, Nat.zero_add]
  rw [Nat.zero_max, Nat.sub_zero, Nat.add_sub_cancel_left] at hitems
  rw [hitems, toUnsigned_jsonInt32, toUnsigned_jsonInt32]
  by_cases h : (db.stackRows curStep curDepth).length ≤ min k (2 ^ 31 - 1) + min m (2 ^ 31 - 1)
  · rw [if_pos h, if_pos h]
    rfl
  · rw [if_neg h, if_neg h]

/-- **Stack paging.**  With `startFrame` and `levels` as an `int32_t` holds them, a page is
right exactly if the stack ends inside it or right at its borders (and, for a `startFrame`
no `int32_t` holds, if the stack ends where the page is taken to begin). -/
theorem stack_paging_iff (db : Db) (sourcePath : String) (frames : List Frame)
    (curStep : Nat) (curDepth : Int) (k m : Nat) :
    PagedRight db sourcePath frames curStep curDepth k m ↔
      min k (2 ^ 31 - 1) ≤ (db.stackRows curStep curDepth).length ∧
      (db.stackRows curStep curDepth).length ≤ min k (2 ^ 31 - 1) + min m (2 ^ 31 - 1) ∧
      (k < 2 ^ 31 ∨ (db.stackRows curStep curDepth).length = 2 ^ 31 - 1) := by
  have hpage := processStack_page db sourcePath frames curStep curDepth k m
  dsimp only at hpage
  have hwindow := fun hend hstart => @window_eq_iff sourcePath (db.stackRows curStep curDepth)
    (min k (2 ^ 31 - 1)) k (min m (2 ^ 31 - 1)) m (Nat.min_le_left ..) (Nat.min_le_left ..)
    hend hstart
  constructor
  · rintro ⟨body, hbody, hframes, htotal⟩
    rw [hpage] at hbody
    split at hbody
    · next hend =>
        cases hbody
        have hstart : min k (2 ^ 31 - 1) ≤ (db.stackRows curStep curDepth).length := by
          dsimp only at htotal
          omega
        have := (hwindow hend hstart).mp hframes
        omega
    · cases hbody
  · rintro ⟨hstart, hend, hfits⟩
    rw [if_pos hend] at hpage
    refine ⟨_, hpage, (hwindow hend hstart).mpr (by omega), ?_⟩
    show (0 : Int) ≤ (db.stackRows curStep curDepth).length - (min k (2 ^ 31 - 1) : Nat)
    omega

/-- The stack has two frames.  A page of one of them is an error, and behind the stack
`totalFrames` wraps around. -/
theorem stack_paging_fails :
    (processStack calledTwiceDb "" (.page 7 2 0 1) []).2 = .error "Error fetching frames" ∧
      (∃ body, (processStack calledTwiceDb "" (.page 7 2 3 20) []).2 = .ok body ∧
        body.totalFrames = -1) ∧
      ¬ PagedRight calledTwiceDb "" [] 7 2 0 1 ∧ ¬ PagedRight calledTwiceDb "" [] 7 2 3 20 := by
  have htwo : (calledTwiceDb.stackRows 7 2).length = 2 := by decide
  have hlevels := processStack_page calledTwiceDb "" [] 7 2 0 1
  have hbehind := processStack_page calledTwiceDb "" [] 7 2 3 20
  dsimp only at hlevels hbehind
  rw [htwo, if_neg (by decide)] at hlevels
  rw [htwo, if_pos (by decide)] at hbehind
  refine ⟨hlevels, ⟨_, hbehind, by decide⟩, ?_, ?_⟩
  · rintro ⟨body, hbody, _, _⟩
    rw [hlevels] at hbody
    cases hbody
  · rintro ⟨body, hbody, _, htotal⟩
    rw [hbehind] at hbody
    cases hbody
    exact absurd htotal (by decide)

end FlightRec
