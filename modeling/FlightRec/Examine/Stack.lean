/-
# `FlightRec.Examine.Stack` — call stacks out of step ids and depths

The database holds no call stack: a step has an id and a depth, and that is what
`process_stack`, `process_next`, `process_stepout` and `process_stepback` compare.
Record makes the depths by counting START and END statements, so that behind a
recording there is a stack of activations (`FlightRec.Lib.CallStack`) whose height
at every step is the recorded depth (`DepthsEvolve`).

    `stackTrace` lists the live activations, each at its last step,
    as far as these steps were taken in functions                    (`stackRows_activations_iff`)
    `stepOut` returns to the caller, `next` and `stepBack` stay in
    the activation they started from                                 (`stepping_activations`)
-/
import FlightRec.Examine.Session
import FlightRec.Lib.CallStack
import Mathlib.Data.List.Forall2

namespace FlightRec

open Query CallStack

/-! ## The activations behind a recording -/

/-- `func_flag` of the statement that step `i` executes. -/
def Db.funcFlagAt (db : Db) (i : Nat) : Option Nat :=
  (db.steps.find? (fun s => s.id = i)).bind fun s =>
    (db.statements.find? (fun st => st.address = s.address)).bind (·.funcFlag)

/-- Step `i` is at a START statement. -/
def Db.enters (db : Db) (i : Nat) : Bool := db.funcFlagAt i == some funcFlagStart

/-- Step `i` is at an END statement. -/
def Db.ends (db : Db) (i : Nat) : Bool := db.funcFlagAt i == some funcFlagEnd

/-- The live activations at step `i`, innermost first, named by the steps that entered them. -/
def Db.activations (db : Db) (i : Nat) : List Nat := stackAt db.enters db.ends i

/-- The activation that executes step `i`. -/
def Db.executing (db : Db) (i : Nat) : Option Nat := running db.enters db.ends i

/-- The recorded depths are those of `process_breakpoint`: a step at a START
statement pushes an activation, the step after one at an END statement pops one,
and the depth is the height of the stack, at least 1. -/
structure DepthsEvolve (db : Db) : Prop where
  depth : ∀ s ∈ db.steps, s.depth = (db.activations s.id).length
  pos : ∀ s ∈ db.steps, 1 ≤ s.depth

instance (db : Db) : Decidable (DepthsEvolve db) :=
  decidable_of_iff ((∀ s ∈ db.steps, s.depth = (db.activations s.id).length) ∧
      ∀ s ∈ db.steps, 1 ≤ s.depth)
    ⟨fun h => ⟨h.1, h.2⟩, fun h => ⟨h.1, h.2⟩⟩

/-- `t` is the last step up to `n` that the activation `p` executes. -/
def Db.LastStepOf (db : Db) (p n t : Nat) : Prop :=
  t ≤ n ∧ db.executing t = some p ∧ ∀ j ≤ n, db.executing j = some p → j ≤ t

/-! ## The query of `process_stack` -/

/-- The columns of one stack frame. -/
structure FrameRow where
  fileId : Nat
  fileName : String
  path : String
  line : Nat
  function : String
  scopeId : Option Nat
  step : Nat
  deriving DecidableEq, Repr

/-- `JOIN statement st ON st.address = s.address JOIN file f ON f.id = st.file_id
JOIN function fun ON fun.id = s.function_id`, with the depth the result is ordered by. -/
def Db.frameRows (db : Db) (s : StepRow) : List (Int × FrameRow) :=
  (db.statements.filter (fun st => st.address = s.address)).flatMap fun st =>
    (db.files.filter (fun f => f.id = st.fileId)).flatMap fun f =>
      (db.functions.filter (fun fn => fn.id = s.functionId)).map fun fn =>
        (s.depth, { fileId := f.id, fileName := f.name, path := f.path, line := st.line,
                    function := fn.name, scopeId := st.scopeId, step := s.id })

/-- `SELECT MAX(id) FROM step WHERE id <= ? AND depth <= ? GROUP BY depth`. -/
def Db.lastIds (db : Db) (curStep : Nat) (curDepth : Int) : List Nat :=
  maxPerGroup StepRow.depth StepRow.id
    (db.steps.filter fun s => s.id ≤ curStep ∧ s.depth ≤ curDepth)

/-- The rows `process_stack` turns into stack frames. -/
def Db.stackRows (db : Db) (curStep : Nat) (curDepth : Int) : List FrameRow :=
  ((orderByDesc Prod.fst ((db.steps.filter fun s => s.id ∈ db.lastIds curStep curDepth).flatMap
    db.frameRows)).map Prod.snd).dedup

/-- The step was taken in a function: `func_id` names a row of `function`. -/
def Db.InFunction (db : Db) (s : StepRow) : Prop := ∃ fn ∈ db.functions, fn.id = s.functionId

instance (db : Db) (s : StepRow) : Decidable (db.InFunction s) :=
  inferInstanceAs (Decidable (∃ fn ∈ db.functions, _))

/-- `q` is the last step of its depth up to `s`, and not deeper than `s`. -/
def Db.LastOfDepth (db : Db) (s q : StepRow) : Prop :=
  q.id ≤ s.id ∧ q.depth ≤ s.depth ∧
    ∀ t ∈ db.steps, t.id ≤ s.id → t.depth = q.depth → t.id ≤ q.id

instance (db : Db) (s q : StepRow) : Decidable (db.LastOfDepth s q) :=
  inferInstanceAs (Decidable (_ ∧ _ ∧ _))

theorem Db.mem_frameRows {db : Db} {s : StepRow} {x : Int × FrameRow} (hx : x ∈ db.frameRows s) :
    x.1 = s.depth ∧ x.2.step = s.id ∧ db.InFunction s := by
  simp only [Db.frameRows, List.mem_flatMap, List.mem_filter, List.mem_map,
    decide_eq_true_eq] at hx
  obtain ⟨_, _, _, _, fn, ⟨hfn, hid⟩, rfl⟩ := hx
  exact ⟨rfl, rfl, fn, hfn, hid⟩

/-- The id of a function is a key, at least for the functions of the steps. -/
def Db.FunctionKeys (db : Db) : Prop :=
  ∀ s ∈ db.steps, (db.functions.filter fun fn => fn.id = s.functionId).length ≤ 1

theorem Db.functionKeys_of_nodup {db : Db} (keys : (db.functions.map (·.id)).Nodup) :
    db.FunctionKeys := by
  intro s _
  rw [← List.countP_eq_length_filter]
  have hcount := List.nodup_iff_count_le_one.mp keys s.functionId
  rw [List.count, List.countP_map] at hcount
  exact hcount

theorem Recorded.functionKeys {db : Db} (rec : Recorded db) : db.FunctionKeys :=
  fun s hs => Nat.le_of_eq (rec.function s hs)

theorem Recorded.inFunction {db : Db} (rec : Recorded db) {s : StepRow} (hs : s ∈ db.steps) :
    db.InFunction s := (rec.function s hs).exists

section
variable {db : Db} (rec : Located db)
include rec

theorem Located.frameRows_eq (keys : db.FunctionKeys) {s : StepRow} (hs : s ∈ db.steps)
    (hin : db.InFunction s) : ∃ f : FrameRow, db.frameRows s = [(s.depth, f)] ∧ f.step = s.id := by
  obtain ⟨st, f, hst, hf⟩ := rec.place hs
  obtain ⟨fn, hfn⟩ : ∃ fn, db.functions.filter (fun fn => fn.id = s.functionId) = [fn] := by
    obtain ⟨fn, hmem, hid⟩ := hin
    have hmem : fn ∈ db.functions.filter fun fn => fn.id = s.functionId :=
      List.mem_filter.mpr ⟨hmem, decide_eq_true hid⟩
    exact List.length_eq_one_iff.mp
      (Nat.le_antisymm (keys s hs) (List.length_pos_of_mem hmem))
  refine ⟨{ fileId := f.id, fileName := f.name, path := f.path, line := st.line,
            function := fn.name, scopeId := st.scopeId, step := s.id }, ?_, rfl⟩
  simp only [Db.frameRows, hst, List.flatMap_cons, hf, hfn, List.map_cons, List.map_nil,
    List.flatMap_nil, List.append_nil]

theorem Located.mem_lastIds {n : Nat} {d : Int} {s : StepRow} (hs : s ∈ db.steps) :
    s.id ∈ db.lastIds n d ↔ s.id ≤ n ∧ s.depth ≤ d ∧
      ∀ q ∈ db.steps, q.id ≤ n → q.depth = s.depth → q.id ≤ s.id := by
  have pos : ∀ q ∈ db.steps.filter fun s => s.id ≤ n ∧ s.depth ≤ d, 0 < q.id :=
    fun q hq => (rec.id_bounds (List.mem_filter.mp hq).1).1
  rw [Db.lastIds, mem_maxPerGroup pos]
  simp only [List.mem_filter, decide_eq_true_eq]
  constructor
  · rintro ⟨r, ⟨hr, hrn, hrd⟩, hid, greatest⟩
    cases rec.step_unique hr hs hid
    exact ⟨hrn, hrd, fun q hq hqn hqd => greatest q ⟨hq, hqn, hqd ▸ hrd⟩ hqd⟩
  · rintro ⟨hn, hd, greatest⟩
    exact ⟨s, ⟨hs, hn, hd⟩, rfl, fun q ⟨hq, hqn, _⟩ hqd => greatest q hq hqn hqd⟩

/-! ## The stack trace -/

/-- The rows of the query before the projection: the last step of every depth. -/
theorem Located.mem_frames {n : Nat} {d : Int} {x : Int × FrameRow} :
    x ∈ (db.steps.filter fun s => s.id ∈ db.lastIds n d).flatMap db.frameRows ↔
      ∃ s ∈ db.steps, (s.id ≤ n ∧ s.depth ≤ d ∧
        ∀ q ∈ db.steps, q.id ≤ n → q.depth = s.depth → q.id ≤ s.id) ∧ x ∈ db.frameRows s := by
  simp only [List.mem_flatMap, List.mem_filter, decide_eq_true_eq]
  constructor
  · rintro ⟨s, ⟨hs, hlast⟩, hx⟩
    exact ⟨s, hs, (rec.mem_lastIds hs).mp hlast, hx⟩
  · rintro ⟨s, hs, hlast, hx⟩
    exact ⟨s, ⟨hs, (rec.mem_lastIds hs).mpr hlast⟩, hx⟩

theorem Located.frames_nodup (keys : db.FunctionKeys) (n : Nat) (d : Int) :
    (((db.steps.filter fun s => s.id ∈ db.lastIds n d).flatMap db.frameRows).map
      Prod.fst).Nodup := by
  have nodup : (db.steps.filter fun s => s.id ∈ db.lastIds n d).Nodup := by
    have : (db.steps.map (·.id)).Nodup := by
      rw [rec.ids]
      exact List.nodup_range'
    exact (List.Nodup.of_map _ this).filter _
  refine List.pairwise_map.mpr (List.pairwise_flatMap.mpr ⟨fun s hs => ?_, ?_⟩)
  · have hs := (List.mem_filter.mp hs).1
    by_cases hin : db.InFunction s
    · obtain ⟨f, hf, _⟩ := rec.frameRows_eq keys hs hin
      rw [hf]
      exact List.pairwise_singleton _ _
    · rw [List.eq_nil_iff_forall_not_mem.mpr fun x hx => hin (Db.mem_frameRows hx).2.2]
      exact List.Pairwise.nil
  · refine nodup.imp_of_mem fun {s q} hs hq hne x hx y hy hxy => hne ?_
    obtain ⟨hs, hslast⟩ := List.mem_filter.mp hs
    obtain ⟨hq, hqlast⟩ := List.mem_filter.mp hq
    obtain ⟨hsn, _, hsmax⟩ := (rec.mem_lastIds hs).mp (by simpa using hslast)
    obtain ⟨hqn, _, hqmax⟩ := (rec.mem_lastIds hq).mp (by simpa using hqlast)
    have hdepth : s.depth = q.depth := by
      rw [← (Db.mem_frameRows hx).1, ← (Db.mem_frameRows hy).1, hxy]
    exact rec.step_unique hs hq
      (Nat.le_antisymm (hqmax s hs hsn hdepth) (hsmax q hq hqn hdepth.symm))

theorem Located.frames_steps_nodup (keys : db.FunctionKeys) (n : Nat) (d : Int) :
    ((orderByDesc Prod.fst ((db.steps.filter fun s => s.id ∈ db.lastIds n d).flatMap
      db.frameRows)).map Prod.snd).Nodup := by
  have strict := orderByDesc_strict (rec.frames_nodup keys n d)
  refine List.pairwise_map.mpr (strict.imp_of_mem fun {x y} hx hy hlt heq => ?_)
  obtain ⟨s, hs, _, hxs⟩ := rec.mem_frames.mp (mem_orderByDesc.mp hx)
  obtain ⟨q, hq, _, hyq⟩ := rec.mem_frames.mp (mem_orderByDesc.mp hy)
  obtain ⟨hxd, hxstep, -⟩ := Db.mem_frameRows hxs
  obtain ⟨hyd, hystep, -⟩ := Db.mem_frameRows hyq
  cases rec.step_unique hs hq (by rw [← hxstep, ← hystep, heq])
  omega

theorem Located.exists_entry {i : Nat} {p : Nat} (h : p ∈ db.activations i)
    (hi : i ≤ db.steps.length) : ∃ s ∈ db.steps, s.id = p ∧ s.id ≤ i := by
  obtain ⟨h1, hp⟩ := stackAt_bounds h
  obtain ⟨s, hs, hid⟩ := rec.exists_step h1 (Nat.le_trans hp hi)
  exact ⟨s, hs, hid, hid ▸ hp⟩

end

section
variable {db : Db} (rec : Located db) (keys : db.FunctionKeys) (evolve : DepthsEvolve db)
include rec evolve

/-- The step of height `d` that comes last up to `n` is a step of the activation
that is live at height `d`. -/
theorem DepthsEvolve.lastStepOf {n p : Nat} {a b : List Nat} (hn : n ≤ db.steps.length)
    (h : db.activations n = a ++ p :: b) {s : StepRow} (hs : s ∈ db.steps) (hsn : s.id ≤ n)
    (hd : s.depth = b.length + 1)
    (last : ∀ q ∈ db.steps, q.id ≤ n → q.depth = s.depth → q.id ≤ s.id) :
    db.LastStepOf p n s.id := by
  have hheight : height db.enters db.ends s.id = b.length + 1 := by
    have hdepth := evolve.depth s hs
    show (db.activations s.id).length = b.length + 1
    omega
  have hlast : ∀ j ≤ n, height db.enters db.ends j = b.length + 1 → j ≤ s.id := by
    intro j hj hjd
    by_cases h0 : j = 0
    · omega
    · obtain ⟨q, hq, rfl⟩ := rec.exists_step (i := j) (by omega) (Nat.le_trans hj hn)
      have hdepth := evolve.depth q hq
      have hlength : (db.activations q.id).length = b.length + 1 := hjd
      exact last q hq hj (by omega)
  obtain ⟨hrun, honly⟩ := running_of_last h hsn hheight hlast
  exact ⟨hsn, hrun, honly⟩

theorem DepthsEvolve.exists_last {s : StepRow} (hs : s ∈ db.steps) {k : Nat} (h1 : 1 ≤ k)
    (hk : k ≤ s.depth) : ∃ q ∈ db.steps, db.LastOfDepth s q ∧ q.depth = k := by
  have hn := (rec.id_bounds hs).2
  have hd := evolve.depth s hs
  -- the activation at height `k`, and then the last step of that height
  have hsplit : ∃ a p b, db.activations s.id = a ++ p :: b ∧ b.length + 1 = k := by
    obtain ⟨i, hi⟩ : ∃ i, i + k = (db.activations s.id).length :=
      ⟨(db.activations s.id).length - k, by omega⟩
    have hlt : i < (db.activations s.id).length := by omega
    refine ⟨(db.activations s.id).take i, (db.activations s.id)[i],
      (db.activations s.id).drop (i + 1), ?_, ?_⟩
    · rw [← List.drop_eq_getElem_cons hlt, List.take_append_drop]
    · rw [List.length_drop]
      omega
  obtain ⟨a, p, b, hab, hbk⟩ := hsplit
  obtain ⟨e, he, hep, hen⟩ := rec.exists_entry (by rw [hab]; simp : p ∈ _) hn
  have hekd : e.depth = k := by
    have hlength : (db.activations e.id).length = k := by
      show (stackAt db.enters db.ends e.id).length = k
      rw [hep, stackAt_entry hab, List.length_cons, hbk]
    rw [evolve.depth e he, hlength]
  rcases orderByDesc_filter_cases StepRow.id
      (fun q => decide (q.id ≤ s.id) && decide (q.depth = k)) db.steps with
    ⟨q, hq, hp, greatest, _⟩ | ⟨none, _⟩
  · simp only [Bool.and_eq_true, decide_eq_true_eq] at hp greatest
    exact ⟨q, hq, ⟨hp.1, by omega, fun t ht htn htd => greatest t ht ⟨htn, htd.trans hp.2⟩⟩, hp.2⟩
  · exact absurd (none e he) (by simp [hen, hekd])

include keys

/-- **Depths of the stack trace**: one frame for each depth, deepest first, if the last
steps of the depths were taken in functions. -/
theorem stackFrames_depths {s : StepRow} (hs : s ∈ db.steps)
    (hin : ∀ q ∈ db.steps, db.LastOfDepth s q → db.InFunction q) :
    (orderByDesc Prod.fst ((db.steps.filter fun q => q.id ∈ db.lastIds s.id s.depth).flatMap
      db.frameRows)).map Prod.fst = (List.range' 1 s.depth.toNat).reverse.map Int.ofNat := by
  have strict := orderByDesc_strict (rec.frames_nodup keys s.id s.depth)
  refine List.Pairwise.eq_of_mem_iff (r := (· > ·)) (List.pairwise_map.mpr strict) ?_ ?_
  · rw [List.pairwise_map, List.pairwise_reverse]
    exact (List.pairwise_lt_range' (s := 1) (n := s.depth.toNat)).imp fun h => Int.ofNat_lt.mpr h
  · intro k
    simp only [List.mem_map, mem_orderByDesc, List.mem_reverse, List.mem_range'_1]
    constructor
    · rintro ⟨x, hx, rfl⟩
      obtain ⟨q, hq, ⟨_, hqd, _⟩, hxq⟩ := rec.mem_frames.mp hx
      rw [(Db.mem_frameRows hxq).1]
      have hpos := evolve.pos q hq
      exact ⟨q.depth.toNat, by omega, Int.toNat_of_nonneg (by omega)⟩
    · rintro ⟨d, ⟨hd1, hdd⟩, rfl⟩
      obtain ⟨q, hq, hlast, hqd⟩ := evolve.exists_last rec hs hd1 (by omega)
      obtain ⟨f, hf, _⟩ := rec.frameRows_eq keys hq (hin q hq hlast)
      exact ⟨(q.depth, f), rec.mem_frames.mpr ⟨q, hq, hlast, by rw [hf]; simp⟩, hqd⟩

theorem stackRows_of_inFunction {s : StepRow} (hs : s ∈ db.steps)
    (hin : ∀ q ∈ db.steps, db.LastOfDepth s q → db.InFunction q) :
    List.Forall₂ (fun f (d : Nat) => ∃ q ∈ db.steps, q.id = f.step ∧ q.depth = d)
        (db.stackRows s.id s.depth) (List.range' 1 s.depth.toNat).reverse ∧
      List.Forall₂ (fun f p => db.LastStepOf p s.id f.step)
        (db.stackRows s.id s.depth) (db.activations s.id) := by
  have hn := (rec.id_bounds hs).2
  have hd := evolve.depth s hs
  have hdepths := stackFrames_depths rec keys evolve hs hin
  have hmem : ∀ x ∈ orderByDesc Prod.fst ((db.steps.filter fun q =>
      q.id ∈ db.lastIds s.id s.depth).flatMap db.frameRows), ∃ q ∈ db.steps,
        (q.id ≤ s.id ∧ q.depth ≤ s.depth ∧
          ∀ t ∈ db.steps, t.id ≤ s.id → t.depth = q.depth → t.id ≤ q.id) ∧ x ∈ db.frameRows q :=
    fun x hx => rec.mem_frames.mp (mem_orderByDesc.mp hx)
  rw [Db.stackRows, (rec.frames_steps_nodup keys s.id s.depth).dedup]
  generalize orderByDesc Prod.fst ((db.steps.filter fun q =>
      q.id ∈ db.lastIds s.id s.depth).flatMap db.frameRows) = frames at hdepths hmem
  constructor
  · have hall : List.Forall₂ (fun f (d : Int) => ∃ q ∈ db.steps, q.id = f.step ∧ q.depth = d)
        (frames.map Prod.snd) ((List.range' 1 s.depth.toNat).reverse.map Int.ofNat) := by
      rw [← hdepths, List.forall₂_map_left_iff, List.forall₂_map_right_iff, List.forall₂_same]
      intro x hx
      obtain ⟨q, hq, _, hxq⟩ := hmem x hx
      obtain ⟨hxd, hxstep, -⟩ := Db.mem_frameRows hxq
      exact ⟨q, hq, hxstep.symm, hxd.symm⟩
    exact List.forall₂_map_right_iff.mp hall
  · have hlen : frames.length = s.depth.toNat := by
      simpa using congrArg List.length hdepths
    rw [List.forall₂_map_left_iff, List.forall₂_iff_get]
    refine ⟨by omega, fun i hi hi' => ?_⟩
    simp only [List.get_eq_getElem]
    obtain ⟨q, hq, ⟨hqn, _, hqmax⟩, hxq⟩ := hmem frames[i] (List.getElem_mem hi)
    obtain ⟨hxd, hxstep, -⟩ := Db.mem_frameRows hxq
    have hqd : q.depth = ((db.activations s.id).drop (i + 1)).length + 1 := by
      have hmap : i < (frames.map Prod.fst).length := by
        rwa [List.length_map]
      have hfst : (frames.map Prod.fst)[i] = s.depth - i := by
        simp only [hdepths, List.getElem_map, List.getElem_reverse, List.length_range',
          List.getElem_range', Int.ofNat_eq_natCast]
        omega
      rw [List.getElem_map, hxd] at hfst
      rw [hfst, List.length_drop]
      omega
    have hsplit : db.activations s.id =
        (db.activations s.id).take i ++ (db.activations s.id)[i] ::
          (db.activations s.id).drop (i + 1) := by
      rw [← List.drop_eq_getElem_cons hi', List.take_append_drop]
    rw [hxstep]
    exact evolve.lastStepOf rec hn hsplit hq hqn hqd hqmax

omit keys in
/-- A depth with a frame has it from its last step, which so was taken in a function. -/
theorem inFunction_of_stackRows {s : StepRow}
    (h : List.Forall₂ (fun f (d : Nat) => ∃ q ∈ db.steps, q.id = f.step ∧ q.depth = d)
      (db.stackRows s.id s.depth) (List.range' 1 s.depth.toNat).reverse)
    {q : StepRow} (hq : q ∈ db.steps) (hlast : db.LastOfDepth s q) : db.InFunction q := by
  obtain ⟨hqn, hqd, hqmax⟩ := hlast
  have hpos := evolve.pos q hq
  have hdepth : q.depth.toNat ∈ (List.range' 1 s.depth.toNat).reverse := by
    rw [List.mem_reverse, List.mem_range'_1]
    omega
  obtain ⟨i, hi, hdepth⟩ := List.getElem_of_mem hdepth
  have hrow : i < (db.stackRows s.id s.depth).length := h.length_eq ▸ hi
  obtain ⟨r, hr, hid, hrd⟩ := (List.forall₂_iff_get.mp h).2 i hrow hi
  have hrd : r.depth = q.depth := by
    rw [hrd, List.get_eq_getElem, hdepth, Int.toNat_of_nonneg (by omega)]
  obtain ⟨x, hx, hxf⟩ := List.mem_map.mp (List.mem_dedup.mp (List.get_mem _ ⟨i, hrow⟩))
  rw [← hxf] at hid
  obtain ⟨t, ht, ⟨htn, _, htmax⟩, hxt⟩ := rec.mem_frames.mp (mem_orderByDesc.mp hx)
  obtain ⟨-, hstep, hin⟩ := Db.mem_frameRows hxt
  cases rec.step_unique hr ht (hid.trans hstep)
  cases rec.step_unique hr hq
    (Nat.le_antisymm (hqmax r hr htn hrd) (htmax q hq hqn hrd.symm))
  exact hin

end

/-- **Stack reconstruction.**  The frames at a recorded step are one for each
depth, deepest first, and they are those of the live activations, each at the
last step it has executed, exactly if these steps were taken in functions. -/
theorem stackRows_activations_iff {db : Db} (rec : Located db)
    (keys : (db.functions.map (·.id)).Nodup) (evolve : DepthsEvolve db) {s : StepRow}
    (hs : s ∈ db.steps) :
    (List.Forall₂ (fun f (d : Nat) => ∃ q ∈ db.steps, q.id = f.step ∧ q.depth = d)
        (db.stackRows s.id s.depth) (List.range' 1 s.depth.toNat).reverse ∧
      List.Forall₂ (fun f p => db.LastStepOf p s.id f.step)
        (db.stackRows s.id s.depth) (db.activations s.id)) ↔
      ∀ q ∈ db.steps, db.LastOfDepth s q → db.InFunction q := by
  constructor
  · exact fun h q hq hlast => inFunction_of_stackRows rec evolve h.1 hq hlast
  · exact stackRows_of_inFunction rec (Db.functionKeys_of_nodup keys) evolve hs

/-- A recording in which `main` calls `twice` two times. -/
def calledTwiceDb : Db where
  steps :=
    [⟨1, 0x1000, 1, 1⟩, ⟨2, 0x1004, 1, 1⟩, ⟨3, 0x2000, 2, 2⟩, ⟨4, 0x2004, 2, 2⟩,
     ⟨5, 0x1008, 1, 1⟩, ⟨6, 0x2000, 2, 2⟩, ⟨7, 0x2004, 2, 2⟩, ⟨8, 0x100c, 1, 1⟩]
  statements :=
    [⟨1, 10, 0x1000, some 1, some 1, some 1⟩, ⟨1, 11, 0x1004, some 1, some 1, none⟩,
     ⟨1, 12, 0x1008, some 1, some 1, none⟩, ⟨1, 13, 0x100c, some 1, some 1, some 2⟩,
     ⟨1, 3, 0x2000, some 2, some 2, some 1⟩, ⟨1, 4, 0x2004, some 2, some 2, some 2⟩]
  files := [⟨1, "twice.c", "twice.c"⟩]
  functions := [⟨1, "main", 1⟩, ⟨2, "twice", 2⟩]
  exitSignal := none

/-- In the second call the stack is that call, entered at step 6, over `main`. -/
theorem stackRows_activations_calledTwice :
    List.Forall₂ (fun f (d : Nat) => ∃ q ∈ calledTwiceDb.steps, q.id = f.step ∧ q.depth = d)
        (calledTwiceDb.stackRows 7 2) (List.range' 1 2).reverse ∧
      List.Forall₂ (fun f p => calledTwiceDb.LastStepOf p 7 f.step)
        (calledTwiceDb.stackRows 7 2) (calledTwiceDb.activations 7) :=
  (stackRows_activations_iff (by decide) (by decide) (by decide)
    (by decide : (⟨7, 0x2004, 2, 2⟩ : StepRow) ∈ calledTwiceDb.steps)).mpr (by decide)

example : (calledTwiceDb.stackRows 7 2).map (·.step) = [7, 5] := by decide
example : calledTwiceDb.activations 7 = [6, 1] := by decide

/-- A recording in which `main` calls code that has lines and belongs to no function, as
that of an assembler file does. -/
def assemblerDb : Db where
  steps := [⟨1, 0x1000, 1, 1⟩, ⟨2, 0x3000, 1, 0⟩, ⟨3, 0x1004, 1, 1⟩]
  statements :=
    [⟨1, 10, 0x1000, some 1, some 1, some 1⟩, ⟨1, 11, 0x1004, some 1, some 1, some 2⟩,
     ⟨2, 5, 0x3000, none, none, none⟩]
  files := [⟨1, "main.c", "main.c"⟩, ⟨2, "fast.S", "fast.S"⟩]
  functions := [⟨1, "main", 1⟩]
  exitSignal := none

/-- In that code the stack trace is empty, although the depth is 1. -/
theorem stackRows_outside_functions :
    Located assemblerDb ∧ (assemblerDb.functions.map (·.id)).Nodup ∧ DepthsEvolve assemblerDb ∧
      (⟨2, 0x3000, 1, 0⟩ : StepRow) ∈ assemblerDb.steps ∧ assemblerDb.stackRows 2 1 = [] ∧
      ¬ List.Forall₂ (fun f (d : Nat) => ∃ q ∈ assemblerDb.steps, q.id = f.step ∧ q.depth = d)
        (assemblerDb.stackRows 2 1) (List.range' 1 1).reverse := by
  refine ⟨by decide, by decide, by decide, by decide, by decide, fun h => ?_⟩
  have hlen := h.length_eq
  revert hlen
  decide

/-! ## Stepping -/

/-- The activation that called the one executing step `n`. -/
def Db.caller (db : Db) (n : Nat) : Option Nat := (db.activations n)[1]?

theorem Db.caller_eq_some {db : Db} {n c : Nat} :
    db.caller n = some c ↔ ∃ p b, db.activations n = p :: c :: b := by
  unfold Db.caller
  match db.activations n with
  | [] => simp
  | [p] => simp
  | p :: q :: b => simp [eq_comm]

section
variable {db : Db} (rec : Located db) (evolve : DepthsEvolve db)
include rec evolve

theorem DepthsEvolve.stopRow {r : StopRow} (hr : r ∈ db.stopRows) :
    r.depth = height db.enters db.ends r.step := by
  obtain ⟨h1, hn⟩ := rec.stopRow_bounds hr
  obtain ⟨s, hs, hid⟩ := rec.exists_step h1 hn
  rw [rec.stopRow_depth hr hs hid.symm, evolve.depth s hs, hid]
  rfl

theorem DepthsEvolve.session {s : Session} (hat : AtStep db s) :
    s.curDepth.toInt = height db.enters db.ends s.curStep := by
  obtain ⟨r, hr, hstep, _, _, hdepth⟩ := hat
  rw [hdepth, evolve.stopRow rec hr, hstep]

theorem processStepout_caller {s : Session} (hopen : s.dbOpen = true) (hat : AtStep db s)
    {c : Nat} (hc : db.caller s.curStep = some c) :
    (∃ t, s.curStep < t ∧ t ≤ db.steps.length ∧ db.executing t = some c ∧
        (∀ j, s.curStep < j → j < t → db.executing j ≠ some c) ∧
        AtStep db (processStepout db s).1 ∧ (processStepout db s).1.curStep = t) ∨
      ((∀ j, s.curStep < j → j ≤ db.steps.length → db.executing j ≠ some c) ∧
        (processStepout db s).1 = s) := by
  obtain ⟨p, b, hstack⟩ := Db.caller_eq_some.mp hc
  have hcur := evolve.session rec hat
  have hd : 1 < s.curDepth.toInt := by
    have hlength : 1 < (db.activations s.curStep).length := by
      rw [hstack, List.length_cons, List.length_cons]
      omega
    rw [hcur]
    exact Int.ofNat_lt.mpr hlength
  have high : ∀ {j : Nat}, s.curStep < j → j ≤ db.steps.length →
      (∀ q ∈ db.stopRows, q.step = j → s.curDepth.toInt ≤ q.depth) →
      height db.enters db.ends s.curStep ≤ height db.enters db.ends j := by
    intro j hj hjn hq
    obtain ⟨q, hqr, hqj⟩ := rec.exists_stopRow_at (i := j) (by omega) hjn
    have hqd := evolve.stopRow rec hqr
    have hle := hq q hqr hqj
    rw [hcur, hqd, hqj] at hle
    exact Int.ofNat_le.mp hle
  rcases processStepout_cases hopen hd with ⟨r, hr, ⟨hlt, hlow⟩, least, h⟩ | ⟨none, h⟩
  · have hrn := (rec.stopRow_bounds hr).2
    have first : ∀ j, s.curStep < j → j < r.step →
        height db.enters db.ends s.curStep ≤ height db.enters db.ends j := by
      intro j hj hjr
      refine high hj (by omega) fun q hq hqj => ?_
      by_contra hqlow
      have := least q hq (hqj ▸ hj) (by omega)
      omega
    obtain ⟨hrun, honly⟩ := running_of_firstBelow hstack hlt
      (by rw [evolve.stopRow rec hr, hcur] at hlow; exact Int.ofNat_lt.mp hlow) first
    -- a smaller depth than that of the session fits where it does
    have hfits : r.Fits := by
      have hword := s.curDepth.toInt_lt
      have hpos := evolve.stopRow rec hr
      exact ⟨by omega, by omega⟩
    rw [h]
    exact Or.inl ⟨r.step, hlt, hrn, hrun, honly, atStep_fetch hr hfits s, rfl⟩
  · rw [h]
    refine Or.inr ⟨caller_never hstack fun j hj hjn => ?_, rfl⟩
    exact high hj hjn fun q hq hqj => none q hq (hqj ▸ hj)

theorem executing_of_shallow {s s' : Session} (hat : AtStep db s)
    (h : s' = s ∨ ∃ r ∈ db.stopRows, r.depth ≤ s.curDepth.toInt ∧ s' = s.fetch r) {p : Nat}
    (hp : db.executing s.curStep = some p) (live : p ∈ db.activations s'.curStep) :
    db.executing s'.curStep = some p := by
  rcases h with rfl | ⟨r, hr, hd, rfl⟩
  · exact hp
  · refine running_of_live hp live ?_
    rw [evolve.stopRow rec hr, evolve.session rec hat] at hd
    exact Int.ofNat_le.mp hd

/-- **Stepping respects activations.**  `stepOut` goes to the first later step of
the caller, and nowhere if there is none; where `next` and `stepBack` stop, the
activation they started from is not waiting for a call to return. -/
theorem stepping_activations {s : Session} (hopen : s.dbOpen = true) (hat : AtStep db s) :
    (1 < s.curDepth.toInt → ∃ c, db.caller s.curStep = some c ∧
      ((∃ t, s.curStep < t ∧ t ≤ db.steps.length ∧ db.executing t = some c ∧
          (∀ j, s.curStep < j → j < t → db.executing j ≠ some c) ∧
          AtStep db (processStepout db s).1 ∧ (processStepout db s).1.curStep = t) ∨
        ((∀ j, s.curStep < j → j ≤ db.steps.length → db.executing j ≠ some c) ∧
          (processStepout db s).1 = s))) ∧
    ∀ p, db.executing s.curStep = some p →
      (p ∈ db.activations (processNext db s).1.curStep →
        db.executing (processNext db s).1.curStep = some p) ∧
      (p ∈ db.activations (processStepback db s).1.curStep →
        db.executing (processStepback db s).1.curStep = some p) := by
  refine ⟨fun hd => ?_, fun p hp => ⟨fun live => ?_, fun live => ?_⟩⟩
  · have hcaller : ∃ c, db.caller s.curStep = some c := by
      have hlen : 1 < (db.activations s.curStep).length := by
        rw [evolve.session rec hat] at hd
        exact Int.ofNat_lt.mp hd
      exact ⟨(db.activations s.curStep)[1], List.getElem?_eq_getElem hlen⟩
    obtain ⟨c, hc⟩ := hcaller
    exact ⟨c, hc, processStepout_caller rec evolve hopen hat hc⟩
  · refine executing_of_shallow rec evolve hat ?_ hp live
    rcases processNext_cases hopen with ⟨r, hr, ⟨_, hd, _⟩, _, h⟩ | ⟨_, h⟩
    · exact Or.inr ⟨r, hr, hd, by rw [h]⟩
    · exact Or.inl (by rw [h])
  · refine executing_of_shallow rec evolve hat ?_ hp live
    by_cases h1 : s.curStep ≤ 1
    · exact Or.inl (by rw [processStepback_first h1])
    · rcases processStepback_cases hopen (by omega) with ⟨r, hr, ⟨_, hd, _⟩, _, h⟩ | ⟨_, h⟩
      · exact Or.inr ⟨r, hr, hd, by rw [h]⟩
      · exact Or.inl (by rw [h])

end

/-- The session that stands on the last step of the first call. -/
def inTwice : Session :=
  { dbOpen := true, curFile := some "twice.c", curStep := 4, curLine := 4, curDepth := 2,
    signum := 0, stopOnEntry := true }

theorem stepping_activations_calledTwice :
    (1 < inTwice.curDepth.toInt → ∃ c, calledTwiceDb.caller 4 = some c ∧
      ((∃ t, 4 < t ∧ t ≤ 8 ∧ calledTwiceDb.executing t = some c ∧
          (∀ j, 4 < j → j < t → calledTwiceDb.executing j ≠ some c) ∧
          AtStep calledTwiceDb (processStepout calledTwiceDb inTwice).1 ∧
          (processStepout calledTwiceDb inTwice).1.curStep = t) ∨
        ((∀ j, 4 < j → j ≤ 8 → calledTwiceDb.executing j ≠ some c) ∧
          (processStepout calledTwiceDb inTwice).1 = inTwice))) ∧
    ∀ p, calledTwiceDb.executing 4 = some p →
      (p ∈ calledTwiceDb.activations (processNext calledTwiceDb inTwice).1.curStep →
        calledTwiceDb.executing (processNext calledTwiceDb inTwice).1.curStep = some p) ∧
      (p ∈ calledTwiceDb.activations (processStepback calledTwiceDb inTwice).1.curStep →
        calledTwiceDb.executing (processStepback calledTwiceDb inTwice).1.curStep = some p) :=
  stepping_activations (by decide) (by decide) rfl (by decide)

end FlightRec
