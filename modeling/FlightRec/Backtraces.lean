/-
# `FlightRec.Backtraces` — the stack trace is that of the client

The client executes; every statement it is stopped at becomes a step (`processBreakpoint`),
and each of its activations was last seen at one of them (`backtraces`).  Examine has the
steps only, and takes for every depth the last one (`stackRows`).  If the depths are right,
that is for executions in which activations return at END statements, these are the steps
at which the live activations were last seen, the running one first (`stackTrace_backtrace`).
-/
import FlightRec.Recording

namespace FlightRec

open Query

/-! ## What the client has -/

/-- The recorded steps of an execution, each with the steps at which the live activations were
last seen, the running one first. -/
def Program.backtraces (p : Program) : Tracer → List StepRow → List ClientEvent →
    List (StepRow × List StepRow)
  | _, _, [] => []
  | t, live, .call _ address :: es =>
      match p.lookupCache address with
      | none => p.backtraces t live es
      | some line =>
          let result := processBreakpoint line t
          (result.2, result.2 :: live) :: p.backtraces result.1 (result.2 :: live) es
  | t, live, .exec address :: es =>
      match p.lookupCache address with
      | none => p.backtraces t live es
      | some line =>
          let result := processBreakpoint line t
          (result.2, result.2 :: live.tail) :: p.backtraces result.1 (result.2 :: live.tail) es
  | t, live, .ret :: es => p.backtraces t live.tail es

/-- Each activation is at the last of the rows with its depth. -/
def LastSeen (rows : List StepRow) : List StepRow → Prop
  | [] => True
  | a :: rest => (a ∈ rows ∧ a.depth = rest.length + 1 ∧
      ∀ q ∈ rows, q.depth = rest.length + 1 → q.id ≤ a.id) ∧ LastSeen rows rest

section
variable {rows : List StepRow} {r : StepRow} {live : List StepRow}

theorem LastSeen.tail (h : LastSeen rows live) : LastSeen rows live.tail := by
  cases live with
  | nil => trivial
  | cons a rest => exact h.2

theorem LastSeen.append (h : LastSeen rows live) (hdeep : live.length < r.depth) :
    LastSeen (rows ++ [r]) live := by
  induction live with
  | nil => trivial
  | cons a rest ih =>
      obtain ⟨⟨hmem, hdepth, hlast⟩, hrest⟩ := h
      rw [List.length_cons] at hdeep
      refine ⟨⟨List.mem_append_left _ hmem, hdepth, fun q hq hqd => ?_⟩, ih hrest (by omega)⟩
      rcases List.mem_append.mp hq with hq | hq
      · exact hlast q hq hqd
      · rw [List.mem_singleton.mp hq] at hqd
        omega

theorem LastSeen.push (h : LastSeen rows live) (hdepth : r.depth = live.length + 1)
    (hnew : ∀ q ∈ rows, q.id ≤ r.id) : LastSeen (rows ++ [r]) (r :: live) := by
  refine ⟨⟨List.mem_append_right _ (List.mem_singleton_self r), hdepth, fun q hq _ => ?_⟩,
    h.append (by omega)⟩
  rcases List.mem_append.mp hq with hq | hq
  · exact hnew q hq
  · rw [List.mem_singleton.mp hq]

theorem LastSeen.depth_le (h : LastSeen rows live) {a : StepRow} (ha : a ∈ live) :
    1 ≤ a.depth ∧ a.depth ≤ live.length := by
  induction live with
  | nil => cases ha
  | cons b rest ih =>
      rw [List.length_cons]
      rcases List.mem_cons.mp ha with rfl | ha
      · have hdepth := h.1.2.1
        omega
      · have hle := ih h.2 ha
        omega

theorem LastSeen.mem (h : LastSeen rows live) {a : StepRow} (ha : a ∈ live) :
    a ∈ rows ∧ ∀ q ∈ rows, q.depth = a.depth → q.id ≤ a.id := by
  induction live with
  | nil => cases ha
  | cons b rest ih =>
      rcases List.mem_cons.mp ha with rfl | ha
      · obtain ⟨⟨hmem, hdepth, hlast⟩, -⟩ := h
        exact ⟨hmem, fun q hq hqd => hlast q hq (hqd.trans hdepth)⟩
      · exact ih h.2 ha

theorem LastSeen.exists_depth (h : LastSeen rows live) {k : Int} (hpos : 1 ≤ k)
    (hk : k ≤ live.length) : ∃ a ∈ live, a.depth = k := by
  induction live with
  | nil =>
      rw [List.length_nil] at hk
      omega
  | cons b rest ih =>
      rw [List.length_cons] at hk
      by_cases htop : k = rest.length + 1
      · exact ⟨b, List.mem_cons_self, h.1.2.1.trans htop.symm⟩
      · obtain ⟨a, ha, hak⟩ := ih h.2 (by omega)
        exact ⟨a, List.mem_cons_of_mem _ ha, hak⟩

theorem LastSeen.sorted (h : LastSeen rows live) : live.Pairwise fun a b => a.depth > b.depth := by
  induction live with
  | nil => exact List.Pairwise.nil
  | cons a rest ih =>
      refine List.pairwise_cons.mpr ⟨fun b hb => ?_, ih h.2⟩
      have hle := h.2.depth_le hb
      have hdepth := h.1.2.1
      omega

end

/-! ## Along an execution -/

section
variable {p : Program}

theorem Program.backtraces_rows : ∀ (es : List ClientEvent) (t : Tracer) (live : List StepRow),
    (p.backtraces t live es).map Prod.fst = p.stepRows t (es.filterMap ClientEvent.address?)
  | [], _, _ => rfl
  | .ret :: es, t, live => Program.backtraces_rows es t live.tail
  | .call f address :: es, t, live => by
      have hcons : (ClientEvent.call f address :: es).filterMap ClientEvent.address? =
          address :: es.filterMap ClientEvent.address? := rfl
      rw [hcons, Program.stepRows_cons, Program.backtraces]
      cases p.lookupCache address with
      | none => exact Program.backtraces_rows es t live
      | some line => exact congrArg _ (Program.backtraces_rows es _ _)
  | .exec address :: es, t, live => by
      have hcons : (ClientEvent.exec address :: es).filterMap ClientEvent.address? =
          address :: es.filterMap ClientEvent.address? := rfl
      rw [hcons, Program.stepRows_cons, Program.backtraces]
      cases p.lookupCache address with
      | none => exact Program.backtraces_rows es t live
      | some line => exact congrArg _ (Program.backtraces_rows es _ _)

theorem Program.stepRows_id_gt {t : Tracer} {addresses : List Nat} {q : StepRow}
    (hq : q ∈ p.stepRows t addresses) : t.stepId < q.id := by
  have hid : q.id ∈ List.range' (t.stepId + 1) (p.stepRows t addresses).length := by
    rw [← Program.stepRows_ids]
    exact List.mem_map.mpr ⟨q, hq, rfl⟩
  exact (List.mem_range'_1.mp hid).1

/-- At a step, the activations are at the last rows of their depths, of the rows so far. -/
def SeenAt (all : List StepRow) (x : StepRow × List StepRow) : Prop :=
  ∃ before after, all = before ++ after ∧ LastSeen before x.2 ∧
    (∀ q ∈ before, q.id ≤ x.1.id) ∧ ∀ q ∈ after, x.1.id < q.id

theorem LastSeen.record {t : Tracer} {line : CachedLine} {rows base : List StepRow}
    (hbase : LastSeen rows base) (hold : ∀ q ∈ rows, q.id ≤ t.stepId)
    (hdepth : (processBreakpoint line t).2.depth = base.length + 1) :
    LastSeen (rows ++ [(processBreakpoint line t).2]) ((processBreakpoint line t).2 :: base) ∧
      ∀ q ∈ rows ++ [(processBreakpoint line t).2],
        q.id ≤ (processBreakpoint line t).1.stepId := by
  have hid : (processBreakpoint line t).2.id = t.stepId + 1 := processBreakpoint_id line t
  refine ⟨hbase.push hdepth fun q hq => ?_, fun q hq => ?_⟩
  · have hle := hold q hq
    omega
  · rw [processBreakpoint_stepId]
    rcases List.mem_append.mp hq with hq | hq
    · have hle := hold q hq
      omega
    · rw [List.mem_singleton.mp hq, hid]

theorem Program.seenAt_cons {es : List ClientEvent} {t : Tracer} {line : CachedLine}
    {rows base : List StepRow} (hbase : LastSeen rows base) (hold : ∀ q ∈ rows, q.id ≤ t.stepId)
    (ih : ∀ (t : Tracer) (live rows : List StepRow), LastSeen rows live →
      (∀ q ∈ rows, q.id ≤ t.stepId) → (∀ x ∈ p.backtraces t live es, x.1.depth = x.2.length) →
        ∀ x ∈ p.backtraces t live es, SeenAt (rows ++ (p.backtraces t live es).map Prod.fst) x)
    {traces : List (StepRow × List StepRow)}
    (htraces : traces = ((processBreakpoint line t).2, (processBreakpoint line t).2 :: base) ::
      p.backtraces (processBreakpoint line t).1 ((processBreakpoint line t).2 :: base) es)
    (hdepths : ∀ x ∈ traces, x.1.depth = x.2.length) :
    ∀ x ∈ traces, SeenAt (rows ++ traces.map Prod.fst) x := by
  subst htraces
  obtain ⟨hdepth, hrest⟩ := List.forall_mem_cons.mp hdepths
  obtain ⟨hlast, hnew⟩ := hbase.record hold hdepth
  have hstep : (processBreakpoint line t).1.stepId = (processBreakpoint line t).2.id :=
    (processBreakpoint_stepId line t).trans (processBreakpoint_id line t).symm
  rw [List.map_cons, List.append_cons]
  refine List.forall_mem_cons.mpr ⟨?_, ih _ _ _ hlast hnew hrest⟩
  refine ⟨_, _, rfl, hlast, hstep ▸ hnew, fun q hq => ?_⟩
  rw [Program.backtraces_rows] at hq
  exact hstep ▸ Program.stepRows_id_gt hq

theorem Program.backtraces_seenAt (es : List ClientEvent) : ∀ (t : Tracer)
    (live rows : List StepRow), LastSeen rows live → (∀ q ∈ rows, q.id ≤ t.stepId) →
    (∀ x ∈ p.backtraces t live es, x.1.depth = x.2.length) →
      ∀ x ∈ p.backtraces t live es,
        SeenAt (rows ++ (p.backtraces t live es).map Prod.fst) x := by
  induction es with
  | nil =>
      intro t live rows _ _ _ x hx
      cases hx
  | cons e es ih =>
      intro t live rows hlast hold hdepths
      cases e with
      | ret => exact ih t live.tail rows hlast.tail hold hdepths
      | call f address =>
          rw [Program.backtraces] at hdepths ⊢
          cases hline : p.lookupCache address with
          | none =>
              rw [hline] at hdepths
              exact ih t live rows hlast hold hdepths
          | some line =>
              rw [hline] at hdepths
              exact Program.seenAt_cons hlast hold ih rfl hdepths
      | exec address =>
          rw [Program.backtraces] at hdepths ⊢
          cases hline : p.lookupCache address with
          | none =>
              rw [hline] at hdepths
              exact ih t live rows hlast hold hdepths
          | some line =>
              rw [hline] at hdepths
              exact Program.seenAt_cons hlast.tail hold ih rfl hdepths

theorem Program.backtraces_observed : ∀ (es : List ClientEvent) (t : Tracer)
    (functions : List FunctionRow) (live : List StepRow), p.legal functions es = true →
    live.length = functions.length →
      (p.backtraces t live es).map (fun x => (x.1.depth, x.2.length)) =
        (p.observations t functions es).map fun o => (toInt64 o.depth, o.live) := by
  intro es
  induction es with
  | nil =>
      intro t functions live _ _
      rfl
  | cons e es ih =>
      intro t functions live legal hlength
      cases e with
      | ret =>
          cases functions with
          | nil => cases legal
          | cons f functions =>
              refine ih t functions live.tail legal ?_
              rw [List.length_tail, hlength, List.length_cons, Nat.add_sub_cancel]
      | call f address =>
          simp only [Program.legal, Bool.and_eq_true] at legal
          obtain ⟨⟨⟨-, hsome⟩, -⟩, legal⟩ := legal
          obtain ⟨line, hline⟩ := Option.isSome_iff_exists.mp hsome
          have hrest := ih (processBreakpoint line t).1 (f :: functions)
            ((processBreakpoint line t).2 :: live) legal (congrArg (· + 1) hlength)
          simp only [Program.backtraces, Program.observations, Program.observe, hline,
            List.map_cons, Option.toList_some, hrest, List.length_cons, hlength,
            List.singleton_append, processBreakpoint_depth]
      | exec address =>
          cases functions with
          | nil => cases legal
          | cons f functions =>
              simp only [Program.legal, Bool.and_eq_true] at legal
              obtain ⟨hline, legal⟩ := legal
              obtain ⟨line, hline, -⟩ := (Option.any_eq_true _ _).mp hline
              have htail : live.tail.length + 1 = (f :: functions).length := by
                rw [List.length_tail, hlength, List.length_cons, Nat.add_sub_cancel]
              have hrest := ih (processBreakpoint line t).1 (f :: functions)
                ((processBreakpoint line t).2 :: live.tail) legal htail
              simp only [Program.backtraces, Program.observations, Program.observe, hline,
                List.map_cons, Option.toList_some, hrest, List.length_cons, htail,
                List.singleton_append, processBreakpoint_depth]

end

/-! ## The stack trace -/

section
variable {db : Db}

/-- The rows of the query are those of the last steps of each depth, deepest first. -/
theorem Recorded.stackRows_lastSeen (rec : Recorded db) (pos : ∀ s ∈ db.steps, 1 ≤ s.depth)
    {n : Nat} {live : List StepRow}
    (hlast : LastSeen (db.steps.filter fun s => s.id ≤ n) live) :
    db.stackRows n live.length = live.flatMap fun a => (db.frameRows a).map Prod.snd := by
  have hmem {q : StepRow} : q ∈ db.steps.filter (fun s => s.id ≤ n) ↔ q ∈ db.steps ∧ q.id ≤ n := by
    rw [List.mem_filter, decide_eq_true_eq]
  have hframes : orderByDesc Prod.fst ((db.steps.filter fun s =>
      s.id ∈ db.lastIds n live.length).flatMap db.frameRows) = live.flatMap db.frameRows := by
    refine List.Pairwise.eq_of_mem_iff (r := fun x y => x.1 > y.1)
      (orderByDesc_strict (rec.frames_nodup rec.functionKeys n live.length)) ?_ ?_
    · refine List.pairwise_flatMap.mpr ⟨fun a ha => ?_, hlast.sorted.imp_of_mem ?_⟩
      · have ha := (hmem.mp (hlast.mem ha).1).1
        obtain ⟨f, hf, -⟩ := rec.frameRows_eq rec.functionKeys ha (rec.inFunction ha)
        rw [hf]
        exact List.pairwise_singleton _ _
      · intro a b ha hb hab x hx y hy
        rw [(Db.mem_frameRows hx).1, (Db.mem_frameRows hy).1]
        exact hab
    · intro x
      rw [mem_orderByDesc, rec.mem_frames, List.mem_flatMap]
      constructor
      · rintro ⟨s, hs, ⟨hsn, hsd, hsl⟩, hx⟩
        obtain ⟨a, ha, had⟩ := hlast.exists_depth (pos s hs) hsd
        obtain ⟨harow, halast⟩ := hlast.mem ha
        obtain ⟨hastep, han⟩ := hmem.mp harow
        -- both are the last of their depth
        have hid : a.id = s.id :=
          Nat.le_antisymm (hsl a hastep han had) (halast s (hmem.mpr ⟨hs, hsn⟩) had.symm)
        exact ⟨a, ha, rec.step_unique hastep hs hid ▸ hx⟩
      · rintro ⟨a, ha, hx⟩
        obtain ⟨harow, halast⟩ := hlast.mem ha
        obtain ⟨hastep, han⟩ := hmem.mp harow
        exact ⟨a, hastep, ⟨han, (hlast.depth_le ha).2, fun q hq hqn hqd =>
          halast q (hmem.mpr ⟨hq, hqn⟩) hqd⟩, hx⟩
  rw [Db.stackRows, (rec.frames_steps_nodup rec.functionKeys n live.length).dedup, hframes,
    List.map_flatMap]

theorem Recorded.forall₂_frames (rec : Recorded db) : ∀ {live : List StepRow},
    (∀ a ∈ live, a ∈ db.steps) →
      List.Forall₂ (fun f a => db.frameRows a = [(a.depth, f)])
        (live.flatMap fun a => (db.frameRows a).map Prod.snd) live
  | [], _ => .nil
  | a :: live, h => by
      have ha := h a List.mem_cons_self
      obtain ⟨f, hf, -⟩ := rec.frameRows_eq rec.functionKeys ha (rec.inFunction ha)
      rw [List.flatMap_cons, hf]
      exact .cons hf (rec.forall₂_frames fun b hb => h b (List.mem_cons_of_mem _ hb))

end

section
variable {p : Program} {files : List FileRow} {exitSignal : Option Nat} {es : List ClientEvent}

/-- **The stack trace is that of the client.**  In an execution in which activations return at
END statements, of code that belongs to functions and has one line row for an address: at every
recorded step the query of `process_stack` has one row for each live activation of the client,
the running one first, and it is the row of the step at which the activation was last seen. -/
theorem Program.stackTrace_backtrace (hfiles : ∀ l ∈ p.lines, OneRow FileRow.id l.fileId files)
    (hfunctions : (p.functions.map (·.id)).Nodup)
    (hcode : ∀ a ∈ es.filterMap ClientEvent.address?,
      (p.lookupCache a).isSome → (p.functionIdOf a).isSome)
    (legal : p.legal [] es = true) (returns : p.returnsAtEnd 0 es = true)
    (short : es.length < 2 ^ 63) :
    ∀ x ∈ p.backtraces .init [] es,
      List.Forall₂
        (fun f a =>
          (p.record files exitSignal (es.filterMap ClientEvent.address?)).frameRows a =
            [(a.depth, f)])
        ((p.record files exitSignal (es.filterMap ClientEvent.address?)).stackRows x.1.id x.1.depth)
        x.2 := by
  intro x hx
  have recorded : Recorded (p.record files exitSignal (es.filterMap ClientEvent.address?)) :=
    Program.record_recorded hfiles hfunctions hcode
  have evolve : DepthsEvolve (p.record files exitSignal (es.filterMap ClientEvent.address?)) :=
    Program.record_depthsEvolve legal returns short
  have hright : ∀ o ∈ p.observations .init [] es, o.Right :=
    (Program.right_iff_returnsAtEnd es [] .init 0 legal (by simp [Tracer.init])
      (by simp [Tracer.init, ulongSize]) (by simp [ulongSize])).mpr returns
  have hdepths : ∀ x ∈ p.backtraces .init [] es, x.1.depth = x.2.length := by
    intro x hx
    have hpair : (x.1.depth, x.2.length) ∈
        (p.observations .init [] es).map fun o => (toInt64 o.depth, o.live) := by
      rw [← Program.backtraces_observed es .init [] [] legal rfl]
      exact List.mem_map.mpr ⟨x, hx, rfl⟩
    obtain ⟨o, ho, heq⟩ := List.mem_map.mp hpair
    obtain ⟨hdepth, hlive⟩ := Prod.mk.inj heq
    obtain ⟨hlivedepth, -, -⟩ := hright o ho
    have hle := Program.observations_live_le es .init [] o ho
    rw [List.length_nil] at hle
    rw [← hdepth, toInt64_of_lt (by omega), hlivedepth, hlive]
  obtain ⟨before, after, hall, hlast, hbefore, hafter⟩ :=
    Program.backtraces_seenAt es .init [] [] trivial (fun q hq => by cases hq) hdepths x hx
  rw [List.nil_append, Program.backtraces_rows] at hall
  have hrows : (p.record files exitSignal (es.filterMap ClientEvent.address?)).steps.filter
      (fun s => s.id ≤ x.1.id) = before := by
    show (p.stepRows .init (es.filterMap ClientEvent.address?)).filter _ = before
    rw [hall, List.filter_append, List.filter_eq_self.mpr fun q hq => decide_eq_true (hbefore q hq),
      List.filter_eq_nil_iff.mpr fun q hq => ?_, List.append_nil]
    have hlt := hafter q hq
    rw [decide_eq_true_eq]
    omega
  rw [← hrows] at hlast
  rw [hdepths x hx, recorded.stackRows_lastSeen evolve.pos hlast]
  exact recorded.forall₂_frames fun a ha => (List.mem_filter.mp (hlast.mem ha).1).1

/-- In the middle of the first call of `f`. -/
theorem Program.stackTrace_backtrace_looping :
    List.Forall₂
      (fun f a =>
        (twoFunctions.record [⟨1, "f.c", "/src/f.c"⟩] none
          (loopingRun.filterMap ClientEvent.address?)).frameRows a = [(a.depth, f)])
      ((twoFunctions.record [⟨1, "f.c", "/src/f.c"⟩] none
        (loopingRun.filterMap ClientEvent.address?)).stackRows 4 2)
      [⟨4, 0x2004, 2, 2⟩, ⟨2, 0x1004, 1, 1⟩] :=
  Program.stackTrace_backtrace (by decide) (by decide) (by decide) (by decide) (by decide)
    (by decide) (⟨4, 0x2004, 2, 2⟩, [⟨4, 0x2004, 2, 2⟩, ⟨2, 0x1004, 1, 1⟩]) (by decide)

end

end FlightRec
