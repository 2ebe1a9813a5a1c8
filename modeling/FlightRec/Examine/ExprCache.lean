/-
# `FlightRec.Examine.ExprCache` — the cache of parsed expressions

`local.expr` keeps for every expression text a number and the address of the tree it
was parsed to.  An `evaluate` request asks for both (`query_expr_cache`), parses the
text if there is no tree, and stores the tree (`update_expr_cache`).

The values of the update are bound in the order of its parameters, the number to the
tree and the tree to the number.  So a tree is found again exactly if its address is
the number of its expression (`exprRun_holds_iff`).
-/
import FlightRec.Examine.Refs

namespace FlightRec

open Intern

/-! ## The cache in a session -/

/-- An `evaluate` request as the cache sees it, with the tree that its text is parsed to
if there is need, unless that fails. -/
structure ExprCall where
  text : String
  parsed : Option Nat
  deriving DecidableEq, Repr

/-- What the query of a request returned, and the tree that was stored after it. -/
structure ExprEvent where
  text : String
  id : Nat
  found : Option Nat
  updated : Option Nat
  deriving DecidableEq, Repr

/-- `process_evaluate`, from `query_expr_cache` to `update_expr_cache`. -/
def ExprCall.process (call : ExprCall) (exprs : Table String (Option Nat)) :
    Table String (Option Nat) × ExprEvent :=
  let (exprs, id, found) := queryExprCache call.text exprs
  match found, call.parsed with
  | none, some ast => (updateExprCache id ast exprs, ⟨call.text, id, found, some ast⟩)
  | _, _ => (exprs, ⟨call.text, id, found, none⟩)

/-- The cache after the requests of a session, and what has happened to it. -/
def exprRun (calls : List ExprCall) : Table String (Option Nat) × List ExprEvent :=
  calls.foldl (fun st call =>
    let result := call.process st.1
    (result.1, st.2 ++ [result.2])) (.empty, [])

/-- The tree that was stored last for the text. -/
def lastUpdate (text : String) (events : List ExprEvent) : Option Nat :=
  events.reverse.findSome? fun e => if e.text = text then e.updated else none

/-- A query returns the number that the text was told before, and the tree that was
stored last for it. -/
structure CacheHolds (exprs : Table String (Option Nat)) (events : List ExprEvent) : Prop where
  id : ∀ e ∈ events, (queryExprCache e.text exprs).2.1 = e.id
  ast : ∀ text, (queryExprCache text exprs).2.2 = lastUpdate text events

theorem processEvaluate_exprs (info : DebugInfo) (curStep : Nat) (frames : List Frame)
    (text : String) (frameId : Nat) (st : RefState) {frame : Frame}
    (hframe : frames.find? (·.id == frameId) = some frame) :
    (processEvaluate info curStep frames text frameId st).1.exprs =
      (ExprCall.process ⟨text, info.parsed text frame.scope⟩ st.exprs).1 := by
  simp only [processEvaluate, hframe, ExprCall.process]
  cases (queryExprCache text st.exprs).2.2 with
  | some ast =>
      dsimp only
      split <;> rfl
  | none =>
      cases info.parsed text frame.scope with
      | none => rfl
      | some ast =>
          dsimp only
          split <;> rfl

/-! ## Numbers -/

/-- Every text that was asked for has a row with the number it was told, and no other
has this number. -/
structure Told (exprs : Table String (Option Nat)) (events : List ExprEvent) : Prop where
  row : ∀ e ∈ events, ∃ r, exprs.find (some e.text) = some r ∧ r.id = e.id
  bound : ∀ text r, exprs.find (some text) = some r → r.id ≤ exprs.seq
  distinct : ∀ text text' r r', exprs.find (some text) = some r →
    exprs.find (some text') = some r' → r.id = r'.id → text = text'
  fresh : ∀ text, (∀ e ∈ events, e.text ≠ text) → exprs.find (some text) = none

section
variable {exprs : Table String (Option Nat)} {events : List ExprEvent} {text : String}

theorem told_empty : Told .empty [] where
  row := fun e he => by cases he
  bound := fun text r h => by cases h
  distinct := fun text text' r r' h => by cases h
  fresh := fun text _ => rfl

theorem query_find (text : String) (exprs : Table String (Option Nat)) :
    ∃ r, (queryExprCache text exprs).1.find (some text) = some r ∧
      (queryExprCache text exprs).2 = (r.id, r.val) := by
  unfold queryExprCache
  cases hfind : exprs.find (some text) with
  | some r => exact ⟨r, hfind, rfl⟩
  | none => exact ⟨_, (find_insert hfind none text).trans (if_pos rfl), rfl⟩

theorem query_find_other {text' : String} (hne : text' ≠ text) :
    (queryExprCache text exprs).1.find (some text') = exprs.find (some text') := by
  unfold queryExprCache
  cases hfind : exprs.find (some text) with
  | some r => rfl
  | none => exact (find_insert hfind none text').trans (if_neg hne)

theorem Told.query (h : Told exprs events) {e : ExprEvent}
    (hid : e.id = (queryExprCache e.text exprs).2.1) :
    Told (queryExprCache e.text exprs).1 (events ++ [e]) := by
  cases hfind : exprs.find (some e.text) with
  | some r =>
      have hquery : queryExprCache e.text exprs = (exprs, r.id, r.val) := by
        rw [queryExprCache, hfind]
      rw [hquery] at hid ⊢
      refine ⟨fun e' he' => ?_, h.bound, h.distinct, fun text htext => ?_⟩
      · rcases List.mem_append.mp he' with he' | he'
        · exact h.row e' he'
        · rw [List.mem_singleton.mp he']
          exact ⟨r, hfind, hid.symm⟩
      · exact h.fresh text fun e' he' => htext e' (List.mem_append_left _ he')
  | none =>
      have hquery : queryExprCache e.text exprs =
          (exprs.insert (some e.text) none, exprs.seq + 1, none) := by
        rw [queryExprCache, hfind]
      have hinsert := find_insert hfind (none : Option Nat)
      rw [hquery] at hid ⊢
      refine ⟨fun e' he' => ?_, fun text r hr => ?_, fun text text' r r' hr hr' heq => ?_,
        fun text htext => ?_⟩
      · rcases List.mem_append.mp he' with he' | he'
        · obtain ⟨r, hr, hrid⟩ := h.row e' he'
          have hne : e'.text ≠ e.text := by
            intro heq
            rw [heq, hfind] at hr
            cases hr
          exact ⟨r, (hinsert e'.text).trans ((if_neg hne).trans hr), hrid⟩
        · rw [List.mem_singleton.mp he']
          exact ⟨_, (hinsert e.text).trans (if_pos rfl), hid.symm⟩
      · rw [hinsert] at hr
        split at hr
        · cases hr
          exact Nat.le_refl _
        · exact Nat.le_succ_of_le (h.bound text r hr)
      · rw [hinsert] at hr hr'
        split at hr
        next htext =>
          cases hr
          split at hr'
          next htext' => exact htext.trans htext'.symm
          next =>
            have hbound := h.bound text' r' hr'
            rw [← heq] at hbound
            exact absurd hbound (Nat.not_succ_le_self _)
        next =>
          split at hr'
          next =>
            cases hr'
            have hbound := h.bound text r hr
            rw [heq] at hbound
            exact absurd hbound (Nat.not_succ_le_self _)
          next => exact h.distinct text text' r r' hr hr' heq
      · have hne : text ≠ e.text :=
          Ne.symm (htext e (List.mem_append_right _ (List.mem_singleton_self e)))
        rw [hinsert, if_neg hne]
        exact h.fresh text fun e' he' => htext e' (List.mem_append_left _ he')

theorem Told.update (h : Told exprs events) (id ast : Nat) :
    Told (updateExprCache id ast exprs) events := by
  have hrow : ∀ {text r'}, (updateExprCache id ast exprs).find (some text) = some r' →
      ∃ r, exprs.find (some text) = some r ∧ r.id = r'.id := by
    intro text r' hr'
    rw [updateExprCache, find_set] at hr'
    obtain ⟨r, hr, rfl⟩ := Option.map_eq_some_iff.mp hr'
    exact ⟨r, hr, by split <;> rfl⟩
  refine ⟨fun e he => ?_, fun text r hr => ?_, fun text text' r r' hr hr' heq => ?_,
    fun text htext => ?_⟩
  · obtain ⟨r, hr, hid⟩ := h.row e he
    refine ⟨_, (find_set exprs ast (some id) _).trans (congrArg _ hr), ?_⟩
    rw [← hid]
    dsimp only
    split <;> rfl
  · obtain ⟨q, hq, hid⟩ := hrow hr
    exact hid ▸ h.bound text q hq
  · obtain ⟨q, hq, hid⟩ := hrow hr
    obtain ⟨q', hq', hid'⟩ := hrow hr'
    exact h.distinct text text' q q' hq hq' (hid.trans (heq.trans hid'.symm))
  · rw [updateExprCache, find_set, h.fresh text htext]
    rfl

/-- A request stores the tree of a text that has none, or leaves the trees alone. -/
theorem process_cases (call : ExprCall) (exprs : Table String (Option Nat)) {id : Nat}
    {found : Option Nat} (hquery : (queryExprCache call.text exprs).2 = (id, found)) :
    (∃ ast, found = none ∧ call.process exprs =
        (updateExprCache id ast (queryExprCache call.text exprs).1,
          ⟨call.text, id, none, some ast⟩)) ∨
      call.process exprs =
        ((queryExprCache call.text exprs).1, ⟨call.text, id, found, none⟩) := by
  obtain ⟨rfl, rfl⟩ := Prod.mk.inj hquery
  unfold ExprCall.process
  cases hfound : (queryExprCache call.text exprs).2.2 with
  | some ast =>
      right
      simp only [hfound]
  | none =>
      cases hparsed : call.parsed with
      | none =>
          right
          simp only [hfound]
      | some ast =>
          left
          exact ⟨ast, rfl, by simp only [hfound]⟩

theorem Told.process (h : Told exprs events) (call : ExprCall) :
    Told (call.process exprs).1 (events ++ [(call.process exprs).2]) := by
  rcases process_cases call exprs rfl with ⟨ast, _, hprocess⟩ | hprocess
  · rw [hprocess]
    exact (h.query (e := ⟨call.text, _, none, some ast⟩) rfl).update _ ast
  · rw [hprocess]
    exact h.query (e := ⟨call.text, _, _, none⟩) rfl

theorem told_run (calls : List ExprCall) : Told (exprRun calls).1 (exprRun calls).2 := by
  induction calls using List.reverseRecOn with
  | nil => exact told_empty
  | append_singleton calls call ih =>
      rw [exprRun, List.foldl_append]
      exact ih.process call

/-! ## Trees -/

theorem lastUpdate_append (text : String) (events : List ExprEvent) (e : ExprEvent) :
    lastUpdate text (events ++ [e]) =
      (if e.text = text then e.updated else none).or (lastUpdate text events) := by
  simp only [lastUpdate, List.reverse_append, List.reverse_singleton, List.singleton_append,
    List.findSome?_cons]
  cases (if e.text = text then e.updated else none) <;> rfl

/-- The rows have the trees that were stored last for their texts. -/
def Current (exprs : Table String (Option Nat)) (events : List ExprEvent) : Prop :=
  ∀ text, (exprs.find (some text)).bind (·.val) = lastUpdate text events

theorem query_ast (text : String) (exprs : Table String (Option Nat)) :
    (queryExprCache text exprs).2.2 = (exprs.find (some text)).bind (·.val) := by
  unfold queryExprCache
  cases exprs.find (some text) <;> rfl

theorem cacheHolds_iff (h : Told exprs events) :
    CacheHolds exprs events ↔ Current exprs events := by
  constructor
  · intro hholds text
    rw [← query_ast]
    exact hholds.ast text
  · intro hcurrent
    refine ⟨fun e he => ?_, fun text => (query_ast text exprs).trans (hcurrent text)⟩
    obtain ⟨r, hr, hid⟩ := h.row e he
    rw [queryExprCache, hr]
    exact hid

theorem query_find_val (text text' : String) (exprs : Table String (Option Nat)) :
    ((queryExprCache text exprs).1.find (some text')).bind (·.val) =
      (exprs.find (some text')).bind (·.val) := by
  by_cases hne : text' = text
  · obtain ⟨r, hr, hquery⟩ := query_find text exprs
    rw [hne, hr, ← query_ast, hquery]
    rfl
  · rw [query_find_other hne]

/-- One request keeps the trees right exactly if the address it stores is the number. -/
theorem current_process_iff (h : Told exprs events) (hcurrent : Current exprs events)
    (call : ExprCall) :
    Current (call.process exprs).1 (events ++ [(call.process exprs).2]) ↔
      ∀ ast, (call.process exprs).2.updated = some ast → ast = (call.process exprs).2.id := by
  obtain ⟨r, hr, hquery⟩ := query_find call.text exprs
  rcases process_cases call exprs hquery with ⟨ast, hfound, hprocess⟩ | hprocess
  · rw [hprocess]
    have htold := h.query (e := ⟨call.text, r.id, none, some ast⟩) (by rw [hquery])
    have hset (text : String) := find_set (queryExprCache call.text exprs).1 ast (some r.id)
      (some text)
    constructor
    · rintro hstored ast' hast'
      obtain rfl := Option.some.inj hast'
      by_contra hne
      have hrow := hstored call.text
      rw [updateExprCache, hset, hr, lastUpdate_append, if_pos rfl] at hrow
      simp only [Option.map_some, if_neg (Ne.symm hne), Option.bind_some, hfound] at hrow
      cases hrow
    · intro hsame text
      have hast : ast = r.id := hsame ast rfl
      rw [updateExprCache, hset, lastUpdate_append]
      by_cases htext : call.text = text
      · rw [if_pos htext, ← htext, hr, hast]
        simp
      · -- the row of another text has another number
        have hother : ((queryExprCache call.text exprs).1.find (some text)).map (fun q =>
            if q.id = ast then { q with val := some r.id } else q) =
              (queryExprCache call.text exprs).1.find (some text) := by
          cases hq : (queryExprCache call.text exprs).1.find (some text) with
          | none => rfl
          | some q =>
              have hid : q.id ≠ ast := fun heq =>
                htext (htold.distinct call.text text r q hr hq (heq.trans hast).symm)
              rw [Option.map_some, if_neg hid]
        rw [hother, if_neg htext, query_find_val, hcurrent]
        rfl
  · rw [hprocess]
    refine iff_of_true (fun text => ?_) (fun ast hast => by cases hast)
    rw [query_find_val, hcurrent, lastUpdate_append]
    split <;> rfl

end

theorem current_run_iff (calls : List ExprCall) :
    (∀ k, Current (exprRun (calls.take k)).1 (exprRun (calls.take k)).2) ↔
      ∀ e ∈ (exprRun calls).2, ∀ ast, e.updated = some ast → ast = e.id := by
  induction calls using List.reverseRecOn with
  | nil =>
      refine iff_of_true (fun k text => ?_) (fun e he => by cases he)
      rw [List.take_nil]
      rfl
  | append_singleton calls call ih =>
      have hrun : exprRun (calls ++ [call]) =
          ((call.process (exprRun calls).1).1,
            (exprRun calls).2 ++ [(call.process (exprRun calls).1).2]) := by
        rw [exprRun, List.foldl_append]
        rfl
      have htake : (∀ k, Current (exprRun ((calls ++ [call]).take k)).1
          (exprRun ((calls ++ [call]).take k)).2) ↔
          (∀ k, Current (exprRun (calls.take k)).1 (exprRun (calls.take k)).2) ∧
            Current (exprRun (calls ++ [call])).1 (exprRun (calls ++ [call])).2 := by
        constructor
        · intro hall
          refine ⟨fun k => ?_, ?_⟩
          · have hk := hall (min k calls.length)
            rwa [List.take_append_of_le_length (Nat.min_le_right _ _),
              ← List.take_take, List.take_length] at hk
          · have hfull := hall (calls ++ [call]).length
            rwa [List.take_length] at hfull
        · rintro ⟨hbefore, hfull⟩ k
          by_cases hk : k ≤ calls.length
          · rw [List.take_append_of_le_length hk]
            exact hbefore k
          · rw [List.take_of_length_le (by rw [List.length_append, List.length_singleton]; omega)]
            exact hfull
      have hnow (hbefore : ∀ e ∈ (exprRun calls).2, ∀ ast, e.updated = some ast → ast = e.id) :
          Current (exprRun calls).1 (exprRun calls).2 := by
        have hlast := ih.mpr hbefore calls.length
        rwa [List.take_length] at hlast
      rw [htake, ih, hrun]
      constructor
      · rintro ⟨hbefore, hstored⟩ e he
        rcases List.mem_append.mp he with he | he
        · exact hbefore e he
        · rw [List.mem_singleton.mp he]
          exact (current_process_iff (told_run calls) (hnow hbefore) call).mp hstored
      · intro hall
        have hbefore := fun e he => hall e (List.mem_append_left _ he)
        refine ⟨hbefore, (current_process_iff (told_run calls) (hnow hbefore) call).mpr ?_⟩
        exact hall _ (List.mem_append_right _ (List.mem_singleton_self _))

/-- The cache holds what was stored in it, all through a session, exactly if every tree
is stored at the address that is the number of its expression. -/
theorem exprRun_holds_iff (calls : List ExprCall) :
    (∀ k, CacheHolds (exprRun (calls.take k)).1 (exprRun (calls.take k)).2) ↔
      ∀ e ∈ (exprRun calls).2, ∀ ast, e.updated = some ast → ast = e.id := by
  rw [← current_run_iff calls]
  exact forall_congr' fun k => cacheHolds_iff (told_run (calls.take k))

/-! ### Example -/

/-- The tree of the first expression of a session is not found again. -/
theorem stored_tree_lost :
    ¬ ∀ (calls : List ExprCall) (k : Nat),
      CacheHolds (exprRun (calls.take k)).1 (exprRun (calls.take k)).2 := by
  intro h
  have hast := (h [⟨"x", some 0x5000⟩] 1).ast "x"
  have hfound : (queryExprCache "x" (exprRun [⟨"x", some 0x5000⟩]).1).2.2 = none := by decide
  have hstored : lastUpdate "x" (exprRun [⟨"x", some 0x5000⟩]).2 = some 0x5000 := by decide
  change (queryExprCache "x" (exprRun [⟨"x", some 0x5000⟩]).1).2.2 =
    lastUpdate "x" (exprRun [⟨"x", some 0x5000⟩]).2 at hast
  rw [hfound, hstored] at hast
  cases hast

end FlightRec
