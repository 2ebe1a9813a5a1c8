/-
# `FlightRec.Examine.Locals` — the variables of a frame

`process_variables` (examine/requests.c) gets a scope and looks for it in the list of
frames, to know the step and the line.  Its query joins the variables with the scopes
around the scope, for the variables of these and, by `OR`, for those of the scope
itself; so these are there once for every scope around it.

    the rows of the query        (`mem_localVars_iff`, `localVars_nodup_iff`)
    the list that is sent        (`locals_listed_once_iff`)
-/
import FlightRec.Examine.Refs
import FlightRec.Record.Scopes

namespace FlightRec

open Query

/-! ## The request -/

/-- The variables that are added to the list, unless adding one fails. -/
def addVars (info : DebugInfo) (curStep scope step : Nat) :
    List VarRow → RefTable → Option (List VarRow)
  | [], _ => some []
  | v :: rest, refs =>
      match addVar info curStep scope v.id step refs with
      | none => none
      | some (refs, _) => (addVars info curStep scope step rest refs).map (v :: ·)

/-- The list that `process_variables` sends for a scope. -/
def variablesResponse (info : DebugInfo) (curStep : Nat) (frames : List Frame) (scope : Nat)
    (refs : RefTable) : Except String (List VarRow) :=
  let added := fun vars step =>
    match addVars info curStep scope step vars refs with
    | none => .error "Error adding variable"
    | some vars => .ok vars
  if scope = globalScope then added (info.vars.filter (·.scopeId = globalScope)) curStep
  else
    match frames.find? (·.scope == scope) with
    | none => .error "Unknown variablesReference in 'variables' request"
    | some frame => added (info.localVars frame) frame.step

/-- Declared later in the file. -/
def Frame.Hides (frame : Frame) (v : VarRow) : Prop :=
  v.fileId = frame.file ∧ frame.line ≤ v.line

instance (frame : Frame) (v : VarRow) : Decidable (frame.Hides v) :=
  inferInstanceAs (Decidable (_ ∧ _))

/-- A variable that the frame should show. -/
structure LocalOf (t : ScopeTree) (frame : Frame) (v : VarRow) : Prop where
  notGlobal : v.scopeId ≠ globalScope
  visible : t.Visible frame.scope v.scopeId
  declared : ¬ frame.Hides v

/-- The list has the variables of the frame, and each of them once. -/
def ListedOnce (info : DebugInfo) (t : ScopeTree) (curStep : Nat) (frames : List Frame)
    (frame : Frame) (refs : RefTable) : Prop :=
  ∃ vars, variablesResponse info curStep frames frame.scope refs = .ok vars ∧ vars.Nodup ∧
    ∀ v, v ∈ vars ↔ v ∈ info.vars ∧ LocalOf t frame v

/-- `add_var` finds the variable at the step, and can show what is there. -/
def Addable (info : DebugInfo) (curStep step : Nat) (v : VarRow) : Prop :=
  ∃ address type, info.varLocation v.id step = some (address, type) ∧
    info.shown curStep ⟨address, type, 0⟩ ≠ .failed

/-! ## The list -/

section
variable {info : DebugInfo} {curStep scope step : Nat}

theorem addVar_isSome_iff {v : VarRow} (hv : v ∈ info.vars) (refs : RefTable) :
    (addVar info curStep scope v.id step refs).isSome ↔ Addable info curStep step v := by
  obtain ⟨w, hw⟩ : ∃ w, info.vars.find? (·.id == v.id) = some w := by
    rw [← Option.isSome_iff_exists, List.find?_isSome]
    exact ⟨v, hv, beq_self_eq_true _⟩
  unfold addVar Addable
  rw [hw]
  cases info.varLocation v.id step with
  | none => simp
  | some location =>
      obtain ⟨address, type⟩ := location
      dsimp only [addVarEntry]
      cases hshown : info.shown curStep ⟨address, type, 0⟩ <;> simp [hshown]

theorem addVars_eq_some_iff : ∀ {vars : List VarRow} {refs : RefTable} {added : List VarRow},
    vars ⊆ info.vars → (addVars info curStep scope step vars refs = some added ↔
      added = vars ∧ ∀ v ∈ vars, Addable info curStep step v)
  | [], refs, added, _ => by simp [addVars, eq_comm]
  | v :: rest, refs, added, hsub => by
      have hadd : (addVar info curStep scope v.id step refs).isSome ↔
          Addable info curStep step v := addVar_isSome_iff (hsub List.mem_cons_self) refs
      have hrest : rest ⊆ info.vars := fun w hw => hsub (List.mem_cons_of_mem _ hw)
      rw [addVars, List.forall_mem_cons]
      cases hresult : addVar info curStep scope v.id step refs with
      | none =>
          rw [hresult] at hadd
          simp [← hadd]
      | some result =>
          rw [hresult] at hadd
          dsimp only
          rw [Option.map_eq_some_iff]
          constructor
          · rintro ⟨tail, htail, rfl⟩
            obtain ⟨rfl, hall⟩ := (addVars_eq_some_iff hrest).mp htail
            exact ⟨rfl, hadd.mp rfl, hall⟩
          · rintro ⟨rfl, _, hall⟩
            exact ⟨rest, (addVars_eq_some_iff hrest).mpr ⟨rfl, hall⟩, rfl⟩

theorem variablesResponse_given {frames : List Frame} {refs : RefTable} {vars : List VarRow}
    (h : variablesResponse info curStep frames scope refs = .ok vars) :
    ∃ step, processScopeVars info curStep frames scope refs =
      addEntries (vars.map fun v => addVar info curStep scope v.id step) refs := by
  unfold variablesResponse at h
  unfold processScopeVars
  have hadded {all : List VarRow} {step : Nat} (hsub : all ⊆ info.vars)
      (h : (match addVars info curStep scope step all refs with
        | none => .error "Error adding variable"
        | some vars => .ok vars : Except String (List VarRow)) = .ok vars) : vars = all := by
    cases hvars : addVars info curStep scope step all refs with
    | none =>
        rw [hvars] at h
        cases h
    | some added =>
        rw [hvars] at h
        cases h
        exact ((addVars_eq_some_iff hsub).mp hvars).1
  split at h
  next hglobal =>
    rw [if_pos hglobal]
    have hsub : info.vars.filter (·.scopeId = globalScope) ⊆ info.vars := List.filter_subset_self _
    exact ⟨curStep, by rw [hadded hsub h, hglobal]⟩
  next hglobal =>
    rw [if_neg hglobal]
    cases hframe : frames.find? (·.scope == scope) with
    | none =>
        rw [hframe] at h
        cases h
    | some frame =>
        rw [hframe] at h
        have hsub : info.localVars frame ⊆ info.vars := by
          intro v hv
          obtain ⟨w, hw, hmem⟩ := List.mem_flatMap.mp (List.mem_filter.mp hv).1
          obtain ⟨_, _, rfl⟩ := List.mem_map.mp hmem
          exact hw
        exact ⟨frame.step, by rw [hadded hsub h]⟩

/-! ## The query -/

/-- The condition of the join. -/
def localJoin (frame : Frame) (v : VarRow) (s : ScopeAncestorRow) : Bool :=
  (v.scopeId = s.ancestor ∨ v.scopeId = frame.scope) ∧ s.id = frame.scope ∧
    v.scopeId ≠ globalScope

theorem localVars_eq (frame : Frame) : info.localVars frame = joinLeft (localJoin frame)
    (info.vars.filter fun v => ¬ (v.fileId = frame.file ∧ frame.line ≤ v.line))
    info.scopeAncestors :=
  joinLeft_filter _

section
variable {t : ScopeTree} (hscopes : info.scopeAncestors = t.scopeAncestors) {frame : Frame}
include hscopes

theorem mem_localVars_iff {p : Nat} (hscope : t.Parent frame.scope p) {v : VarRow} :
    v ∈ info.localVars frame ↔ v ∈ info.vars ∧ LocalOf t frame v := by
  rw [localVars_eq, mem_joinLeft, List.mem_filter, and_assoc]
  refine and_congr_right fun _ => ?_
  constructor
  · rintro ⟨hdeclared, ⟨id, ancestor⟩, hs, hjoin⟩
    obtain ⟨hv, rfl, hglobal⟩ := of_decide_eq_true hjoin
    refine ⟨hglobal, ScopeTree.visible_iff.mpr ?_, of_decide_eq_true hdeclared⟩
    rcases hv with hv | hv
    · rw [hscopes] at hs
      rw [hv]
      exact .inr (ScopeTree.mem_scopeAncestors_iff.mp hs)
    · exact .inl hv
  · rintro ⟨hglobal, hvisible, hdeclared⟩
    refine ⟨decide_eq_true hdeclared, ?_⟩
    rcases ScopeTree.visible_iff.mp hvisible with hown | hancestor
    · refine ⟨⟨frame.scope, p⟩, ?_, decide_eq_true ⟨.inr hown, rfl, hglobal⟩⟩
      rw [hscopes]
      exact ScopeTree.mem_scopeAncestors_iff.mpr (.single hscope)
    · refine ⟨⟨frame.scope, v.scopeId⟩, ?_, decide_eq_true ⟨.inl rfl, rfl, hglobal⟩⟩
      rw [hscopes]
      exact ScopeTree.mem_scopeAncestors_iff.mpr hancestor

theorem partners_ancestor {v : VarRow} (hother : v.scopeId ≠ frame.scope) :
    (info.scopeAncestors.filter (localJoin frame v)).length ≤ 1 := by
  rw [hscopes]
  have hsub : (t.scopeAncestors.filter (localJoin frame v)) ⊆ [⟨frame.scope, v.scopeId⟩] := by
    intro s hs
    obtain ⟨hancestor, hid, _⟩ := of_decide_eq_true (List.mem_filter.mp hs).2
    have heq : v.scopeId = s.ancestor := hancestor.resolve_right hother
    rw [heq, ← hid]
    exact List.mem_singleton_self s
  exact ((ScopeTree.scopeAncestors_nodup.filter _).subperm hsub).length_le

/-- A variable of the scope has one for each scope around it. -/
theorem partners_own {p : Nat} (hscope : t.Parent frame.scope p) {v : VarRow}
    (hown : v.scopeId = frame.scope) :
    (info.scopeAncestors.filter (localJoin frame v)).length ≤ 1 ↔ p = globalScope := by
  rw [hscopes]
  have hmem {a : Nat} : { id := frame.scope, ancestor := a } ∈
      t.scopeAncestors.filter (localJoin frame v) ↔ t.Ancestor frame.scope a := by
    rw [List.mem_filter, ScopeTree.mem_scopeAncestors_iff]
    refine and_iff_left (decide_eq_true ⟨.inr hown, rfl, ?_⟩)
    exact hown ▸ Nat.ne_of_gt (Nat.lt_of_le_of_lt (Nat.zero_le p) hscope.lt)
  constructor
  · intro hlen
    by_contra hp
    obtain ⟨q, hq⟩ := hscope.next hp
    have hp' := hmem.mpr (.single hscope)
    have hq' := hmem.mpr (.tail (.single hscope) hq)
    have hpair : [{ id := frame.scope, ancestor := p }, { id := frame.scope, ancestor := q }] ⊆
        t.scopeAncestors.filter (localJoin frame v) :=
      List.cons_subset.mpr ⟨hp', List.cons_subset.mpr ⟨hq', List.nil_subset _⟩⟩
    have hne : ({ id := frame.scope, ancestor := p } : ScopeAncestorRow) ≠
        { id := frame.scope, ancestor := q } := fun heq =>
      Nat.ne_of_gt hq.lt (congrArg ScopeAncestorRow.ancestor heq)
    have htwo := ((List.nodup_cons.mpr ⟨by simpa using hne, List.nodup_singleton _⟩).subperm
      hpair).length_le
    exact Nat.not_succ_le_self 1 (Nat.le_trans htwo hlen)
  · rintro rfl
    have hsub : t.scopeAncestors.filter (localJoin frame v) ⊆ [⟨frame.scope, globalScope⟩] := by
      rintro ⟨id, a⟩ hs
      obtain ⟨_, hid, _⟩ := of_decide_eq_true (List.mem_filter.mp hs).2
      have hid : id = frame.scope := hid
      subst hid
      have hzero := ScopeTree.ancestor_of_root hscope (hmem.mp hs)
      rw [hzero]
      exact List.mem_singleton_self _
    exact ((ScopeTree.scopeAncestors_nodup.filter _).subperm hsub).length_le

/-- No variable is there twice exactly if the scope is in the global one, or none of its
own variables is there. -/
theorem localVars_nodup_iff (hids : (info.vars.map (·.id)).Nodup) {p : Nat}
    (hscope : t.Parent frame.scope p) : (info.localVars frame).Nodup ↔
      p = globalScope ∨ ∀ v ∈ info.vars, v.scopeId = frame.scope → frame.Hides v := by
  rw [localVars_eq, joinLeft_nodup (List.Nodup.of_map _ hids |>.filter _)]
  simp only [List.mem_filter, decide_eq_true_eq, and_imp]
  constructor
  · intro h
    by_contra hnot
    obtain ⟨hp, hown⟩ := not_or.mp hnot
    refine hown fun v hv hscopeId => ?_
    by_contra hdeclared
    exact hp ((partners_own hscopes hscope hscopeId).mp (h v hv hdeclared))
  · intro h v hv hdeclared
    by_cases hown : v.scopeId = frame.scope
    · rcases h with hp | hall
      · exact (partners_own hscopes hscope hown).mpr hp
      · exact absurd (hall v hv hown) hdeclared
    · exact partners_ancestor hscopes hown

theorem variablesResponse_ok_iff {curStep : Nat} {frames : List Frame} {first : Frame}
    {refs : RefTable} {vars : List VarRow} {scope p : Nat} (hscope : t.Parent scope p)
    (hfirst : frames.find? (·.scope == scope) = some first) :
    variablesResponse info curStep frames scope refs = .ok vars ↔
      vars = info.localVars first ∧
        ∀ v ∈ info.localVars first, Addable info curStep first.step v := by
  have hsame : first.scope = scope := by simpa using List.find?_some hfirst
  have hnonzero : scope ≠ globalScope :=
    Nat.ne_of_gt (Nat.lt_of_le_of_lt (Nat.zero_le p) hscope.lt)
  have hsub : info.localVars first ⊆ info.vars := fun v hv =>
    ((mem_localVars_iff hscopes (hsame.symm ▸ hscope)).mp hv).1
  have hadded : addVars info curStep scope first.step (info.localVars first) refs =
      some vars ↔ _ := addVars_eq_some_iff hsub
  rw [← hadded, variablesResponse, if_neg hnonzero, hfirst]
  dsimp only
  cases addVars info curStep scope first.step (info.localVars first) refs with
  | none => simp
  | some added => simp

end

end

/-- The list of a frame is right exactly if the first frame with its scope hides the
same variables, all that are not hidden can be added, and the scope is in the global one
or shows no variable of its own. -/
theorem locals_listed_once_iff (info : DebugInfo) (t : ScopeTree)
    (hscopes : info.scopeAncestors = t.scopeAncestors) (hids : (info.vars.map (·.id)).Nodup)
    (curStep : Nat) (frames : List Frame) (frame : Frame) (hframe : frame ∈ frames) (p : Nat)
    (hscope : t.Parent frame.scope p) (refs : RefTable) :
    ListedOnce info t curStep frames frame refs ↔
      ∃ first, frames.find? (·.scope == frame.scope) = some first ∧
        (∀ v ∈ info.vars, v.scopeId ≠ globalScope → t.Visible frame.scope v.scopeId →
          (first.Hides v ↔ frame.Hides v)) ∧
        (∀ v ∈ info.vars, LocalOf t frame v → Addable info curStep first.step v) ∧
        (p = globalScope ∨ ∀ v ∈ info.vars, v.scopeId = frame.scope → frame.Hides v) := by
  obtain ⟨first, hfirst⟩ : ∃ first, frames.find? (·.scope == frame.scope) = some first := by
    rw [← Option.isSome_iff_exists, List.find?_isSome]
    exact ⟨frame, hframe, beq_self_eq_true _⟩
  have hsame : first.scope = frame.scope := by simpa using List.find?_some hfirst
  have hnonzero : frame.scope ≠ globalScope :=
    Nat.ne_of_gt (Nat.lt_of_le_of_lt (Nat.zero_le p) hscope.lt)
  have hparent : t.Parent first.scope p := hsame ▸ hscope
  have hmem (v : VarRow) := mem_localVars_iff hscopes hparent (v := v)
  have hlocal {v : VarRow} : LocalOf t first v ↔
      v.scopeId ≠ globalScope ∧ t.Visible frame.scope v.scopeId ∧ ¬ first.Hides v := by
    rw [← hsame]
    exact ⟨fun h => ⟨h.notGlobal, h.visible, h.declared⟩, fun ⟨h, h', h''⟩ => ⟨h, h', h''⟩⟩
  have hresponse {vars : List VarRow} :
      variablesResponse info curStep frames frame.scope refs = .ok vars ↔ _ :=
    variablesResponse_ok_iff hscopes hscope hfirst
  have hnodup := localVars_nodup_iff hscopes hids hparent
  constructor
  · rintro ⟨vars, hok, hunique, hall⟩
    obtain ⟨rfl, hadd⟩ := hresponse.mp hok
    have hhides : ∀ v ∈ info.vars, v.scopeId ≠ globalScope → t.Visible frame.scope v.scopeId →
        (first.Hides v ↔ frame.Hides v) := by
      intro v hv hglobal hvisible
      have hboth := (hmem v).symm.trans (hall v)
      refine not_iff_not.mp ⟨fun h => ?_, fun h => ?_⟩
      · exact (hboth.mp ⟨hv, hlocal.mpr ⟨hglobal, hvisible, h⟩⟩).2.declared
      · exact (hboth.mpr ⟨hv, hglobal, hvisible, h⟩).2.declared
    refine ⟨first, hfirst, hhides, fun v hv hlocal => hadd v ((hall v).mpr ⟨hv, hlocal⟩), ?_⟩
    refine (hnodup.mp hunique).imp_right fun hown v hv hscopeId => ?_
    refine (hhides v hv (hscopeId ▸ hnonzero) ?_).mp (hown v hv (hscopeId.trans hsame.symm))
    exact hscopeId ▸ .refl
  · rintro ⟨_, hfind, hhides, hadd, hown⟩
    cases hfirst.symm.trans hfind
    have hsameLocal : ∀ v ∈ info.vars, (LocalOf t first v ↔ LocalOf t frame v) := by
      intro v hv
      rw [hlocal]
      constructor
      · rintro ⟨hglobal, hvisible, h⟩
        exact ⟨hglobal, hvisible, fun hides => h ((hhides v hv hglobal hvisible).mpr hides)⟩
      · rintro ⟨hglobal, hvisible, h⟩
        exact ⟨hglobal, hvisible, fun hides => h ((hhides v hv hglobal hvisible).mp hides)⟩
    have hlist (v : VarRow) : v ∈ info.localVars first ↔ v ∈ info.vars ∧ LocalOf t frame v :=
      (hmem v).trans (and_congr_right (hsameLocal v))
    refine ⟨_, hresponse.mpr ⟨rfl, fun v hv => ?_⟩, hnodup.mpr ?_, hlist⟩
    · obtain ⟨hv, hlocal⟩ := (hlist v).mp hv
      exact hadd v hv hlocal
    · refine hown.imp_right fun hown v hv hscopeId => ?_
      have hscopeId := hscopeId.trans hsame
      refine (hhides v hv (hscopeId ▸ hnonzero) ?_).mpr (hown v hv hscopeId)
      exact hscopeId ▸ .refl

/-! ### Examples -/

/-- A function with a block in it. -/
def functionWithBlock : ScopeTree where
  scopes := [⟨1, 0, 1, 0x1000, 0x1020⟩, ⟨2, 1, 2, 0x1008, 0x1010⟩]
  ids := by decide
  parents := by decide

/-- A variable of the function and one of the block; neither is a container. -/
def twoLocals : DebugInfo where
  vars := [⟨1, some "x", 1, 1, 4⟩, ⟨2, some "y", 2, 1, 6⟩]
  scopeAncestors := functionWithBlock.scopeAncestors
  members := []
  varLocation := fun id _ => some (0x7000 + 8 * id, 100)
  arrayInfo := fun _ _ => none
  shown := fun _ _ => .plain
  parsed := fun _ _ => none
  evaluated := fun _ _ _ => .plain

/-- Line 5 of the function, and line 7 of the block. -/
def frameOfFunction : Frame := ⟨0, 1, 1, 1, 5⟩

def frameOfBlock : Frame := ⟨0, 2, 2, 1, 7⟩

example : (twoLocals.localVars frameOfBlock).map (·.id) = [1, 2, 2] := by rfl

theorem locals_listed_once_iff_function :
    ListedOnce twoLocals functionWithBlock 1 [frameOfFunction] frameOfFunction .empty := by
  refine (locals_listed_once_iff twoLocals functionWithBlock rfl (by decide) 1 [frameOfFunction]
    frameOfFunction (by simp) 0 ⟨_, List.mem_cons_self, rfl, rfl⟩ .empty).mpr ?_
  exact ⟨frameOfFunction, rfl, fun _ _ _ _ => Iff.rfl,
    fun v _ _ => ⟨_, _, rfl, Shown.noConfusion⟩, .inl rfl⟩

/-- The variable of the block is listed twice. -/
theorem own_local_twice :
    ¬ ∀ (info : DebugInfo) (t : ScopeTree), info.scopeAncestors = t.scopeAncestors →
      (info.vars.map (·.id)).Nodup → ∀ (curStep : Nat) (frames : List Frame) (frame : Frame),
        frame ∈ frames → ∀ p, t.Parent frame.scope p → ∀ refs,
          ListedOnce info t curStep frames frame refs := by
  intro h
  obtain ⟨vars, hok, hunique, _⟩ := h twoLocals functionWithBlock rfl (by decide) 2
    [frameOfBlock] frameOfBlock (by simp) 1 ⟨_, List.mem_cons_of_mem _ List.mem_cons_self, rfl, rfl⟩
    .empty
  have hlist : variablesResponse twoLocals 2 [frameOfBlock] 2 .empty =
      .ok [⟨1, some "x", 1, 1, 4⟩, ⟨2, some "y", 2, 1, 6⟩, ⟨2, some "y", 2, 1, 6⟩] := by rfl
  cases hlist.symm.trans hok
  exact absurd hunique (by decide)

end FlightRec
