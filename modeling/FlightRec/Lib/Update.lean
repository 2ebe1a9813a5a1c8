/-
# `FlightRec.Lib.Update` — UPDATE statements

`UPDATE t SET … WHERE …` goes through the rows in the order of their ids.  What a
subquery in it reads of another row is what the statement has made of that row, if it
comes before, and what the row was, if it comes after (`update_row`).
-/
import Mathlib.Data.List.Basic
import Mathlib.Data.List.Nodup

namespace FlightRec.Update

variable {α κ : Type*} [DecidableEq κ] (key : α → κ)

/-- The row with a key. -/
def lookup (rows : List α) (k : κ) : Option α := rows.find? fun r => key r = k

omit [DecidableEq κ] in
/-- One row after another; a row that breaks a constraint makes the statement fail. -/
def updateFrom (f : List α → α → Option α) : List α → List α → Option (List α)
  | done, [] => some done
  | done, r :: rest => (f (done ++ r :: rest) r).bind fun r' => updateFrom f (done ++ [r']) rest

omit [DecidableEq κ] in
/-- The table after the statement. -/
def update (f : List α → α → Option α) (rows : List α) : Option (List α) := updateFrom f [] rows

/-- The key comes before the other. -/
def Before (keys : List κ) (k k' : κ) : Prop := keys.idxOf k < keys.idxOf k'

instance (keys : List κ) (k k' : κ) : Decidable (Before keys k k') :=
  inferInstanceAs (Decidable (_ < _))

section
variable {key} {f : List α → α → Option α} {rows rows' : List α} {r : α} {k : κ}

omit [DecidableEq κ] in
theorem updateFrom_keys (hkey : ∀ table r r', f table r = some r' → key r' = key r) :
    ∀ {rest done : List α}, updateFrom f done rest = some rows' →
      ∃ rest', rows' = done ++ rest' ∧ rest'.map key = rest.map key
  | [], done, h => ⟨[], by cases h; simp, rfl⟩
  | r :: rest, done, h => by
      obtain ⟨r', hr', h⟩ := Option.bind_eq_some_iff.mp h
      obtain ⟨rest', rfl, hkeys⟩ := updateFrom_keys hkey h
      exact ⟨r' :: rest', by simp, by rw [List.map_cons, List.map_cons, hkeys, hkey _ _ _ hr']⟩

omit [DecidableEq κ] in
theorem updateFrom_split (hkey : ∀ table r r', f table r = some r' → key r' = key r)
    {post : List α} : ∀ {pre done : List α}, updateFrom f done (pre ++ r :: post) = some rows' →
      ∃ pre' r' post', rows' = done ++ pre' ++ r' :: post' ∧
        f (done ++ pre' ++ r :: post) r = some r' ∧ pre'.map key = pre.map key
  | [], done, h => by
      obtain ⟨r', hr', h⟩ := Option.bind_eq_some_iff.mp h
      obtain ⟨post', rfl, _⟩ := updateFrom_keys hkey h
      exact ⟨[], r', post', by simp, by simpa using hr', rfl⟩
  | p :: pre, done, h => by
      obtain ⟨p', hp', h⟩ := Option.bind_eq_some_iff.mp h
      obtain ⟨pre', r', post', rfl, hr', hkeys⟩ := updateFrom_split hkey h
      refine ⟨p' :: pre', r', post', by simp, by simpa using hr', ?_⟩
      rw [List.map_cons, List.map_cons, hkeys, hkey _ _ _ hp']

omit [DecidableEq κ] in
theorem update_keys (hkey : ∀ table r r', f table r = some r' → key r' = key r)
    (h : update f rows = some rows') : rows'.map key = rows.map key := by
  obtain ⟨rest', rfl, hkeys⟩ := updateFrom_keys hkey h
  exact hkeys

omit [DecidableEq κ] in
/-- A statement succeeds if it has a new row for every row; whether it has may depend on
the keys, which it leaves alone. -/
theorem updateFrom_isSome (hkey : ∀ table r r', f table r = some r' → key r' = key r)
    {defined : List κ → α → Prop}
    (hdefined : ∀ table r, (f table r).isSome ↔ defined (table.map key) r) :
    ∀ {rest done : List α}, (updateFrom f done rest).isSome ↔
      ∀ r ∈ rest, defined ((done ++ rest).map key) r
  | [], done => ⟨fun _ _ h => absurd h List.not_mem_nil, fun _ => rfl⟩
  | r :: rest, done => by
      rw [updateFrom, List.forall_mem_cons, ← hdefined]
      cases hr : f (done ++ r :: rest) r with
      | none => exact ⟨fun h => (Bool.false_ne_true h).elim, fun h => h.1⟩
      | some r' =>
          have hkeys : (done ++ [r'] ++ rest).map key = (done ++ r :: rest).map key := by
            rw [List.append_assoc, List.map_append, List.map_append, List.map_append,
              List.map_cons, List.map_cons, hkey _ _ _ hr]
            rfl
          refine (updateFrom_isSome hkey hdefined).trans ?_
          rw [hkeys]
          exact (and_iff_right rfl).symm

omit [DecidableEq κ] in
theorem update_isSome (hkey : ∀ table r r', f table r = some r' → key r' = key r)
    {defined : List κ → α → Prop}
    (hdefined : ∀ table r, (f table r).isSome ↔ defined (table.map key) r) :
    (update f rows).isSome ↔ ∀ r ∈ rows, defined (rows.map key) r :=
  updateFrom_isSome hkey hdefined

theorem lookup_append {pre post : List α} :
    lookup key (pre ++ post) k = (lookup key pre k).or (lookup key post k) :=
  List.find?_append

theorem lookup_isSome {rows : List α} : (lookup key rows k).isSome ↔ k ∈ rows.map key := by
  simp [lookup, List.find?_isSome]

theorem lookup_eq_none {rows : List α} : lookup key rows k = none ↔ k ∉ rows.map key := by
  rw [← lookup_isSome, Option.not_isSome_iff_eq_none]

theorem mem_of_lookup (h : lookup key rows k = some r) : r ∈ rows ∧ key r = k := by
  unfold lookup at h
  have hkey := List.find?_some h
  exact ⟨List.mem_of_find?_eq_some h, of_decide_eq_true hkey⟩

theorem lookup_of_mem (hnodup : (rows.map key).Nodup) (hr : r ∈ rows) :
    lookup key rows (key r) = some r := by
  have hsome : (lookup key rows (key r)).isSome := lookup_isSome.mpr (List.mem_map.mpr ⟨r, hr, rfl⟩)
  obtain ⟨r', hr'⟩ := Option.isSome_iff_exists.mp hsome
  obtain ⟨hmem, hkey⟩ := mem_of_lookup hr'
  rw [hr', List.inj_on_of_nodup_map hnodup hmem hr hkey]

theorem before_iff {pre post : List κ} {k' : κ} (hnodup : (pre ++ k' :: post).Nodup) :
    Before (pre ++ k' :: post) k k' ↔ k ∈ pre := by
  have hk' : k' ∉ pre := fun hmem =>
    (List.nodup_append.mp hnodup).2.2 k' hmem k' List.mem_cons_self rfl
  unfold Before
  rw [List.idxOf_append_of_notMem hk', List.idxOf_cons_self, Nat.add_zero]
  by_cases hk : k ∈ pre
  · rw [List.idxOf_append_of_mem hk]
    exact iff_of_true (List.idxOf_lt_length_iff.mpr hk) hk
  · rw [List.idxOf_append_of_notMem hk]
    exact iff_of_false (by omega) hk

/-- **A row after the statement** is what the statement makes of it in a table where the
rows before it are done, and those after it are not. -/
theorem update_row (hkey : ∀ table r r', f table r = some r' → key r' = key r)
    (hnodup : (rows.map key).Nodup) (h : update f rows = some rows') (hr : r ∈ rows) :
    ∃ table r', f table r = some r' ∧ lookup key rows' (key r) = some r' ∧
      ∀ k, lookup key table k =
        if Before (rows.map key) k (key r) then lookup key rows' k else lookup key rows k := by
  obtain ⟨pre, post, rfl⟩ := List.append_of_mem hr
  obtain ⟨pre', r', post', rfl, hr', hkeys⟩ := updateFrom_split hkey h
  have hkey' : key r' = key r := hkey _ _ _ hr'
  rw [List.map_append, List.map_cons] at hnodup
  have hnot : key r ∉ pre.map key := fun hmem =>
    (List.nodup_append.mp hnodup).2.2 _ hmem _ List.mem_cons_self rfl
  refine ⟨_, r', hr', ?_, fun k => ?_⟩
  · have hnone : lookup key pre' (key r) = none := lookup_eq_none.mpr (hkeys ▸ hnot)
    rw [List.nil_append, lookup_append, hnone, Option.none_or]
    exact List.find?_cons_of_pos (decide_eq_true hkey')
  · have hbefore : Before ((pre ++ r :: post).map key) k (key r) ↔ k ∈ pre.map key := by
      rw [List.map_append, List.map_cons, before_iff hnodup]
    rw [List.nil_append, lookup_append]
    by_cases hk : k ∈ pre.map key
    · have hsome : (lookup key pre' k).isSome := lookup_isSome.mpr (hkeys.symm ▸ hk)
      obtain ⟨p, hp⟩ := Option.isSome_iff_exists.mp hsome
      rw [if_pos (hbefore.mpr hk), lookup_append, hp]
      rfl
    · have hnone : lookup key pre' k = none := lookup_eq_none.mpr (hkeys ▸ hk)
      rw [if_neg fun h => hk (hbefore.mp h), lookup_append, hnone, lookup_eq_none.mpr hk]

end

end FlightRec.Update
