/-
# `FlightRec.Lib.Intern` — a table that numbers its keys

A table with an automatic row id and a unique key gives a number to every key it
is asked for: a key it has a row of keeps its number (`put` only changes the value
of the row), and a new key gets the next one.  An entry without a key never finds a
row, so it gets a new number every time.  Of all the numbers given out in a run of
`put`s two are the same exactly if they were given to the same key (`Issued.put`).
-/
import Mathlib.Data.List.Nodup
import Mathlib.Data.List.Pairwise

namespace FlightRec.Intern

variable {κ β : Type*}

/-- A row of the table. -/
structure Row (κ β : Type*) where
  id : Nat
  key : Option κ
  val : β
  deriving DecidableEq, Repr

/-- The rows, and the greatest id given out so far. -/
structure Table (κ β : Type*) where
  rows : List (Row κ β)
  seq : Nat
  deriving DecidableEq, Repr

/-- No rows. -/
def Table.empty : Table κ β := { rows := [], seq := 0 }

/-- The value of a row. -/
def Table.get (t : Table κ β) (id : Nat) : Option β :=
  (t.rows.find? fun r => r.id == id).map (·.val)

variable [DecidableEq κ]

/-- The row of a key; nothing is equal to no key. -/
def Table.find (t : Table κ β) (key : Option κ) : Option (Row κ β) :=
  t.rows.find? fun r => key.isSome && decide (r.key = key)

omit [DecidableEq κ] in
/-- Changes the value of a row. -/
def Table.set (t : Table κ β) (id : Nat) (val : β) : Table κ β :=
  { t with rows := t.rows.map fun r => if r.id = id then { r with val } else r }

omit [DecidableEq κ] in
/-- Adds a row with the next number. -/
def Table.insert (t : Table κ β) (key : Option κ) (val : β) : Table κ β :=
  { rows := t.rows ++ [{ id := t.seq + 1, key, val }], seq := t.seq + 1 }

/-- Changes the value of the row of the key, or adds a row; returns the table and
the number of the row. -/
def Table.put (t : Table κ β) (key : Option κ) (val : β) : Table κ β × Nat :=
  match t.find key with
  | some r => (t.set r.id val, r.id)
  | none => (t.insert key val, t.seq + 1)

omit [DecidableEq κ] in
/-- The numbers `l` were given out, with the keys they were given to. -/
structure Issued (t : Table κ β) (l : List (Nat × Option κ)) : Prop where
  bound : ∀ r ∈ t.rows, r.id ≤ t.seq
  ids : (t.rows.map (·.id)).Nodup
  keys : t.rows.Pairwise fun a b => a.key = b.key → a.key = none
  rows : ∀ g ∈ l, ∃ r ∈ t.rows, r.id = g.1 ∧ r.key = g.2
  told : l.Pairwise fun a b => a.1 = b.1 ↔ a.2 = b.2 ∧ a.2 ≠ none

omit [DecidableEq κ] in
theorem issued_empty : Issued (Table.empty : Table κ β) [] where
  bound := fun r hr => by cases hr
  ids := List.nodup_nil
  keys := List.Pairwise.nil
  rows := fun g hg => by cases hg
  told := List.Pairwise.nil

section
variable {t : Table κ β} {l : List (Nat × Option κ)} {key : Option κ}

theorem find_some {r : Row κ β} (h : t.find key = some r) :
    r ∈ t.rows ∧ r.key = key ∧ key ≠ none := by
  have hp := List.find?_some h
  simp only [Bool.and_eq_true, decide_eq_true_eq, Option.isSome_iff_ne_none] at hp
  exact ⟨List.mem_of_find?_eq_some h, hp.2, hp.1⟩

theorem find_none (h : t.find key = none) (hkey : key ≠ none) : ∀ r ∈ t.rows, r.key ≠ key := by
  intro r hr heq
  have := List.find?_eq_none.mp h r hr
  simp [heq, Option.isSome_iff_ne_none, hkey] at this

theorem find_set (t : Table κ β) (id : Nat) (val : β) (key : Option κ) :
    (t.set id val).find key =
      (t.find key).map fun r => if r.id = id then { r with val } else r := by
  unfold Table.find Table.set
  rw [List.find?_map]
  congr 2
  funext r
  simp only [Function.comp_apply]
  split <;> rfl

theorem find_insert {k : κ} (hfind : t.find (some k) = none) (val : β) (k' : κ) :
    (t.insert (some k) val).find (some k') =
      if k' = k then some { id := t.seq + 1, key := some k, val } else t.find (some k') := by
  unfold Table.find Table.insert at *
  rw [List.find?_append]
  split
  next heq =>
    rw [heq, hfind, Option.none_or]
    simp
  next hne =>
    have hnew : [({ id := t.seq + 1, key := some k, val } : Row κ β)].find? (fun r =>
        (some k').isSome && decide (r.key = some k')) = none := by
      simp [Ne.symm hne]
    rw [hnew, Option.or_none]

omit [DecidableEq κ] in
theorem Issued.row_unique (h : Issued t l) {a b : Row κ β} (ha : a ∈ t.rows) (hb : b ∈ t.rows)
    (heq : a.key = b.key) (hkey : a.key ≠ none) : a = b := by
  by_contra hne
  rcases List.mem_iff_getElem.mp ha with ⟨i, hi, rfl⟩
  rcases List.mem_iff_getElem.mp hb with ⟨j, hj, rfl⟩
  have hpair := List.pairwise_iff_getElem.mp h.keys
  rcases Nat.lt_trichotomy i j with hlt | rfl | hlt
  · exact hkey (hpair i j hi hj hlt heq)
  · exact hne rfl
  · exact hkey (heq.trans (hpair j i hj hi hlt heq.symm))

omit [DecidableEq κ] in
theorem set_rows (t : Table κ β) (id : Nat) (val : β) :
    (t.set id val).rows.map (fun r => (r.id, r.key)) = t.rows.map fun r => (r.id, r.key) := by
  unfold Table.set
  rw [List.map_map]
  exact List.map_congr_left fun r _ => by
    simp only [Function.comp_apply]
    split <;> rfl

omit [DecidableEq κ] in
theorem Issued.set (h : Issued t l) (id : Nat) (val : β) : Issued (t.set id val) l := by
  have hrows := set_rows t id val
  have hmem : ∀ r ∈ (t.set id val).rows, ∃ q ∈ t.rows, q.id = r.id ∧ q.key = r.key := by
    intro r hr
    have hr : (r.id, r.key) ∈ t.rows.map fun r => (r.id, r.key) := by
      rw [← hrows]
      exact List.mem_map.mpr ⟨r, hr, rfl⟩
    obtain ⟨q, hq, heq⟩ := List.mem_map.mp hr
    exact ⟨q, hq, Prod.mk.inj heq⟩
  refine ⟨fun r hr => ?_, ?_, ?_, fun g hg => ?_, h.told⟩
  · obtain ⟨q, hq, hid, _⟩ := hmem r hr
    exact hid ▸ h.bound q hq
  · have hids := congrArg (List.map Prod.fst) hrows
    rw [List.map_map, List.map_map] at hids
    exact hids ▸ h.ids
  · have hkeys : (t.rows.map fun r => (r.id, r.key)).Pairwise
        fun a b => a.2 = b.2 → a.2 = none := List.pairwise_map.mpr h.keys
    rw [← hrows] at hkeys
    exact List.pairwise_map.mp hkeys
  · obtain ⟨q, hq, hid, hkey⟩ := h.rows g hg
    have hq : (q.id, q.key) ∈ (t.set id val).rows.map fun r => (r.id, r.key) := by
      rw [hrows]
      exact List.mem_map.mpr ⟨q, hq, rfl⟩
    obtain ⟨r, hr, heq⟩ := List.mem_map.mp hq
    obtain ⟨hid', hkey'⟩ := Prod.mk.inj heq
    exact ⟨r, hr, hid'.trans hid, hkey'.trans hkey⟩

theorem Issued.found (h : Issued t l) {r : Row κ β} (hfind : t.find key = some r) :
    Issued t (l ++ [(r.id, key)]) := by
  obtain ⟨hr, hrkey, hkey⟩ := find_some hfind
  refine ⟨h.bound, h.ids, h.keys, fun g hg => ?_, ?_⟩
  · rcases List.mem_append.mp hg with hg | hg
    · exact h.rows g hg
    · rw [List.mem_singleton.mp hg]
      exact ⟨r, hr, rfl, hrkey⟩
  · refine List.pairwise_append.mpr ⟨h.told, List.pairwise_singleton _ _, fun g hg g' hg' => ?_⟩
    obtain ⟨q, hq, hid, hk⟩ := h.rows g hg
    rw [List.mem_singleton.mp hg']
    show g.1 = r.id ↔ g.2 = key ∧ g.2 ≠ none
    rw [← hid, ← hk]
    constructor
    · intro heq
      rw [List.inj_on_of_nodup_map h.ids hq hr heq]
      exact ⟨hrkey, hrkey ▸ hkey⟩
    · rintro ⟨heq, hne⟩
      rw [h.row_unique hq hr (heq.trans hrkey.symm) hne]

theorem Issued.insert (h : Issued t l) (hfind : t.find key = none) (val : β) :
    Issued (t.insert key val) (l ++ [(t.seq + 1, key)]) := by
  refine ⟨fun q hq => ?_, ?_, ?_, fun g hg => ?_, ?_⟩
  · rcases List.mem_append.mp hq with hq | hq
    · exact Nat.le_succ_of_le (h.bound q hq)
    · rw [List.mem_singleton.mp hq]
      exact Nat.le_refl _
  · show ((t.rows ++ [_]).map _).Nodup
    rw [List.map_append, List.nodup_append]
    refine ⟨h.ids, List.nodup_singleton _, fun a ha b hb => ?_⟩
    obtain ⟨q, hq, rfl⟩ := List.mem_map.mp ha
    have := h.bound q hq
    have hb : b = t.seq + 1 := List.mem_singleton.mp hb
    omega
  · refine List.pairwise_append.mpr ⟨h.keys, List.pairwise_singleton _ _, fun q hq q' hq' heq => ?_⟩
    rw [List.mem_singleton.mp hq'] at heq
    have heq : q.key = key := heq
    by_contra hne
    exact find_none hfind (heq ▸ hne) q hq heq
  · rcases List.mem_append.mp hg with hg | hg
    · obtain ⟨q, hq, hid, hk⟩ := h.rows g hg
      exact ⟨q, List.mem_append_left _ hq, hid, hk⟩
    · rw [List.mem_singleton.mp hg]
      exact ⟨_, List.mem_append_right _ (List.mem_singleton.mpr rfl), rfl, rfl⟩
  · refine List.pairwise_append.mpr ⟨h.told, List.pairwise_singleton _ _, fun g hg g' hg' => ?_⟩
    obtain ⟨q, hq, hid, hk⟩ := h.rows g hg
    rw [List.mem_singleton.mp hg']
    show g.1 = t.seq + 1 ↔ g.2 = key ∧ g.2 ≠ none
    have hbound := h.bound q hq
    constructor
    · intro heq
      omega
    · rintro ⟨heq, hne⟩
      exact absurd (hk.trans heq) (find_none hfind (heq ▸ hne) q hq)

/-- **One `put`**: the number it returns is one of the earlier exactly if these were
given to the same key. -/
theorem Issued.put (h : Issued t l) (key : Option κ) (val : β) :
    Issued (t.put key val).1 (l ++ [((t.put key val).2, key)]) := by
  unfold Table.put
  cases hfind : t.find key with
  | some r => exact (h.found hfind).set r.id val
  | none => exact h.insert hfind val

omit [DecidableEq κ] in
/-- Of numbers given to keys, the same number means the same key. -/
theorem Issued.same_iff (h : Issued t l) {n n' : Nat} {k k' : κ} (hn : (n, some k) ∈ l)
    (hn' : (n', some k') ∈ l) : n = n' ↔ k = k' := by
  have symm : Std.Symm fun a b : Nat × Option κ =>
      a.2 ≠ none → b.2 ≠ none → (a.1 = b.1 ↔ a.2 = b.2) :=
    ⟨fun a b hab hb ha => by rw [eq_comm, hab ha hb, eq_comm]⟩
  have told : l.Pairwise fun a b => a.2 ≠ none → b.2 ≠ none → (a.1 = b.1 ↔ a.2 = b.2) :=
    h.told.imp fun {a b} hab ha _ => by rw [hab, and_iff_left ha]
  have hall := told.forall_of_forall fun a _ _ _ => iff_of_true rfl rfl
  simpa using hall hn hn' (by simp) (by simp)

end

end FlightRec.Intern
