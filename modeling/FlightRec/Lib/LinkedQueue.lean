/-
# `FlightRec.Lib.LinkedQueue` — a queue as a linked list in memory

A queue is a list of nodes with pointers to the first and to the last of them.  A
new node is put behind the last, and the first is taken out and freed.  `Chain`
follows the `next` pointers from a node to the end of the list, and a queue `Holds`
the nodes a chain from `head` visits if no node is visited twice and `tail` points
to the last one.

    enqueue   puts a value behind the others      (`Holds.enqueue`)
    dequeue   takes out the first value           (`Holds.dequeue`)
    `head` is null exactly when `tail` is         (`Holds.head_eq_none_iff`)
-/
import Mathlib.Data.List.Nodup
import Mathlib.Logic.Function.Basic

namespace FlightRec.LinkedQueue

variable {α β : Type*}

/-- What a node holds, and the next node. -/
structure Node (α β : Type*) where
  value : β
  next : Option α

/-- The allocated nodes, the first and the last one. -/
structure Queue (α β : Type*) where
  nodes : α → Option (Node α β)
  head : Option α
  tail : Option α

/-- No node is allocated. -/
def Queue.empty : Queue α β := { nodes := fun _ => none, head := none, tail := none }

section
variable [DecidableEq α]

/-- Puts a node with a fresh address behind the last one. -/
def Queue.enqueue (q : Queue α β) (a : α) (v : β) : Queue α β :=
  let nodes := Function.update q.nodes a (some { value := v, next := none })
  match q.tail with
  | some t =>
      { q with
        nodes := Function.update nodes t ((nodes t).map fun n => { n with next := some a })
        tail := some a }
  | none => { nodes, head := some a, tail := some a }

/-- Takes out the first node and frees it, if `head` points to a node. -/
def Queue.dequeue (q : Queue α β) : Option (β × Queue α β) :=
  match q.head with
  | none => none
  | some a =>
      (q.nodes a).map fun n =>
        (n.value,
          { nodes := Function.update q.nodes a none
            head := n.next
            tail := if n.next.isNone then none else q.tail })

end

/-! ## The nodes of a queue -/

/-- The chain from `p` on visits the nodes `l`. -/
def Chain (nodes : α → Option (Node α β)) : Option α → List (α × β) → Prop
  | p, [] => p = none
  | p, (a, v) :: l => p = some a ∧ ∃ next, nodes a = some ⟨v, next⟩ ∧ Chain nodes next l

/-- The queue consists of the nodes `l`. -/
structure Holds (q : Queue α β) (l : List (α × β)) : Prop where
  chain : Chain q.nodes q.head l
  nodup : (l.map Prod.fst).Nodup
  last : q.tail = l.getLast?.map Prod.fst

theorem holds_empty : Holds (Queue.empty : Queue α β) [] where
  chain := rfl
  nodup := List.nodup_nil
  last := rfl

theorem Chain.allocated {nodes : α → Option (Node α β)} {l : List (α × β)} :
    ∀ {p : Option α}, Chain nodes p l → ∀ x ∈ l, ∃ n, nodes x.1 = some n := by
  induction l with
  | nil =>
      intro p _ x hx
      cases hx
  | cons y l ih =>
      rintro p ⟨_, next, hy, hrest⟩ x hx
      rcases List.mem_cons.mp hx with rfl | hx
      · exact ⟨_, hy⟩
      · exact ih hrest x hx

theorem Chain.unique {nodes : α → Option (Node α β)} {l : List (α × β)} :
    ∀ {p : Option α} {l' : List (α × β)}, Chain nodes p l → Chain nodes p l' → l = l' := by
  induction l with
  | nil =>
      rintro p (_ | ⟨y, l'⟩) h h'
      · rfl
      · cases h.symm.trans h'.1
  | cons x l ih =>
      rintro p (_ | ⟨y, l'⟩) ⟨hp, next, hx, hrest⟩ h'
      · cases hp.symm.trans h'
      · obtain ⟨hp', next', hy, hrest'⟩ := h'
        obtain ⟨a, v⟩ := x
        obtain ⟨b, w⟩ := y
        cases hp.symm.trans hp'
        cases hx.symm.trans hy
        rw [ih hrest hrest']

section
variable [DecidableEq α]

theorem Chain.update {nodes : α → Option (Node α β)} {l : List (α × β)} {a : α}
    (fresh : a ∉ l.map Prod.fst) (n : Option (Node α β)) :
    ∀ {p : Option α}, Chain nodes p l → Chain (Function.update nodes a n) p l := by
  induction l with
  | nil =>
      intro p h
      exact h
  | cons y l ih =>
      rw [List.map_cons, List.mem_cons, not_or] at fresh
      rintro p ⟨hp, next, hy, hrest⟩
      refine ⟨hp, next, ?_, ih fresh.2 hrest⟩
      rw [Function.update_of_ne (Ne.symm fresh.1)]
      exact hy

/-- Linking a node `a` without a successor to the last node of a chain makes it the last. -/
theorem Chain.link {nodes : α → Option (Node α β)} {l : List (α × β)} {t a : α} {w v : β}
    (nodup : ((l ++ [(t, w)]).map Prod.fst).Nodup) (fresh : a ∉ (l ++ [(t, w)]).map Prod.fst)
    (ha : nodes a = some ⟨v, none⟩) : ∀ {p : Option α}, Chain nodes p (l ++ [(t, w)]) →
      Chain (Function.update nodes t ((nodes t).map fun n => { n with next := some a })) p
        (l ++ [(t, w)] ++ [(a, v)]) := by
  induction l with
  | nil =>
      rintro p ⟨hp, next, ht, -⟩
      have hat : a ≠ t := by simpa using fresh
      refine ⟨hp, some a, ?_, rfl, none, ?_, rfl⟩
      · rw [Function.update_self, ht]
        rfl
      · rw [Function.update_of_ne hat]
        exact ha
  | cons y l ih =>
      rw [List.cons_append, List.map_cons, List.nodup_cons] at nodup
      rw [List.cons_append, List.map_cons, List.mem_cons, not_or] at fresh
      rintro p ⟨hp, next, hy, hrest⟩
      have hyt : y.1 ≠ t := by
        intro heq
        exact nodup.1 (by simp [heq])
      refine ⟨hp, next, ?_, ih nodup.2 fresh.2 hrest⟩
      rw [Function.update_of_ne hyt]
      exact hy

/-! ## The operations -/

variable {q : Queue α β} {l : List (α × β)}

theorem Holds.enqueue (h : Holds q l) {a : α} (fresh : q.nodes a = none) (v : β) :
    Holds (q.enqueue a v) (l ++ [(a, v)]) := by
  have hnew : a ∉ l.map Prod.fst := by
    intro hmem
    obtain ⟨x, hx, rfl⟩ := List.mem_map.mp hmem
    obtain ⟨n, hn⟩ := h.chain.allocated x hx
    cases hn.symm.trans fresh
  have hchain := h.chain.update hnew (some ⟨v, none⟩)
  have hself : Function.update q.nodes a (some ⟨v, none⟩) a = some ⟨v, none⟩ :=
    Function.update_self ..
  have hnodup : ((l ++ [(a, v)]).map Prod.fst).Nodup := by
    rw [List.map_append, List.map_singleton, List.nodup_append]
    refine ⟨h.nodup, List.nodup_singleton a, fun b hb c hc heq => ?_⟩
    rw [List.mem_singleton] at hc
    have hba : b = a := heq.trans hc
    exact hnew (hba ▸ hb)
  rcases List.eq_nil_or_concat' l with rfl | ⟨l, ⟨t, w⟩, rfl⟩
  · have htail : q.tail = none := h.last
    unfold Queue.enqueue
    rw [htail]
    exact { chain := ⟨rfl, none, hself, rfl⟩, nodup := hnodup, last := rfl }
  · have htail : q.tail = some t := by
      rw [h.last, List.getLast?_concat]
      rfl
    unfold Queue.enqueue
    rw [htail]
    refine { chain := hchain.link h.nodup hnew hself, nodup := hnodup, last := ?_ }
    rw [List.getLast?_concat]
    rfl

theorem Holds.dequeue {a : α} {v : β} (h : Holds q ((a, v) :: l)) :
    ∃ q', q.dequeue = some (v, q') ∧ Holds q' l := by
  obtain ⟨hhead, next, ha, hrest⟩ := h.chain
  have hnodup := List.nodup_cons.mp h.nodup
  have hlast : (if next.isNone then none else q.tail) = l.getLast?.map Prod.fst := by
    rw [h.last]
    cases l with
    | nil =>
        have hnext : next = none := hrest
        rw [hnext]
        rfl
    | cons y l =>
        rw [hrest.1, List.getLast?_cons_cons]
        rfl
  unfold Queue.dequeue
  rw [hhead]
  simp only [ha, Option.map_some]
  exact ⟨_, rfl, { chain := hrest.update hnodup.1 none, nodup := hnodup.2, last := hlast }⟩

theorem nodes_enqueue {a b : α} {v : β} (hne : b ≠ a) (hb : q.nodes b = none) :
    (q.enqueue a v).nodes b = none := by
  have hupdate : Function.update q.nodes a (some ⟨v, none⟩) b = none := by
    rw [Function.update_of_ne hne, hb]
  unfold Queue.enqueue
  split
  · next t _ =>
      by_cases ht : b = t
      · subst ht
        dsimp only
        rw [Function.update_self, hupdate]
        rfl
      · dsimp only
        rw [Function.update_of_ne ht, hupdate]
  · exact hupdate

theorem nodes_dequeue {q' : Queue α β} {b : α} {v : β} (h : q.dequeue = some (v, q'))
    (hb : q.nodes b = none) : q'.nodes b = none := by
  unfold Queue.dequeue at h
  split at h
  · cases h
  · next a _ =>
      obtain ⟨n, hn, heq⟩ := Option.map_eq_some_iff.mp h
      cases heq
      by_cases ha : b = a
      · subst ha
        exact Function.update_self ..
      · show Function.update q.nodes a none b = none
        rw [Function.update_of_ne ha, hb]

omit [DecidableEq α] in
theorem Holds.head_eq_none_iff (h : Holds q l) : q.head = none ↔ q.tail = none := by
  cases l with
  | nil =>
      have hhead : q.head = none := h.chain
      have htail : q.tail = none := h.last
      rw [hhead, htail]
  | cons x l =>
      obtain ⟨hhead, _⟩ := h.chain
      rw [hhead, h.last, List.getLast?_cons]
      simp

end

end FlightRec.LinkedQueue
