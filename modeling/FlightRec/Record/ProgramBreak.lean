/-
# `FlightRec.Record.ProgramBreak` — the heap as it grows

The heap that the client has when tracking starts is cached by `init_cache`; what it grows
by afterwards is cached by `bpf_callback`, from the boundary it keeps up to the new break.
It learns the boundary from the first event alone, which caches nothing.  So everything up
to the break is cached after each event exactly if everything up to the break of the first
event was cached before it (`heap_covered_iff`).
-/
import FlightRec.Fidelity
import FlightRec.Record.BpfCallback

namespace FlightRec

open Intervals

/-! ## The break -/

/-- The break after an event. -/
def BpfEvent.break_ (b : Nat) : BpfEvent → Nat
  | .brk address => address
  | _ => b

/-- The break after some events, if it was `b` before them. -/
def breakAfter (b : Nat) (events : List (Nat × BpfEvent)) : Nat :=
  events.foldl (fun b e => e.2.break_ b) b

theorem breakAfter_concat (b : Nat) (events : List (Nat × BpfEvent)) (e : Nat × BpfEvent) :
    breakAfter b (events ++ [e]) = e.2.break_ (breakAfter b events) := by
  rw [breakAfter, List.foldl_concat]
  rfl

/-- The break is an address and never goes down. -/
def BreaksRise (b : Nat) (events : List (Nat × BpfEvent)) : Prop :=
  ∀ pre stepId address, pre ++ [(stepId, .brk address)] <+: events →
    breakAfter b pre ≤ address ∧ address < addressSpace

/-- The heap of the client when tracking starts, as a line of the map if it is not empty. -/
structure HeapMapped (exeName : String) (maps : List MapsEntry) (heapStart b : Nat) : Prop where
  le : heapStart ≤ b
  lt : b < addressSpace
  line : heapStart < b → ∃ e ∈ maps, e.cached exeName = true ∧ e.head = heapStart ∧ e.tail = b

/-- Every address between the two is in a cached region. -/
def MemState.Covers (st : MemState) (start stop : Nat) : Prop :=
  ∀ a, start ≤ a → a < stop → ∃ r ∈ st.cache, r.Contains a

/-- An event that reports the break for the first time is one for which everything from
the old break up to the new one is cached already. -/
def FirstBreakCached (c : Client) (st : BpfState) (b : Nat) (events : List (Nat × BpfEvent)) :
    Prop :=
  ∀ pre stepId address, pre ++ [(stepId, .brk address)] <+: events →
    (bpfRun c st pre).brkBoundary = 0 →
      (bpfRun c st pre).mem.Covers (breakAfter b pre) address

/-! ## One event -/

theorem MemState.Covers.trans {st : MemState} {a b d : Nat} (h : st.Covers a b)
    (h' : st.Covers b d) : st.Covers a d := by
  intro x hlo hhi
  rcases Nat.lt_or_ge x b with hlt | hge
  · exact h x hlo hlt
  · exact h' x hge hhi

theorem MemState.Covers.mono {st st' : MemState} (hsub : ∀ r ∈ st.cache, r ∈ st'.cache)
    {a b : Nat} (h : st.Covers a b) : st'.Covers a b := by
  intro x hlo hhi
  obtain ⟨r, hr, hx⟩ := h x hlo hhi
  exact ⟨r, hsub r hr, hx⟩

theorem cacheAddRegion_covers (c : Client) (address size step : Nat) (st : MemState)
    (hlt : address + size < addressSpace) :
    (cacheAddRegion c address size step st).Covers address (address + size) := by
  intro x hlo hhi
  refine ⟨_, cacheAddRegion_cache c address size step st ▸ mem_insert.mpr (Or.inl rfl), hlo, ?_⟩
  show x < (address + size) % addressSpace
  rwa [Nat.mod_eq_of_lt hlt]

theorem cacheAddRegion_keeps (c : Client) (address size step : Nat) (st : MemState) :
    ∀ r ∈ st.cache, r ∈ (cacheAddRegion c address size step st).cache := by
  intro r hr
  rw [cacheAddRegion_cache]
  exact mem_insert.mpr (Or.inr hr)

theorem bpfCallback_keeps (c : Client) (stepId : Nat) (event : BpfEvent) (st : BpfState) :
    ∀ r ∈ st.mem.cache, r ∈ (bpfCallback c stepId event st).mem.cache := by
  intro r hr
  rcases bpfCallback_cache c stepId event st with ⟨_, hcache⟩ | ⟨address, size, _, hmem⟩
  · rwa [hcache]
  · rw [hmem]
    exact cacheAddRegion_keeps c address size stepId st.mem r hr

/-- The callback knows the break, or has not been told it yet. -/
structure BpfState.Tracks (st : BpfState) (b : Nat) : Prop where
  running : st.stop = false
  boundary : st.brkBoundary = 0 ∨ st.brkBoundary = b

theorem bpfCallback_tracks_other {c : Client} {stepId : Nat} {event : BpfEvent} {st : BpfState}
    {b : Nat} (h : st.Tracks b) (hevent : ∀ address, event ≠ .brk address) :
    (bpfCallback c stepId event st).Tracks b ∧ event.break_ b = b := by
  unfold bpfCallback
  rw [if_neg (by rw [h.running]; decide)]
  cases event with
  | brk address => exact absurd rfl (hevent address)
  | signal signum =>
      refine ⟨?_, rfl⟩
      simp only [BpfState.onSignal]
      split
      · split
        · exact ⟨h.running, h.boundary⟩
        · exact ⟨h.running, h.boundary⟩
      · exact h
  | pagefault address => exact ⟨⟨h.running, h.boundary⟩, rfl⟩
  | mmapEntry size => exact ⟨⟨h.running, h.boundary⟩, rfl⟩
  | mmapExit address => exact ⟨⟨h.running, h.boundary⟩, rfl⟩
  | munmap address => exact ⟨h, rfl⟩
  | unknown type => exact ⟨h, rfl⟩

/-- A `brk` tells the callback the break.  What the heap grows by is covered then, if the
callback knew where to begin. -/
theorem bpfCallback_tracks_brk {c : Client} {stepId address : Nat} {st : BpfState} {b : Nat}
    (h : st.Tracks b) (hle : b ≤ address) (hlt : address < addressSpace) :
    (bpfCallback c stepId (.brk address) st).Tracks address ∧
      (st.brkBoundary = 0 → (bpfCallback c stepId (.brk address) st).mem = st.mem) ∧
      (st.brkBoundary ≠ 0 →
        (bpfCallback c stepId (.brk address) st).mem.Covers b address) := by
  unfold bpfCallback
  rw [if_neg (by rw [h.running]; decide)]
  dsimp only
  by_cases h0 : st.brkBoundary = 0
  · rw [if_pos h0]
    exact ⟨⟨h.running, Or.inr rfl⟩, fun _ => rfl, fun hne => absurd h0 hne⟩
  · have hb := h.boundary.resolve_left h0
    rw [if_neg h0, hb]
    by_cases hgrows : b < address
    · rw [if_pos hgrows]
      refine ⟨⟨h.running, Or.inr rfl⟩, fun h0' => absurd (hb.trans h0') (hb ▸ h0), fun _ => ?_⟩
      have hcovers := cacheAddRegion_covers c b (address - b) stepId st.mem (by omega)
      rwa [Nat.add_sub_cancel' hle] at hcovers
    · -- the break is where it was
      obtain rfl : b = address := by omega
      rw [if_neg hgrows]
      exact ⟨h, fun _ => rfl, fun _ x hlo hhi => absurd hlo (by omega)⟩

/-- **One event** keeps the heap covered exactly if it does not report the break for the
first time after the heap has grown. -/
theorem bpfCallback_covers_iff {c : Client} {stepId heapStart : Nat} {event : BpfEvent}
    {st : BpfState} {b : Nat} (h : st.Tracks b) (hheap : heapStart ≤ b)
    (hrises : ∀ address, event = .brk address → b ≤ address ∧ address < addressSpace)
    (hcovers : st.mem.Covers heapStart b) :
    (bpfCallback c stepId event st).mem.Covers heapStart (event.break_ b) ↔
      ∀ address, event = .brk address → st.brkBoundary = 0 → st.mem.Covers b address := by
  by_cases hbrk : ∃ address, event = .brk address
  · obtain ⟨address, rfl⟩ := hbrk
    obtain ⟨hle, hlt⟩ := hrises address rfl
    obtain ⟨_, hfirst, hlater⟩ := @bpfCallback_tracks_brk c stepId address st b h hle hlt
    show (bpfCallback c stepId (.brk address) st).mem.Covers heapStart address ↔ _
    constructor
    · intro hafter address' heq h0
      cases heq
      rw [hfirst h0] at hafter
      exact fun x hlo hhi => hafter x (by omega) hhi
    · intro hbefore
      by_cases h0 : st.brkBoundary = 0
      · rw [hfirst h0]
        exact hcovers.trans (hbefore address rfl h0)
      · exact (hcovers.mono (bpfCallback_keeps c stepId _ st)).trans (hlater h0)
  · have hevent : ∀ address, event ≠ .brk address := fun address heq => hbrk ⟨address, heq⟩
    obtain ⟨_, hsame⟩ := @bpfCallback_tracks_other c stepId event st b h hevent
    rw [hsame]
    exact iff_of_true (hcovers.mono (bpfCallback_keeps c stepId event st))
      fun address heq => absurd heq (hevent address)

/-! ## Runs -/

section
variable {c : Client} {st : BpfState} {b : Nat} {events : List (Nat × BpfEvent)}

theorem prefix_front {α : Type} {pre : List α} {x : α} {l : List α} (h : pre ++ [x] <+: l) :
    pre <+: l := (List.prefix_append pre [x]).trans h

theorem bpfRun_tracks (h : st.Tracks b) (hrises : BreaksRise b events) :
    ∀ pre, pre <+: events → (bpfRun c st pre).Tracks (breakAfter b pre) ∧
      b ≤ breakAfter b pre := by
  intro pre
  induction pre using List.reverseRecOn with
  | nil =>
      intro _
      exact ⟨h, Nat.le_refl b⟩
  | append_singleton pre e ih =>
      intro hpre
      obtain ⟨htracks, hle⟩ := ih (prefix_front hpre)
      obtain ⟨stepId, event⟩ := e
      rw [bpfRun_concat, breakAfter_concat]
      by_cases hbrk : ∃ address, event = .brk address
      · obtain ⟨address, rfl⟩ := hbrk
        obtain ⟨hrise, hlt⟩ := hrises pre stepId address hpre
        exact ⟨(bpfCallback_tracks_brk htracks hrise hlt).1, hle.trans hrise⟩
      · obtain ⟨htracks', hsame⟩ := @bpfCallback_tracks_other c stepId event _ _ htracks
          fun address heq => hbrk ⟨address, heq⟩
        dsimp only
        rw [hsame]
        exact ⟨htracks', hle⟩

/-- A run keeps the heap covered exactly if its first report of the break does. -/
theorem bpfRun_covers_iff {heapStart : Nat} (h : st.Tracks b) (hheap : heapStart ≤ b)
    (hrises : BreaksRise b events) (hcovers : st.mem.Covers heapStart b) :
    (∀ pre, pre <+: events → (bpfRun c st pre).mem.Covers heapStart (breakAfter b pre)) ↔
      FirstBreakCached c st b events := by
  have hstep : ∀ pre stepId event, pre ++ [(stepId, event)] <+: events →
      (bpfRun c st pre).mem.Covers heapStart (breakAfter b pre) →
        ((bpfRun c st (pre ++ [(stepId, event)])).mem.Covers heapStart
          (breakAfter b (pre ++ [(stepId, event)])) ↔ ∀ address, event = .brk address →
            (bpfRun c st pre).brkBoundary = 0 →
              (bpfRun c st pre).mem.Covers (breakAfter b pre) address) := by
    intro pre stepId event hpre hbefore
    obtain ⟨htracks, hle⟩ := bpfRun_tracks (c := c) h hrises pre (prefix_front hpre)
    rw [bpfRun_concat, breakAfter_concat]
    exact bpfCallback_covers_iff htracks (hheap.trans hle)
      (fun address heq => hrises pre stepId address (heq ▸ hpre)) hbefore
  constructor
  · intro hall pre stepId address hpre
    exact (hstep pre stepId _ hpre (hall pre (prefix_front hpre))).mp (hall _ hpre) address rfl
  · intro hfirst pre
    induction pre using List.reverseRecOn with
    | nil => exact fun _ => hcovers
    | append_singleton pre e ih =>
        intro hpre
        obtain ⟨stepId, event⟩ := e
        exact (hstep pre stepId event hpre (ih (prefix_front hpre))).mpr
          fun address heq => hfirst pre stepId address (heq ▸ hpre)

end

theorem initCache_covers (c : Client) {exeName : String} {maps : List MapsEntry} {e : MapsEntry}
    (he : e ∈ maps) (hcached : e.cached exeName = true) (hle : e.head ≤ e.tail)
    (hlt : e.tail < addressSpace) : (initCache c exeName maps).Covers e.head e.tail := by
  have loop : ∀ (l : List MapsEntry) (st : MemState),
      (e ∈ l ∨ st.Covers e.head e.tail) →
        (l.foldl (fun st e => cacheAddRegion c e.head (e.tail - e.head) 1 st) st).Covers
          e.head e.tail := by
    intro l
    induction l with
    | nil =>
        intro st h
        exact h.resolve_left List.not_mem_nil
    | cons x l ih =>
        intro st h
        refine ih _ ?_
        rcases h with hmem | hcovers
        · rcases List.mem_cons.mp hmem with rfl | hmem
          · right
            have hcovers := cacheAddRegion_covers c e.head (e.tail - e.head) 1 st (by omega)
            rwa [Nat.add_sub_cancel' hle] at hcovers
          · exact Or.inl hmem
        · exact Or.inr (hcovers.mono (cacheAddRegion_keeps c _ _ 1 st))
  exact loop _ _ (Or.inl (List.mem_filter.mpr ⟨he, hcached⟩))

/-- **Program-break coverage.**  After every event of a run everything between the start of
the heap and the break is cached, exactly if everything up to the break of the first report
was cached when it came. -/
theorem heap_covered_iff (c : Client) (exeName : String) {maps : List MapsEntry}
    {heapStart b : Nat} (hmapped : HeapMapped exeName maps heapStart b)
    {events : List (Nat × BpfEvent)} (hrises : BreaksRise b events) :
    (∀ pre, pre <+: events → (bpfRun c (.start (initCache c exeName maps)) pre).mem.Covers
        heapStart (breakAfter b pre)) ↔
      FirstBreakCached c (.start (initCache c exeName maps)) b events := by
  refine bpfRun_covers_iff ⟨rfl, Or.inl rfl⟩ hmapped.le hrises ?_
  rcases Nat.eq_or_lt_of_le hmapped.le with rfl | hlt
  · intro x hlo hhi
    exact absurd hlo (by omega)
  · obtain ⟨e, he, hcached, rfl, rfl⟩ := hmapped.line hlt
    exact initCache_covers c he hcached hmapped.le hmapped.lt

/-! ### Examples -/

/-- A heap of one page. -/
def heapMaps : List MapsEntry := [⟨0x9000, 0xa000, "rw-p", some "[heap]"⟩]

/-- The client asks for the break before it moves it. -/
def askedRun : List (Nat × BpfEvent) := [(1, .brk 0xa000), (2, .brk 0xc000)]

/-- The client moves the break at once. -/
def grownRun : List (Nat × BpfEvent) := [(1, .brk 0xc000), (2, .brk 0xd000)]

theorem heapMaps_mapped : HeapMapped "a.out" heapMaps 0x9000 0xa000 :=
  ⟨by decide, by decide, fun _ => ⟨_, List.mem_singleton_self _, by decide, rfl, rfl⟩⟩

theorem prefix_pair {α : Type} {pre : List α} {x a b : α} (h : pre ++ [x] <+: [a, b]) :
    (pre = [] ∧ x = a) ∨ (pre = [a] ∧ x = b) := by
  match pre, h with
  | [], h => exact Or.inl ⟨rfl, (List.cons_prefix_cons.mp h).1⟩
  | [p], h =>
      obtain ⟨rfl, hrest⟩ := List.cons_prefix_cons.mp h
      exact Or.inr ⟨rfl, (List.cons_prefix_cons.mp hrest).1⟩
  | p :: q :: pre, h =>
      have := h.length_le
      simp at this

theorem rises_pair {b x y : Nat} (hbx : b ≤ x) (hxy : x ≤ y) (hy : y < addressSpace) :
    BreaksRise b [(1, .brk x), (2, .brk y)] := by
  intro pre stepId address h
  rcases prefix_pair h with ⟨rfl, hlast⟩ | ⟨rfl, hlast⟩
  · cases hlast
    exact ⟨hbx, by omega⟩
  · cases hlast
    exact ⟨hxy, hy⟩

theorem askedRun_rises : BreaksRise 0xa000 askedRun :=
  rises_pair (le_refl _) (by decide) (by decide)

theorem heap_covered_iff_asked : BreaksRise 0xa000 askedRun ∧
    ∀ pre, pre <+: askedRun →
      (bpfRun unreadableClient (.start (initCache unreadableClient "a.out" heapMaps))
        pre).mem.Covers 0x9000 (breakAfter 0xa000 pre) := by
  refine ⟨askedRun_rises,
    (heap_covered_iff unreadableClient "a.out" heapMaps_mapped askedRun_rises).mpr ?_⟩
  intro pre stepId address h h0
  rcases prefix_pair h with ⟨rfl, hlast⟩ | ⟨rfl, hlast⟩
  · -- the first report is the old break
    cases hlast
    exact fun x hlo hhi => absurd hlo (by rw [show breakAfter 0xa000 [] = 0xa000 from rfl]; omega)
  · cases hlast
    exact absurd h0 (by decide)

/-- What the heap grows by before the first report is never cached. -/
theorem first_growth_missed :
    HeapMapped "a.out" heapMaps 0x9000 0xa000 ∧ BreaksRise 0xa000 grownRun ∧
      ¬ ∀ pre, pre <+: grownRun → (bpfRun unreadableClient
        (.start (initCache unreadableClient "a.out" heapMaps)) pre).mem.Covers
          0x9000 (breakAfter 0xa000 pre) := by
  refine ⟨heapMaps_mapped, rises_pair (by decide) (by decide) (by decide), fun h => ?_⟩
  obtain ⟨r, hr, hx⟩ := h [(1, .brk 0xc000)] ⟨[(2, .brk 0xd000)], rfl⟩ 0xa000 (by decide)
    (by decide)
  have hcache : (initCache unreadableClient "a.out" heapMaps).cache.map
      (fun r => (r.start, r.stop)) = [(0x9000, 0xa000)] := by
    simp [initCache, heapMaps, MapsEntry.cached, Intervals.insert, MemState.init, addressSpace]
  have hmem : (r.start, r.stop) ∈ (initCache unreadableClient "a.out" heapMaps).cache.map
      fun r => (r.start, r.stop) := List.mem_map.mpr ⟨r, hr, rfl⟩
  rw [hcache, List.mem_singleton, Prod.mk.injEq] at hmem
  have := hx.2
  omega

end FlightRec
