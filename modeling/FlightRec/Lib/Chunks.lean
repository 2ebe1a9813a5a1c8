/-
# `FlightRec.Lib.Chunks` — a range put together from aligned chunks

A function `f` on addresses is stored in chunks of width `w` that start at
multiples of `w`.  `clip` is the part of a chunk that falls into `[lo, hi)`; it is
empty for a chunk outside the range.  Clipping chunks one after the other, in ascending
order, gives `f` on the part of the range that they hold, with the gaps closed
(`flatMap_clip_held`); with none missing that touches the range, it gives `f` on the
whole range (`flatMap_clip`).
-/
import Mathlib.Data.List.Basic
import Mathlib.Data.List.Range
import Mathlib.Data.List.ReduceOption

namespace FlightRec.Chunks

variable {β : Type*} (f : Nat → β)

/-- `f` on `[lo, hi)`. -/
def slice (lo hi : Nat) : List β := (List.range' lo (hi - lo)).map f

/-- `f` on the part of the chunk `[c, c + w)` inside `[lo, hi)`. -/
def clip (w lo hi c : Nat) : List β := slice f (max c lo) (min (c + w) hi)

variable {f} {w lo hi : Nat}

theorem slice_empty (h : hi ≤ lo) : slice f lo hi = [] := by
  rw [slice, Nat.sub_eq_zero_of_le h]
  rfl

theorem slice_append {mid : Nat} (h1 : lo ≤ mid) (h2 : mid ≤ hi) :
    slice f lo mid ++ slice f mid hi = slice f lo hi := by
  rw [slice, slice, slice, ← List.map_append]
  have hmid : mid = lo + 1 * (mid - lo) := by omega
  have hlen : hi - lo = (mid - lo) + (hi - mid) := by omega
  conv_lhs => rw [show List.range' mid (hi - mid) = List.range' (lo + 1 * (mid - lo)) (hi - mid) by
    rw [← hmid]]
  rw [List.range'_append, ← hlen]

theorem clip_empty {c : Nat} (h : hi ≤ lo ∨ c + w ≤ lo ∨ hi ≤ c) : clip f w lo hi c = [] :=
  slice_empty (by omega)

/-! ## Chunks one behind the other -/

theorem slice_congr {g : Nat → β} (h : ∀ a, lo ≤ a → a < hi → f a = g a) :
    slice f lo hi = slice g lo hi := by
  refine List.map_congr_left fun a ha => ?_
  obtain ⟨hlo, hhi⟩ := List.mem_range'_1.mp ha
  exact h a hlo (by omega)

/-- What `f` is at an address that falls into one of the chunks. -/
def held (f : Nat → β) (w : Nat) (cs : List Nat) (a : Nat) : Option β :=
  if a / w * w ∈ cs then some (f a) else none

theorem reduceOption_slice_none {g : Nat → Option β} (h : ∀ a, lo ≤ a → a < hi → g a = none) :
    (slice g lo hi).reduceOption = [] := by
  rw [slice_congr h, slice, List.map_const', List.reduceOption_replicate_none]

theorem reduceOption_slice_some {g : Nat → Option β}
    (h : ∀ a, lo ≤ a → a < hi → g a = some (f a)) :
    (slice g lo hi).reduceOption = slice f lo hi := by
  rw [slice_congr h, slice, slice]
  induction List.range' lo (hi - lo) with
  | nil => rfl
  | cons a l ih => rw [List.map_cons, List.reduceOption_cons_of_some, ih, List.map_cons]

theorem chunk_le {c x : Nat} (hc : c % w = 0) (hx : x % w = 0) (hlt : c < x) : c + w ≤ x := by
  obtain ⟨a, rfl⟩ := Nat.dvd_of_mod_eq_zero hc
  obtain ⟨b, rfl⟩ := Nat.dvd_of_mod_eq_zero hx
  have hab : a + 1 ≤ b := Nat.lt_of_mul_lt_mul_left hlt
  calc w * a + w = w * (a + 1) := by rw [Nat.mul_succ]
    _ ≤ w * b := Nat.mul_le_mul_left w hab

theorem chunk_of (hw : 0 < w) (a : Nat) :
    a / w * w ≤ a ∧ a < a / w * w + w ∧ a / w * w % w = 0 := by
  have hsplit := Nat.div_add_mod' a w
  have hmod := Nat.mod_lt a hw
  exact ⟨by omega, by omega, Nat.mul_mod_left _ w⟩

/-- Clipping some chunks one after the other gives `f` on the part of the range that they
hold, without its gaps. -/
theorem flatMap_clip_held (hw : 0 < w) : ∀ {cs : List Nat}, cs.Pairwise (· < ·) →
    (∀ c ∈ cs, c % w = 0) →
    cs.flatMap (clip f w lo hi) = (slice (held f w cs) lo hi).reduceOption
  | [], _, _ => by
      rw [List.flatMap_nil, reduceOption_slice_none]
      intro a _ _
      simp [held]
  | c :: cs, sorted, aligned => by
      obtain ⟨hfirst, sorted'⟩ := List.pairwise_cons.mp sorted
      have hc : c % w = 0 := aligned c List.mem_cons_self
      have aligned' : ∀ x ∈ cs, x % w = 0 := fun x hx => aligned x (List.mem_cons_of_mem c hx)
      rw [List.flatMap_cons, flatMap_clip_held hw sorted' aligned']
      rcases Nat.lt_or_ge lo hi with hlt | hge
      · -- the range before the chunk, inside of it and behind it
        obtain ⟨start, hstart⟩ : ∃ n, n = min (max c lo) hi := ⟨_, rfl⟩
        obtain ⟨stop, hstop⟩ : ∃ n, n = min (max (c + w) lo) hi := ⟨_, rfl⟩
        have hclip : clip f w lo hi c = slice f start stop := by
          rcases Nat.lt_or_ge (max c lo) (min (c + w) hi) with hin | hout
          · rw [clip, show start = max c lo by omega, show stop = min (c + w) hi by omega]
          · rw [clip, slice_empty hout, slice_empty (by omega)]
        have hbefore : (slice (held f w (c :: cs)) lo start).reduceOption = [] := by
          refine reduceOption_slice_none fun a hlo ha => if_neg fun hmem => ?_
          have hchunk := chunk_of hw a
          rcases List.mem_cons.mp hmem with heq | hmem
          · omega
          · have := hfirst _ hmem
            omega
        have hinside : (slice (held f w (c :: cs)) start stop).reduceOption =
            slice f start stop := by
          refine reduceOption_slice_some fun a hlo ha => if_pos ?_
          have hchunk := chunk_of hw a
          have heq : a / w * w = c := by
            by_contra hne
            rcases Nat.lt_or_gt_of_ne hne with h | h
            · have := chunk_le hchunk.2.2 hc h
              omega
            · have := chunk_le hc hchunk.2.2 h
              omega
          rw [heq]
          exact List.mem_cons_self
        have hrest : (slice (held f w cs) lo stop).reduceOption = [] := by
          refine reduceOption_slice_none fun a hlo ha => if_neg fun hmem => ?_
          have hchunk := chunk_of hw a
          have := chunk_le hc (aligned' _ hmem) (hfirst _ hmem)
          omega
        have hbehind : slice (held f w (c :: cs)) stop hi = slice (held f w cs) stop hi := by
          refine slice_congr fun a hlo ha => ?_
          have hchunk := chunk_of hw a
          have hne : a / w * w ≠ c := by omega
          simp only [held, List.mem_cons, hne, false_or]
        rw [← slice_append (f := held f w (c :: cs)) (show lo ≤ start by omega)
            (show start ≤ hi by omega), ← slice_append (f := held f w (c :: cs))
            (show start ≤ stop by omega) (show stop ≤ hi by omega),
          ← slice_append (f := held f w cs) (show lo ≤ stop by omega) (show stop ≤ hi by omega)]
        simp only [List.reduceOption_append, hclip, hbefore, hinside, hrest, hbehind,
          List.nil_append]
      · rw [clip_empty (.inl hge), slice_empty hge, slice_empty hge, List.nil_append]

/-- **Reassembly.**  The chunks that touch the range, in ascending order, are the range. -/
theorem flatMap_clip (hw : 0 < w) {cs : List Nat} (sorted : cs.Pairwise (· < ·))
    (aligned : ∀ c ∈ cs, c % w = 0)
    (all : ∀ c, c % w = 0 → c < hi → lo < c + w → c ∈ cs) :
    cs.flatMap (clip f w lo hi) = slice f lo hi := by
  rw [flatMap_clip_held hw sorted aligned]
  refine reduceOption_slice_some fun a hlo hhi => if_pos ?_
  have hchunk := chunk_of hw a
  exact all _ hchunk.2.2 (by omega) (by omega)

end FlightRec.Chunks
