/-
# `FlightRec.Stingray.Budget` — the memory for `CONCAT`

`sr_concat` (stingray/stingray.c) goes through its arguments twice.  First it adds up how
many bytes they may need, by their kinds, and makes room for them; then `vsprintf` prints
them, and what it returns is added to the length.

    what is reserved    is what `vsprintf` counts, and up to 37 bytes more
                        for each argument                              (`arg_passes`)
    what is counted     is what is printed, but for managed strings,
                        where it is the length that is stored

So there is room enough for all kinds of arguments.  The new length is right if the stored
lengths are, unless `vsprintf` fails because it has more than `INT_MAX` bytes to print: the
-1 that it returns then is added to the length, too (`budget_iff`).
-/
import FlightRec.Stingray.Refinement

namespace FlightRec.Stingray

open CString Printf

/-! ## What is printed -/

/-- The length that is stored in a managed string. -/
def Store.len (st : Store) (i : Nat) : Nat := ((st i).map (·.len)).getD 0

/-- What `print_sr` prints of a managed string. -/
def Store.shown (st : Store) (i : Nat) : List UInt8 :=
  if st.len i = 0 then [] else (contents st i).getD []

/-- The bytes of an argument; `%c` prints a zero like any other byte. -/
def Arg.output (st : Store) : Arg → List UInt8
  | .chr c => [c]
  | .sr i => st.shown i
  | a => a.text (contents st)

/-- The bytes as they are counted. -/
def Arg.count (st : Store) : Arg → Nat
  | .sr i => st.len i
  | a => (a.output st).length

/-- The managed strings among the arguments. -/
def Arg.managed : Arg → Option Nat
  | .sr i => some i
  | _ => none

/-- The strings among the arguments have an end. -/
def Arg.Terminated (st : Store) : Arg → Prop
  | .str s => 0 ∈ s.bytes
  | .sr i => (contents st i).isSome
  | _ => True

/-- A call of `sr_concat` for which there is memory: any arguments, as long as their format
fits into `format`, and the destination is not among them. -/
structure Concat where
  st : Store
  i : Nat
  dest : Sr
  found : st i = some dest
  size : dest.val.length = dest.size
  room : dest.len < dest.size
  bounded : dest.size ≤ ptrdiffMax
  args : List Arg
  fits : (args.map fun a => a.format.utf8ByteSize).sum + 1 ≤ 128
  terminated : ∀ a ∈ args, a.Terminated st
  others : .sr i ∉ args
  granted : Bool
  returns : ∀ ns, args.mapM (Arg.reserve st) = .ok ns →
    srEnsureSize granted dest (word (dest.len + word ns.sum + 1)) extend ≠ .error .exited

namespace Concat

variable (c : Concat)

/-- The bytes that are produced. -/
def output : List UInt8 := c.args.flatMap (Arg.output c.st)

/-- The managed strings that are printed. -/
def managed : List Nat := c.args.filterMap Arg.managed

/-- There is room for what is produced and its terminator, and the length is counted up. -/
structure Budget : Prop where
  reserved : ∃ ns, c.args.mapM (Arg.reserve c.st) = .ok ns ∧ c.output.length ≤ word ns.sum
  result : ∃ st dest, srConcat c.granted c.st c.i c.args = .ok st ∧ st c.i = some dest ∧
    dest.val.length = dest.size ∧ c.dest.len + c.output.length + 1 ≤ dest.size ∧
    (c.output ++ [0]).map some <+: dest.val.drop c.dest.len ∧
    dest.len = c.dest.len + c.output.length

end Concat

/-! ## The two passes -/

section
variable {st : Store} {i : Nat} {o : Option Sr} {a : Arg} {args : List Arg}

theorem arg_passes (ha : a.Terminated st) :
    a.print st = .ok (a.output st, a.count st) ∧
      ∃ n, a.reserve st = .ok n ∧ a.count st ≤ n ∧ n ≤ a.count st + 37 := by
  cases a with
  | int v => exact ⟨rfl, arg_reserve (a := .int v) refines_init trivial⟩
  | shrt v => exact ⟨rfl, arg_reserve (a := .shrt v) refines_init trivial⟩
  | chr c => exact ⟨rfl, 1, rfl, le_rfl, Nat.le_add_right _ _⟩
  | uint v => exact ⟨rfl, arg_reserve (a := .uint v) refines_init trivial⟩
  | ushrt v => exact ⟨rfl, arg_reserve (a := .ushrt v) refines_init trivial⟩
  | lng v => exact ⟨rfl, arg_reserve (a := .lng v) refines_init trivial⟩
  | ulng v => exact ⟨rfl, arg_reserve (a := .ulng v) refines_init trivial⟩
  | llng v => exact ⟨rfl, arg_reserve (a := .llng v) refines_init trivial⟩
  | ullng v => exact ⟨rfl, arg_reserve (a := .ullng v) refines_init trivial⟩
  | str b =>
      refine ⟨?_, arg_reserve (a := .str b) refines_init ha⟩
      rw [Arg.print, Native.block, (holds_beforeZero ha).stringAt_eq]
      rfl
  | sr j =>
      obtain ⟨t, ht⟩ := Option.isSome_iff_exists.mp ha
      obtain ⟨sr, hsr, hstring⟩ := Option.bind_eq_some_iff.mp ht
      have hlen : st.len j = sr.len := by rw [Store.len, hsr]; rfl
      rw [Arg.print, Arg.reserve, Arg.output, Store.shown, Arg.count, hsr, hlen, ht]
      refine ⟨?_, sr.len, rfl, le_rfl, Nat.le_add_right _ _⟩
      change (if sr.len = 0 then pure ([], 0)
        else defined (stringAt sr.val) >>= fun t => pure (t, sr.len)) =
          Except.ok (if sr.len = 0 then [] else t, sr.len)
      rw [hstring]
      split
      next hzero =>
        rw [hzero]
        rfl
      next => rfl
  | dbl bits => exact ⟨rfl, _, rfl, le_rfl, Nat.le_add_right _ _⟩

theorem print_update (ha : a ≠ .sr i) : a.print (Function.update st i o) = a.print st := by
  cases a with
  | sr j =>
      have hj : j ≠ i := fun heq => ha (heq ▸ rfl)
      rw [Arg.print, Arg.print, Function.update_of_ne hj]
  | _ => rfl

theorem args_output (hargs : ∀ a ∈ args, a.Terminated st) (hi : .sr i ∉ args) :
    args.mapM (Arg.print (Function.update st i o)) =
      .ok (args.map fun a => (a.output st, a.count st)) := by
  refine mapM_ok fun a ha => ?_
  have hne : a ≠ .sr i := fun heq => hi (heq ▸ ha)
  rw [print_update hne]
  exact (arg_passes (hargs a ha)).1

/-- The format takes at least six bytes for an argument. -/
theorem length_le_of_format (args : List Arg) :
    args.length * 6 ≤ (args.map fun a => a.format.utf8ByteSize).sum := by
  induction args with
  | nil => exact Nat.zero_le _
  | cons a args ih =>
      have ha : 6 ≤ a.format.utf8ByteSize := by cases a <;> exact Nat.le_of_ble_eq_true rfl
      rw [List.map_cons, List.sum_cons, List.length_cons]
      omega

/-- Only the lengths of managed strings are not those of what is printed. -/
theorem count_add_shown (st : Store) (args : List Arg) :
    (args.map (Arg.count st)).sum +
        ((args.filterMap Arg.managed).map fun j => (st.shown j).length).sum =
      (args.flatMap (Arg.output st)).length + ((args.filterMap Arg.managed).map st.len).sum := by
  induction args with
  | nil => rfl
  | cons a args ih =>
      rw [List.map_cons, List.sum_cons, List.flatMap_cons, List.length_append]
      cases a with
      | sr j =>
          have hmanaged : (Arg.sr j :: args).filterMap Arg.managed =
              j :: args.filterMap Arg.managed := rfl
          rw [hmanaged, List.map_cons, List.map_cons, List.sum_cons, List.sum_cons]
          change st.len j + _ + _ = (st.shown j).length + _ + _
          omega
      | _ =>
          rw [List.filterMap_cons_none rfl, Nat.add_assoc, ih, ← Nat.add_assoc]
          rfl

theorem Refines.length_shown {A : Texts} (h : Refines st A) (j : Nat) :
    (st.shown j).length = st.len j := by
  unfold Store.shown Store.len
  rw [h.contents_eq]
  cases hsr : st j with
  | none => rfl
  | some sr =>
      obtain ⟨t, ht, hrep⟩ := h.represents hsr
      rw [ht]
      change (if sr.len = 0 then [] else t).length = sr.len
      rw [hrep.len]
      split
      next hzero => exact hzero.symm
      next => rfl

end

namespace Concat

variable (c : Concat)

/-- The bytes that `vsprintf` counts. -/
def count : Nat := (c.args.map (Arg.count c.st)).sum

/-- The first pass, and the buffer for the second. -/
structure Grown (ns : List Nat) (grown : Sr) : Prop where
  reserved : c.args.mapM (Arg.reserve c.st) = .ok ns
  enough : c.count ≤ ns.sum
  close : ns.sum ≤ c.count + 777
  ensured : srEnsureSize c.granted c.dest (word (c.dest.len + word ns.sum + 1)) extend = .ok grown
  len : grown.len = c.dest.len
  size : grown.val.length = grown.size
  minsize : word (c.dest.len + word ns.sum + 1) ≤ grown.size
  bounded : grown.size ≤ ptrdiffMax

theorem exists_grown : ∃ ns grown, c.Grown ns grown := by
  obtain ⟨ns, hns, hlo, hhi⟩ := reserve_sum fun a ha => (arg_passes (c.terminated a ha)).2
  obtain ⟨grown, hgrown, hlen, hsize, hmin, hbounded, -⟩ :=
    (srEnsureSize_grows c.granted c.size c.bounded _ _).resolve_left (c.returns ns hns)
  have hclose : ns.sum ≤ c.count + 777 := by
    -- there are 21 arguments at most
    have hfew := length_le_of_format c.args
    have hfits := c.fits
    unfold count
    omega
  exact ⟨ns, grown, hns, hlo, hclose, hgrown, hlen, hsize, hmin, hbounded⟩

variable {c} {ns : List Nat} {grown : Sr}

theorem Grown.call_eq (h : c.Grown ns grown) :
    srConcat c.granted c.st c.i c.args =
      if intMax < c.count then
        let val := grown.val.take grown.len ++ alloc (grown.size - grown.len)
        .ok (Function.update c.st c.i (some ⟨val, grown.size, word (grown.len + sizeMax)⟩))
      else
        defined (write grown.val grown.len (c.output ++ [0])) >>= fun val =>
          .ok (Function.update c.st c.i (some ⟨val, grown.size, word (grown.len + c.count)⟩)) := by
  have hprints := args_output (o := some grown) c.terminated c.others
  have hcount : ((c.args.map fun a => (a.output c.st, a.count c.st)).map (·.2)).sum = c.count := by
    rw [List.map_map]
    rfl
  have hbytes : (c.args.map fun a => (a.output c.st, a.count c.st)).flatMap (·.1) = c.output :=
    List.flatMap_map _ _ _
  have hother : ¬ (.sr c.i ∈ c.args ∧ grown.len ≠ 0) := fun hmem => c.others hmem.1
  rw [← hcount, ← hbytes]
  simp only [srConcat, c.found, h.reserved, defined, bind, Except.bind, h.ensured, if_neg hother,
    hprints]
  rfl

/-- With `vsprintf`'s -1 the length is never right. -/
theorem Grown.not_budget (h : c.Grown ns grown) (hcount : intMax < c.count) : ¬ c.Budget := by
  rintro ⟨-, st, dest, hcall, hdest, -, hroom, -, hlen⟩
  rw [h.call_eq, if_pos hcount] at hcall
  obtain rfl := Except.ok.inj hcall
  rw [Function.update_self] at hdest
  obtain rfl := Option.some.inj hdest
  have hbounded := h.bounded
  have hstart := h.len
  dsimp only at hroom hlen
  unfold word sizeMax at hlen
  unfold ptrdiffMax at hbounded
  omega

theorem Grown.budget_iff_count (h : c.Grown ns grown) (hcount : c.count ≤ intMax) :
    c.Budget ↔ c.count = c.output.length := by
  have hdest : c.dest.len < ptrdiffMax := c.room.trans_le c.bounded
  have hcall := h.call_eq
  rw [if_neg (Nat.not_lt.mpr hcount)] at hcall
  have henough := h.enough
  have hclose := h.close
  have hmin := h.minsize
  have hlen := h.len
  unfold intMax at hcount
  unfold ptrdiffMax at hdest
  have hsum : word ns.sum = ns.sum := word_of_lt (by omega)
  have hword : word (grown.len + c.count) = c.dest.len + c.count := by
    rw [hlen]
    exact word_of_lt (by omega)
  rw [hsum, word_of_lt (by omega)] at hmin
  rw [hword] at hcall
  constructor
  · rintro ⟨-, st, dest, hst, hdest, -, -, -, hcounted⟩
    rw [hst] at hcall
    cases hwrite : write grown.val grown.len (c.output ++ [0]) with
    | none =>
        rw [hwrite] at hcall
        cases hcall
    | some val =>
        rw [hwrite] at hcall
        obtain rfl := Except.ok.inj hcall
        rw [Function.update_self] at hdest
        obtain rfl := Option.some.inj hdest
        exact Nat.add_left_cancel hcounted
  · intro hcounted
    have hroom : grown.len + (c.output ++ [0]).length ≤ grown.val.length := by
      rw [List.length_append, List.length_singleton, h.size]
      omega
    obtain ⟨val, hwrite, hlength, hbytes⟩ := write_drop hroom
    rw [hwrite] at hcall
    rw [hlen] at hbytes
    refine ⟨⟨ns, h.reserved, ?_⟩, _, _, hcall, Function.update_self .., hlength.trans h.size, ?_,
      hbytes, ?_⟩
    · rw [hsum]
      omega
    · dsimp only
      omega
    · rw [hcounted]

theorem managed_of_refines {A : Texts} (h : Refines c.st A) :
    (c.managed.map c.st.len).sum = (c.managed.map fun j => (c.st.shown j).length).sum := by
  rw [funext h.length_shown]

/-- A string of `n` bytes. -/
def letters (n : Nat) (h : n < ptrdiffMax) : Native where
  bytes := List.replicate n 97 ++ [0]
  bounded := by
    rw [List.length_append, List.length_replicate]
    exact h

theorem letters_text (n : Nat) (h : n < ptrdiffMax) :
    beforeZero (letters n h).bytes = List.replicate n 97 := by
  unfold beforeZero letters
  rw [List.takeWhile_append_of_pos, List.takeWhile_cons_of_neg (by decide), List.append_nil]
  intro c hc
  rw [List.eq_of_mem_replicate hc]
  decide

/-- What `sr_new` makes of an empty text. -/
def emptySr : Sr where
  val := some 0 :: alloc 63
  size := 64
  len := 0

theorem letters_reserve {st : Store} {n : Nat} (h : n < ptrdiffMax) :
    [Arg.str (letters n h)].mapM (Arg.reserve st) = .ok [n] := by
  have hzero : 0 ∈ (letters n h).bytes := List.mem_append_right _ (List.mem_singleton_self 0)
  have hstring := (holds_beforeZero hzero).stringAt_eq
  rw [letters_text] at hstring
  rw [List.mapM_cons, Arg.reserve, Native.block, hstring, defined]
  change Except.ok [(List.replicate n (97 : UInt8)).length] = _
  rw [List.length_replicate]

/-- `CONCAT` of an empty string and `n` bytes. -/
def appendLetters (n : Nat) (h : n < ptrdiffMax) : Concat where
  st := Function.update init 0 (some emptySr)
  i := 0
  dest := emptySr
  found := Function.update_self ..
  size := rfl
  room := by decide
  bounded := by decide
  args := [.str (letters n h)]
  fits := Nat.le_of_ble_eq_true rfl
  terminated := by
    intro a ha
    rw [List.mem_singleton.mp ha]
    exact List.mem_append_right _ (List.mem_singleton_self 0)
  others := by
    intro hmem
    cases List.mem_singleton.mp hmem
  granted := true
  returns := by
    intro ns hns
    rw [letters_reserve] at hns
    obtain rfl := Except.ok.inj hns
    have hword : word (emptySr.len + word [n].sum + 1) = n + 1 := by
      unfold ptrdiffMax at h
      rw [List.sum_singleton, word_of_lt (by omega : n < 2 ^ 64), emptySr, Nat.zero_add]
      exact word_of_lt (by omega)
    rw [hword, srEnsureSize]
    split
    next hgrow =>
      have hmax : (if n + 1 < word (emptySr.size + extend) then word (emptySr.size + extend)
          else n + 1) ≤ ptrdiffMax := by
        split
        · decide
        · exact h
      dsimp only
      rw [allocate, if_pos ⟨rfl, hmax⟩]
      exact nofun
    next => exact nofun

theorem appendLetters_count (n : Nat) (h : n < ptrdiffMax) : (appendLetters n h).count = n := by
  change (beforeZero (letters n h).bytes).length + 0 = n
  rw [letters_text, List.length_replicate, Nat.add_zero]

theorem appendLetters_fails {n : Nat} (h : n < ptrdiffMax) (hn : intMax < n) :
    (∃ st dest, srConcat true (Function.update init 0 (some emptySr)) 0
        [.str (letters n h)] = .ok st ∧ st 0 = some dest ∧ dest.len = sizeMax) ∧
      ¬ (appendLetters n h).Budget := by
  obtain ⟨ns, grown, hgrown⟩ := (appendLetters n h).exists_grown
  have hcount : intMax < (appendLetters n h).count := by rwa [appendLetters_count]
  have hcall := hgrown.call_eq
  rw [if_pos hcount] at hcall
  refine ⟨⟨_, _, hcall, Function.update_self .., ?_⟩, hgrown.not_budget hcount⟩
  change word (grown.len + sizeMax) = sizeMax
  rw [hgrown.len]
  change word (0 + sizeMax) = sizeMax
  rw [Nat.zero_add]
  exact word_of_lt (by decide)

end Concat

end FlightRec.Stingray
