/-
# `FlightRec.Stingray.Refinement` — managed strings and the texts in them

What managed strings are for: a variable has a text (`Texts`), and a call copies,
appends or formats texts (`Op.apply`).  A store refines texts if each managed string
represents its text: `strlen` finds it, the length is the stored one and is less than
the size (`Represents`).

| condition on a call (`Meets`)                    | without it                        |
|--------------------------------------------------|-----------------------------------|
| no terminator before a limit of a native source  | the length is the limit           |
| no `'\0'` among the arguments of `CONCAT`        | the length counts it              |
| at most `INT_MAX` bytes for `CONCAT`             | the length shrinks by one         |
| the string itself is a source only if it is not  | a buffer is copied to itself, or  |
| moved or overwritten                             | read after it was moved           |

The other conditions are those of the functions of C: strings exist and are terminated,
and limits are within memory.  Under all of them each call keeps the refinement, or the
program ends because memory is not granted (`step_gives`), and so do all calls of a
program (`run_sound`).
-/
import FlightRec.Stingray.Strings

namespace FlightRec.Stingray

open CString Printf

/-! ## Texts -/

/-- The texts of the managed strings. -/
abbrev Texts := Nat → Option (List UInt8)

/-- What a source has for a bounded copy. -/
def Source.text (texts : Texts) (max : Nat) : Source → List UInt8
  | .native s => beforeZero (s.bytes.take max)
  | .managed i => ((texts i).getD []).take max

/-- What an argument is printed as. -/
def Arg.text (texts : Texts) : Arg → List UInt8
  | .int v => signed v.toInt
  | .shrt v => signed v.toInt
  | .chr c => beforeZero [c]
  | .uint v => unsigned v.toNat
  | .ushrt v => unsigned v.toNat
  | .lng v => signed v.toInt
  | .ulng v => unsigned v.toNat
  | .llng v => signed v.toInt
  | .ullng v => unsigned v.toNat
  | .str s => beforeZero s.bytes
  | .sr i => (texts i).getD []
  | .dbl bits => fixed (ieee 11 52 bits.toNat)

/-- The texts after a call. -/
def Op.apply (texts : Texts) : Op → Texts
  | .new i initval _ => Function.update texts i (some (beforeZero initval.bytes))
  | .copy i source max => Function.update texts i (some (source.text texts max.toNat))
  | .cat i source max =>
      Function.update texts i (some ((texts i).getD [] ++ source.text texts max.toNat))
  | .concat i args _ =>
      Function.update texts i (some ((texts i).getD [] ++ args.flatMap (Arg.text texts)))
  | .ensureSize _ _ _ => texts

/-- The texts after all calls. -/
def texts (calls : List Call) : Texts := calls.foldl (fun A c => c.op.apply A) fun _ => none

/-! ## The refinement -/

/-- A managed string with a text. -/
structure Represents (sr : Sr) (s : List UInt8) : Prop where
  string : stringAt sr.val = some s
  len : sr.len = s.length
  room : sr.len < sr.size
  size : sr.val.length = sr.size
  bounded : sr.size ≤ ptrdiffMax

/-- The managed strings, by their texts. -/
def Refines (st : Store) (A : Texts) : Prop := ∀ i, Option.Rel Represents (st i) (A i)

/-- The texts in the buffers. -/
def contents (st : Store) : Texts := fun i => (st i).bind fun sr => stringAt sr.val

/-- A source can be read, and has no terminator before the limit. -/
def Source.Readable (A : Texts) (max : Nat) : Source → Prop
  | .native s =>
      if max = sizeMax then 0 ∈ s.bytes else max ≤ s.bytes.length ∧ 0 ∉ s.bytes.take max
  | .managed i => (A i).isSome

/-- An argument can be read, and is no terminator. -/
def Arg.Readable (A : Texts) : Arg → Prop
  | .chr c => c ≠ 0
  | .str s => 0 ∈ s.bytes
  | .sr i => (A i).isSome
  | _ => True

/-- What a call needs. -/
def Meets (st : Store) : Op → Prop
  | .new _ initval _ => 0 ∈ initval.bytes
  | .copy i source max => ∃ dest, st i = some dest ∧
      source.Readable (contents st) max.toNat ∧
      (source = .managed i → dest.len = 0 ∨ max = 0)
  | .cat i source max => ∃ dest, st i = some dest ∧
      source.Readable (contents st) max.toNat ∧
      (source = .managed i → dest.len + min max.toNat dest.len < dest.size)
  | .concat i args _ => ∃ dest, st i = some dest ∧
      (∀ a ∈ args, a.Readable (contents st)) ∧
      (args.flatMap (Arg.text (contents st))).length ≤ intMax ∧
      (.sr i ∈ args → dest.len = 0)
  | .ensureSize i _ _ => (st i).isSome

/-- All calls have what they need when they are made. -/
def Met : Store → List Call → Prop
  | _, [] => True
  | st, c :: calls => Meets st c.op ∧ ∀ st', step st c = .ok st' → Met st' calls

/-! ## Results -/

section
variable {α β : Type} {P : α → Prop} {Q : β → Prop} {r : Result α} {f : α → Result β}

/-- The program ends, or there is such a result. -/
def Gives (P : α → Prop) (r : Result α) : Prop := r = .error .exited ∨ ∃ a, r = .ok a ∧ P a

theorem gives_ok {a : α} (h : P a) : Gives P (.ok a) := .inr ⟨a, rfl, h⟩

theorem Gives.bind (hr : Gives P r) (hf : ∀ a, P a → Gives Q (f a)) : Gives Q (r >>= f) := by
  rcases hr with rfl | ⟨a, rfl, ha⟩
  · exact .inl rfl
  · exact hf a ha

theorem Gives.imp {P' : α → Prop} (hr : Gives P r) (himp : ∀ a, P a → P' a) : Gives P' r := by
  rcases hr with rfl | ⟨a, rfl, ha⟩
  · exact .inl rfl
  · exact gives_ok (himp a ha)

theorem gives_bind_ok {a : α} (hr : r = .ok a) (hf : Gives Q (f a)) : Gives Q (r >>= f) := by
  rw [hr]
  exact hf

theorem gives_defined {o : Option α} {a : α} (ho : o = some a) (hf : Gives Q (f a)) :
    Gives Q (defined o >>= f) := by
  rw [ho]
  exact hf

theorem mapM_ok {γ : Type} {f : γ → Result α} {g : γ → α} {l : List γ}
    (h : ∀ c ∈ l, f c = .ok (g c)) : l.mapM f = .ok (l.map g) := by
  induction l with
  | nil => rfl
  | cons c l ih =>
      rw [List.mapM_cons, h c List.mem_cons_self, ih fun d hd => h d (List.mem_cons_of_mem _ hd)]
      rfl

theorem gives_allocate {granted : Bool} {size : Nat} {f : Unit → Result β}
    (hf : size ≤ ptrdiffMax → Gives Q (f ())) : Gives Q (allocate granted size >>= f) := by
  unfold allocate
  split
  next h => exact hf h.2
  next => exact .inl rfl

end

/-! ## Managed strings and their buffers -/

section
variable {sr : Sr} {s t : List UInt8} {val : Block} {size len : Nat}

theorem represents_of_holds (h : Holds val s) (hlen : len = s.length) (hsize : val.length = size)
    (hbounded : size ≤ ptrdiffMax) : Represents ⟨val, size, len⟩ s := by
  have hroom := h.length_lt
  rw [hsize, ← hlen] at hroom
  exact ⟨h.stringAt_eq, hlen, hroom, hsize, hbounded⟩

theorem Represents.holds (h : Represents sr s) : Holds sr.val s := stringAt_eq_some.mp h.string

theorem Represents.plain_append (h : Represents sr s) (ht : 0 ∉ t) : 0 ∉ s ++ t := by
  intro hzero
  exact (List.mem_append.mp hzero).elim h.holds.plain ht

theorem Represents.length_lt (h : Represents sr s) : s.length < ptrdiffMax := by
  rw [← h.len]
  exact h.room.trans_le h.bounded

/-- **`sr_new`** -/
theorem srNew_gives (granted : Bool) {initval : Native} (h : 0 ∈ initval.bytes) (initsize : Nat) :
    Gives (Represents · (beforeZero initval.bytes)) (srNew granted initval initsize) := by
  have hplain := zero_not_mem_beforeZero initval.bytes
  refine gives_defined (holds_beforeZero h).stringAt_eq (gives_allocate fun hbounded => ?_)
  generalize beforeZero initval.bytes = s at hplain hbounded ⊢
  generalize hfirst : (if initsize ≤ s.length then s.length + 1 else initsize) = first
    at hbounded ⊢
  generalize hsize : (if first < extend then extend else first) = size at hbounded ⊢
  have hroom : s.length < size := by
    subst hfirst hsize
    split <;> split <;> omega
  have hstart : ([] : List UInt8).map some <+: alloc size := List.nil_prefix
  obtain ⟨val, hwrite, hlength, hval⟩ := write_string hstart hplain (by simpa using hroom)
  rw [length_alloc] at hlength
  exact gives_defined hwrite (gives_ok (represents_of_holds hval rfl hlength hbounded))

theorem srEnsureSize_grows (granted : Bool) (hsize : sr.val.length = sr.size)
    (hbounded : sr.size ≤ ptrdiffMax) (minsize extend : Nat) :
    Gives (fun grown => grown.len = sr.len ∧ grown.val.length = grown.size ∧
        minsize ≤ grown.size ∧ grown.size ≤ ptrdiffMax ∧
        ∀ start, start <+: sr.val → start <+: grown.val)
      (srEnsureSize granted sr minsize extend) := by
  unfold srEnsureSize
  split
  next hgrow =>
    refine gives_allocate fun hbounded => ?_
    generalize hnew : (if minsize < word (sr.size + extend) then word (sr.size + extend)
      else minsize) = size at hbounded ⊢
    have hmin : minsize ≤ size := by
      subst hnew
      split <;> omega
    have hle : sr.val.length ≤ size := by
      rw [hsize]
      omega
    exact gives_ok ⟨rfl, length_realloc hle, hmin, hbounded,
      fun start hstart => realloc_prefix hstart hle⟩
  next hroom =>
    exact gives_ok ⟨rfl, hsize, Nat.not_lt.mp hroom, hbounded, fun start hstart => hstart⟩

/-- **`sr_ensure_size`**: the text is kept, in the same buffer if there is room. -/
theorem srEnsureSize_gives (granted : Bool) (h : Represents sr s) (minsize extend : Nat) :
    Gives (fun sr' => Represents sr' s ∧ minsize ≤ sr'.size ∧ sr'.len = sr.len)
      (srEnsureSize granted sr minsize extend) := by
  refine (srEnsureSize_grows granted h.size h.bounded minsize extend).imp ?_
  rintro grown ⟨hlen, hsize, hmin, hbounded, hkeeps⟩
  have hholds : Holds grown.val s := ⟨h.holds.plain, hkeeps _ h.holds.start⟩
  exact ⟨represents_of_holds hholds (hlen.trans h.len) hsize hbounded, hmin, hlen⟩

end

/-! ## Stores and texts -/

section
variable {st : Store} {A : Texts} {i : Nat} {sr : Sr} {s : List UInt8}

theorem refines_init : Refines init fun _ => none := fun _ => .none

theorem rel_some_left {t : Option (List UInt8)} (h : Option.Rel Represents (some sr) t) :
    ∃ s, t = some s ∧ Represents sr s := by
  cases h with
  | some hs => exact ⟨_, rfl, hs⟩

theorem rel_some_right {o : Option Sr} (h : Option.Rel Represents o (some s)) :
    ∃ sr, o = some sr ∧ Represents sr s := by
  cases h with
  | some hs => exact ⟨_, rfl, hs⟩

theorem contents_of_rel {o : Option Sr} {t : Option (List UInt8)} (h : Option.Rel Represents o t) :
    (o.bind fun sr => stringAt sr.val) = t := by
  cases h with
  | none => rfl
  | some hs => exact hs.string

theorem Refines.represents (h : Refines st A) (hi : st i = some sr) :
    ∃ s, A i = some s ∧ Represents sr s := by
  have hrel := h i
  rw [hi] at hrel
  exact rel_some_left hrel

theorem Refines.represented (h : Refines st A) (hi : A i = some s) :
    ∃ sr, st i = some sr ∧ Represents sr s := by
  have hrel := h i
  rw [hi] at hrel
  exact rel_some_right hrel

theorem Refines.contents_eq (h : Refines st A) : contents st = A :=
  funext fun i => contents_of_rel (h i)

theorem Refines.update (h : Refines st A) (hs : Represents sr s) (i : Nat) :
    Refines (Function.update st i (some sr)) (Function.update A i (some s)) := by
  intro j
  rcases eq_or_ne j i with rfl | hj
  · rw [Function.update_self, Function.update_self]
    exact .some hs
  · rw [Function.update_of_ne hj, Function.update_of_ne hj]
    exact h j

theorem Refines.grow (h : Refines st A) (hi : A i = some s) (hs : Represents sr s) :
    Refines (Function.update st i (some sr)) A := by
  have hupdate := h.update hs i
  rwa [← hi, Function.update_eq_self] at hupdate

theorem native_read {b : Native} {max : Nat} (hr : Source.Readable A max (.native b)) :
    Source.read st max (.native b) = .ok (b.block, (Source.text A max (.native b)).length) ∧
      (Source.text A max (.native b)).map some <+: b.block := by
  rw [Source.Readable] at hr
  split at hr
  next hmax =>
    have hall : b.bytes.take max = b.bytes := by
      refine List.take_of_length_le (b.bounded.trans ?_)
      rw [hmax]
      decide
    have hholds := holds_beforeZero hr
    rw [Source.read, if_pos hmax, Source.text, hall, Native.block, hholds.stringAt_eq]
    exact ⟨rfl, hholds.string⟩
  next hmax =>
    have htake : (b.bytes.take max).length = max := by
      rw [List.length_take, Nat.min_eq_left hr.1]
    rw [Source.read, if_neg hmax, Source.text, beforeZero_of_plain hr.2, htake]
    exact ⟨rfl, (List.take_prefix _ _).map _⟩

theorem source_read (h : Refines st A) {source : Source} {max : Nat}
    (hr : source.Readable A max) :
    ∃ src, source.read st max = .ok (src, (source.text A max).length) ∧
      strncpyBytes src (source.text A max).length = some (source.text A max) ∧
      0 ∉ source.text A max ∧ (source.text A max).length ≤ ptrdiffMax := by
  cases source with
  | native b =>
      obtain ⟨hread, hstart⟩ := native_read hr
      have hplain : 0 ∉ Source.text A max (.native b) := zero_not_mem_beforeZero _
      have hlength := (length_beforeZero_le (b.bytes.take max)).trans
        ((List.length_take_le' _ _).trans b.bounded)
      exact ⟨b.block, hread, strncpyBytes_prefix hplain hstart, hplain, hlength⟩
  | managed j =>
      obtain ⟨s, hs⟩ := Option.isSome_iff_exists.mp hr
      obtain ⟨sr, hsr, hrep⟩ := h.represented hs
      have htext : Source.text A max (.managed j) = s.take max := by rw [Source.text, hs]; rfl
      have hplain : 0 ∉ s.take max := fun hzero => hrep.holds.plain (List.mem_of_mem_take hzero)
      have hstart : (s.take max).map some <+: sr.val :=
        ((List.take_prefix _ _).map _).trans hrep.holds.string
      have hlen : (s.take max).length = if max < sr.len then max else sr.len := by
        rw [List.length_take, hrep.len]
        split <;> omega
      rw [htext]
      refine ⟨sr.val, ?_, strncpyBytes_prefix hplain hstart, hplain, ?_⟩
      · rw [hlen, Source.read, hsr]
        rfl
      · exact (List.length_take_le' _ _).trans hrep.length_lt.le

/-! ## Arguments of `CONCAT` -/

section
variable {w n : Nat} (v : BitVec w)

theorem length_signed_toInt (hw : 2 ^ w < 2 * 10 ^ (n - 1)) (hn : 1 < n) :
    (signed v.toInt).length ≤ n := by
  have hlo := v.le_two_mul_toInt
  have hhi := v.two_mul_toInt_lt
  have hcast : ((2 ^ w : Nat) : Int) = 2 ^ w := by
    push_cast
    rfl
  rw [← hcast] at hlo hhi
  have hlength : (signed v.toInt).length ≤ n - 1 + 1 := length_signed_le (by omega) (by omega)
  omega

theorem length_unsigned_toNat (hw : 2 ^ w ≤ 10 ^ n) (hn : 0 < n) :
    (unsigned v.toNat).length ≤ n :=
  (length_unsigned_le_iff hn).mpr (v.isLt.trans_le hw)

end

theorem arg_print (h : Refines st A) {a : Arg} (ha : a.Readable A) :
    a.print st = .ok (counted (a.text A)) ∧ 0 ∉ a.text A := by
  cases a with
  | int v => exact ⟨rfl, zero_not_mem_signed _⟩
  | shrt v => exact ⟨rfl, zero_not_mem_signed _⟩
  | chr c =>
      have hplain : 0 ∉ [c] := fun hzero => ha (List.mem_singleton.mp hzero).symm
      rw [Arg.text, beforeZero_of_plain hplain]
      exact ⟨rfl, hplain⟩
  | uint v => exact ⟨rfl, zero_not_mem_unsigned _⟩
  | ushrt v => exact ⟨rfl, zero_not_mem_unsigned _⟩
  | lng v => exact ⟨rfl, zero_not_mem_signed _⟩
  | ulng v => exact ⟨rfl, zero_not_mem_unsigned _⟩
  | llng v => exact ⟨rfl, zero_not_mem_signed _⟩
  | ullng v => exact ⟨rfl, zero_not_mem_unsigned _⟩
  | str b =>
      rw [Arg.print, Native.block, (holds_beforeZero ha).stringAt_eq]
      exact ⟨rfl, zero_not_mem_beforeZero _⟩
  | sr j =>
      obtain ⟨t, ht⟩ := Option.isSome_iff_exists.mp ha
      obtain ⟨sr, hsr, hrep⟩ := h.represented ht
      rw [Arg.print, Arg.text, ht, hsr]
      refine ⟨?_, hrep.holds.plain⟩
      change (if sr.len = 0 then pure ([], 0)
        else defined (stringAt sr.val) >>= fun t => pure (t, sr.len)) = .ok (counted t)
      rw [hrep.string, hrep.len]
      split
      next hzero =>
        rw [List.eq_nil_of_length_eq_zero hzero]
        rfl
      next => rfl
  | dbl bits => exact ⟨rfl, zero_not_mem_fixed _⟩

/-- The memory for an argument is enough, and at most 37 bytes more. -/
theorem arg_reserve (h : Refines st A) {a : Arg} (ha : a.Readable A) :
    ∃ n, a.reserve st = .ok n ∧ (a.text A).length ≤ n ∧ n ≤ (a.text A).length + 37 := by
  have hsmall : ∀ {n : Nat}, n ≤ 37 → n ≤ (a.text A).length + 37 := Nat.le_add_left_of_le
  cases a with
  | int v => exact ⟨_, rfl, length_signed_toInt v (by decide) (by decide), hsmall (by decide)⟩
  | shrt v => exact ⟨_, rfl, length_signed_toInt v (by decide) (by decide), hsmall (by decide)⟩
  | chr c => exact ⟨1, rfl, length_beforeZero_le _, hsmall (by decide)⟩
  | uint v => exact ⟨_, rfl, length_unsigned_toNat v (by decide) (by decide), hsmall (by decide)⟩
  | ushrt v => exact ⟨_, rfl, length_unsigned_toNat v (by decide) (by decide), hsmall (by decide)⟩
  | lng v => exact ⟨_, rfl, length_signed_toInt v (by decide) (by decide), hsmall (by decide)⟩
  | ulng v => exact ⟨_, rfl, length_unsigned_toNat v (by decide) (by decide), hsmall (by decide)⟩
  | llng v => exact ⟨_, rfl, length_signed_toInt v (by decide) (by decide), hsmall (by decide)⟩
  | ullng v => exact ⟨_, rfl, length_unsigned_toNat v (by decide) (by decide), hsmall (by decide)⟩
  | str b =>
      rw [Arg.reserve, Native.block, (holds_beforeZero ha).stringAt_eq]
      exact ⟨_, rfl, le_rfl, Nat.le_add_right _ _⟩
  | sr j =>
      obtain ⟨t, ht⟩ := Option.isSome_iff_exists.mp ha
      obtain ⟨sr, hsr, hrep⟩ := h.represented ht
      rw [Arg.reserve, Arg.text, ht, hsr]
      exact ⟨sr.len, rfl, hrep.len.ge, hrep.len.le.trans (Nat.le_add_right _ _)⟩
  | dbl bits => exact ⟨_, rfl, le_rfl, Nat.le_add_right _ _⟩

theorem reserve_sum {cost : Arg → Nat} {args : List Arg}
    (h : ∀ a ∈ args, ∃ n, a.reserve st = .ok n ∧ cost a ≤ n ∧ n ≤ cost a + 37) :
    ∃ ns, args.mapM (Arg.reserve st) = .ok ns ∧ (args.map cost).sum ≤ ns.sum ∧
      ns.sum ≤ (args.map cost).sum + args.length * 37 := by
  induction args with
  | nil => exact ⟨[], rfl, le_rfl, Nat.zero_le _⟩
  | cons a args ih =>
      obtain ⟨n, hn, hlo, hhi⟩ := h a List.mem_cons_self
      obtain ⟨ns, hns, hlo', hhi'⟩ := ih fun b hb => h b (List.mem_cons_of_mem _ hb)
      refine ⟨n :: ns, ?_, ?_, ?_⟩
      · rw [List.mapM_cons, hn, hns]
        rfl
      · rw [List.map_cons, List.sum_cons, List.sum_cons]
        exact Nat.add_le_add hlo hlo'
      · rw [List.map_cons, List.sum_cons, List.sum_cons, List.length_cons]
        omega

theorem args_reserve (h : Refines st A) {args : List Arg} (hargs : ∀ a ∈ args, a.Readable A) :
    ∃ ns, args.mapM (Arg.reserve st) = .ok ns ∧
      (args.flatMap (Arg.text A)).length ≤ ns.sum ∧
      ns.sum ≤ (args.flatMap (Arg.text A)).length + args.length * 37 := by
  rw [List.length_flatMap]
  exact reserve_sum fun a ha => arg_reserve h (hargs a ha)

theorem args_print (h : Refines st A) {args : List Arg} (hargs : ∀ a ∈ args, a.Readable A) :
    args.mapM (Arg.print st) = .ok (args.map fun a => counted (a.text A)) ∧
      0 ∉ args.flatMap (Arg.text A) := by
  refine ⟨mapM_ok fun a ha => (arg_print h (hargs a ha)).1, ?_⟩
  intro hzero
  obtain ⟨a, ha, hzero⟩ := List.mem_flatMap.mp hzero
  exact (arg_print h (hargs a ha)).2 hzero

/-! ## Calls -/

theorem word_of_lt {n : Nat} (h : n < 2 ^ 64) : word n = n := Nat.mod_eq_of_lt h

variable {dest : Sr} {source : Source} {max : Nat}

/-- **`sr_copy`** -/
theorem srCopy_gives (granted : Bool) (h : Refines st A) (hdest : st i = some dest)
    (hr : source.Readable A max) (hself : source = .managed i → dest.len = 0 ∨ max = 0) :
    Gives (Refines · (Function.update A i (some (source.text A max))))
      (srCopy granted st i source max) := by
  obtain ⟨s, hA, hs⟩ := h.represents hdest
  obtain ⟨src, hread, hcopy, hplain, hle⟩ := source_read h hr
  have hother : ¬ (source = .managed i ∧ (source.text A max).length ≠ 0) := by
    rintro ⟨rfl, hlen⟩
    refine hlen ?_
    rw [Source.text, hA, Option.getD_some, List.length_take, ← hs.len]
    rcases hself rfl with hzero | hzero <;> rw [hzero]
    · exact Nat.min_zero _
    · exact Nat.zero_min _
  generalize source.text A max = t at hread hcopy hplain hle hother ⊢
  have hword : word (t.length + 1) = t.length + 1 := by
    unfold ptrdiffMax at hle
    exact word_of_lt (by omega)
  refine gives_defined hdest (gives_bind_ok hread ?_)
  refine (srEnsureSize_gives granted hs _ _).bind fun grown ⟨hgrown, hsize, _⟩ => ?_
  rw [hword, ← hgrown.size] at hsize
  have hroom : ([] : List UInt8).length + t.length < grown.val.length := by
    rw [List.length_nil, Nat.zero_add]
    exact hsize
  obtain ⟨copied, val, hwrite, hstore, hlength, hval⟩ :=
    write_store_string (s := []) List.nil_prefix hplain hroom
  rw [List.length_nil, Nat.zero_add] at hstore
  rw [if_neg hother]
  refine gives_defined hcopy (gives_defined hwrite (gives_defined hstore (gives_ok ?_)))
  exact h.update (represents_of_holds hval rfl (hlength.trans hgrown.size) hgrown.bounded) i

/-- **`sr_cat`** -/
theorem srCat_gives (granted : Bool) (h : Refines st A) (hdest : st i = some dest)
    (hr : source.Readable A max)
    (hself : source = .managed i → dest.len + min max dest.len < dest.size) :
    Gives (Refines · (Function.update A i (some ((A i).getD [] ++ source.text A max))))
      (srCat granted st i source max) := by
  obtain ⟨s, hA, hs⟩ := h.represents hdest
  obtain ⟨src, hread, hcopy, hplain, hle⟩ := source_read h hr
  have hshort := hs.length_lt
  have hmoved : ¬ (source = .managed i ∧
      dest.size < dest.len + (source.text A max).length + 1) := by
    rintro ⟨rfl, hsize⟩
    have hroom := hself rfl
    rw [Source.text, hA, Option.getD_some, List.length_take, ← hs.len] at hsize
    omega
  rw [hA, Option.getD_some]
  generalize source.text A max = t at hread hcopy hplain hle hmoved ⊢
  have hbound : dest.len + t.length + 1 < 2 ^ 64 := by
    rw [hs.len]
    unfold ptrdiffMax at hle hshort
    omega
  have hword := word_of_lt hbound
  refine gives_defined hdest (gives_bind_ok hread ?_)
  dsimp only
  rw [hword, if_neg hmoved]
  refine (srEnsureSize_gives granted hs _ _).bind fun grown ⟨hgrown, hsize, hlen⟩ => ?_
  rw [← hlen, hgrown.len, ← hgrown.size] at hsize
  obtain ⟨copied, val, hwrite, hstore, hlength, hval⟩ :=
    write_store_string hgrown.holds.string (hgrown.plain_append hplain) hsize
  have hword' : word (grown.len + t.length) = s.length + t.length := by
    rw [hlen, word_of_lt (Nat.lt_of_succ_lt hbound), hs.len]
  rw [← hgrown.len] at hwrite
  rw [← hword'] at hstore
  refine gives_defined hcopy (gives_defined hwrite (gives_defined hstore (gives_ok ?_)))
  refine h.update (represents_of_holds hval ?_ (hlength.trans hgrown.size) hgrown.bounded) i
  rw [hword', List.length_append]

/-- **`sr_concat`** -/
theorem srConcat_gives (granted : Bool) (h : Refines st A) (hdest : st i = some dest)
    {args : List Arg} (few : args.length ≤ 15) (hargs : ∀ a ∈ args, a.Readable A)
    (hcount : (args.flatMap (Arg.text A)).length ≤ intMax)
    (hself : .sr i ∈ args → dest.len = 0) :
    Gives (Refines · (Function.update A i (some ((A i).getD [] ++ args.flatMap (Arg.text A)))))
      (srConcat granted st i args) := by
  obtain ⟨s, hA, hs⟩ := h.represents hdest
  obtain ⟨ns, hns, hlo, hhi⟩ := args_reserve h hargs
  have hshort := hs.length_lt
  have hbound : dest.len + ns.sum + 1 < 2 ^ 64 := by
    rw [hs.len]
    unfold ptrdiffMax at hshort
    unfold intMax at hcount
    omega
  have hword : word ns.sum = ns.sum := word_of_lt (by omega)
  refine gives_defined hdest (gives_bind_ok hns ?_)
  dsimp only
  rw [hword, word_of_lt hbound, hA, Option.getD_some]
  refine (srEnsureSize_gives granted hs _ _).bind fun grown ⟨hgrown, hsize, hlen⟩ => ?_
  have hother : ¬ (.sr i ∈ args ∧ grown.len ≠ 0) := by
    rintro ⟨hmem, hne⟩
    exact hne (hlen.trans (hself hmem))
  obtain ⟨hprints, hplain⟩ := args_print (h.grow hA hgrown) hargs
  rw [if_neg hother]
  refine gives_bind_ok hprints ?_
  have hsum : ((args.map fun a => counted (a.text A)).map (·.2)).sum =
      (args.flatMap (Arg.text A)).length := by
    rw [List.map_map, List.length_flatMap]
    rfl
  have hbytes : (args.map fun a => counted (a.text A)).flatMap (·.1) =
      args.flatMap (Arg.text A) := List.flatMap_map _ _ _
  rw [hsum, hbytes, if_neg (Nat.not_lt.mpr hcount)]
  generalize args.flatMap (Arg.text A) = t at hlo hcount hplain ⊢
  have hroom : s.length + t.length < grown.val.length := by
    rw [hgrown.size, ← hgrown.len, hlen]
    omega
  obtain ⟨val, hwrite, hlength, hval⟩ :=
    write_string hgrown.holds.string (hgrown.plain_append hplain) hroom
  rw [← hgrown.len] at hwrite
  refine gives_defined hwrite (gives_ok ?_)
  refine h.update (represents_of_holds hval ?_ (hlength.trans hgrown.size) hgrown.bounded) i
  have hfits : grown.len + t.length < 2 ^ 64 := by
    rw [hlen]
    omega
  rw [word_of_lt hfits, hgrown.len, List.length_append]

/-! ## Runs -/

/-- **A call keeps the refinement.** -/
theorem step_gives (h : Refines st A) {c : Call} (hc : Meets st c.op) :
    Gives (Refines · (c.op.apply A)) (step st c) := by
  obtain ⟨op, granted⟩ := c
  cases op with
  | new i initval initsize =>
      exact (srNew_gives granted hc _).bind fun sr hsr => gives_ok (h.update hsr i)
  | copy i source max =>
      obtain ⟨dest, hdest, hr, hself⟩ := hc
      rw [h.contents_eq] at hr
      refine srCopy_gives granted h hdest hr fun heq => (hself heq).imp_right ?_
      rintro rfl
      rfl
  | cat i source max =>
      obtain ⟨dest, hdest, hr, hself⟩ := hc
      rw [h.contents_eq] at hr
      exact srCat_gives granted h hdest hr hself
  | concat i args few =>
      obtain ⟨dest, hdest, hargs, hcount, hself⟩ := hc
      rw [h.contents_eq] at hargs hcount
      exact srConcat_gives granted h hdest few hargs hcount hself
  | ensureSize i minsize extend =>
      obtain ⟨dest, hdest⟩ := Option.isSome_iff_exists.mp hc
      obtain ⟨s, hA, hs⟩ := h.represents hdest
      refine gives_defined hdest ?_
      exact (srEnsureSize_gives granted hs _ _).bind fun sr hsr => gives_ok (h.grow hA hsr.1)

theorem calls_give (h : Refines st A) {calls : List Call} (hcalls : Met st calls) :
    Gives (Refines · (calls.foldl (fun A c => c.op.apply A) A)) (run st calls) := by
  induction calls generalizing st A with
  | nil => exact gives_ok h
  | cons c calls ih =>
      obtain ⟨hc, hrest⟩ := hcalls
      rcases step_gives h hc with hstep | ⟨st', hstep, hst'⟩
      · refine .inl ?_
        rw [run, List.foldlM_cons, hstep]
        rfl
      · rw [run, List.foldlM_cons, hstep]
        exact ih hst' (hrest st' hstep)

end

/-- **Managed strings have the texts that C gives**, after all calls that have what they
need, unless memory is not granted. -/
theorem run_sound (calls : List Call) (h : Met init calls) :
    Gives (Refines · (texts calls)) (run init calls) :=
  calls_give refines_init h

/-- `"ab"` is appended to an empty string. -/
theorem run_sound_append :
    Gives (Refines · (texts [⟨.new 0 ⟨[0], by decide⟩ 0, true⟩,
        ⟨.cat 0 (.native ⟨[97, 98, 0], by decide⟩) (-1), true⟩]))
      (run init [⟨.new 0 ⟨[0], by decide⟩ 0, true⟩,
        ⟨.cat 0 (.native ⟨[97, 98, 0], by decide⟩) (-1), true⟩]) := by
  refine run_sound _ ⟨List.mem_singleton_self _, fun st hst => ⟨?_, fun _ _ => trivial⟩⟩
  obtain rfl := Except.ok.inj hst
  refine ⟨_, rfl, ?_, nofun⟩
  have hmax : (-1 : BitVec 64).toNat = sizeMax := rfl
  rw [Source.Readable, if_pos hmax]
  decide

/-- `"ab"` with the limit 5 has the length 5; what is appended then is lost. -/
theorem limit_loses_text : ∃ st sr,
    run init [⟨.new 0 ⟨[0], by decide⟩ 0, true⟩,
      ⟨.copy 0 (.native ⟨[97, 98, 0], by decide⟩) 5, true⟩,
      ⟨.cat 0 (.native ⟨[99, 0], by decide⟩) (-1), true⟩] = .ok st ∧
    st 0 = some sr ∧ sr.len = 6 ∧ stringAt sr.val = some [97, 98] ∧
    texts [⟨.new 0 ⟨[0], by decide⟩ 0, true⟩,
      ⟨.copy 0 (.native ⟨[97, 98, 0], by decide⟩) 5, true⟩,
      ⟨.cat 0 (.native ⟨[99, 0], by decide⟩) (-1), true⟩] 0 = some [97, 98, 99] :=
  ⟨_, _, rfl, rfl, rfl, rfl, rfl⟩

end FlightRec.Stingray
