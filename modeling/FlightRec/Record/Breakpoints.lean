/-
# `FlightRec.Record.Breakpoints` — breakpoints in the client's text

Before the client runs, `set_breakpoints` puts an `int3` on the first byte of every
statement and keeps the byte it replaced in the line cache; at a stop
`process_breakpoint` puts that byte back, lets the client execute one instruction and
sets the `int3` again (record/run.c).  Text is read and written in words of eight bytes,
so the words of near statements overlap, but only the first byte of a word is changed.

    what a word written back changes is its first byte            (`poke_setLow`)
    the text after all breakpoints are set                        (`Loaded.setUnits`)
    which bytes were kept                                         (`arm_original_iff`)
    breakpoints are transparent exactly if no address has two
    rows and every single step ends with its trap                 (`breakpoints_transparent_iff`)

A statement address that stands in two rows is patched twice, and the second row keeps
the `int3` of the first.
-/
import FlightRec.Lib.Query
import FlightRec.Lib.Words
import FlightRec.Record.Depth

namespace FlightRec

open Query

/-! ## Text -/

/-- The client's text: its bytes, where something is mapped. -/
abbrev Text := Nat → Option (BitVec 8)

/-- The one-byte breakpoint instruction. -/
def int3 : BitVec 8 := 0xCC

/-- The eight bytes from `a` on are mapped. -/
def Text.mapped (t : Text) (a : Nat) : Bool := (List.range 8).all fun i => (t (a + i)).isSome

/-- `PTRACE_PEEKDATA` -/
def Text.peek (t : Text) (a : Nat) : Option (BitVec 64) :=
  if t.mapped a then some (Word.ofBytes (fun i => (t (a + i)).getD 0) 8) else none

/-- `PTRACE_POKEDATA` -/
def Text.poke (t : Text) (a : Nat) (w : BitVec 64) : Option Text :=
  if t.mapped a then some fun b => if a ≤ b ∧ b < a + 8 then some (Word.byte w (b - a)) else t b
  else none

/-- One byte replaced. -/
def Text.set (t : Text) (a : Nat) (c : BitVec 8) : Text := Function.update t a (some c)

theorem Text.mapped_iff {t : Text} {a : Nat} :
    t.mapped a = true ↔ ∀ i < 8, ∃ c, t (a + i) = some c := by
  simp [Text.mapped, Option.isSome_iff_exists]

theorem Text.mapped_set {t : Text} {b : Nat} {c d : BitVec 8} (hb : t b = some d) (a : Nat) :
    (t.set b c).mapped a = t.mapped a := by
  rw [Bool.eq_iff_iff, Text.mapped_iff, Text.mapped_iff]
  refine forall₂_congr fun i _ => ?_
  unfold Text.set
  rcases eq_or_ne (a + i) b with heq | hne
  · rw [heq, Function.update_self, hb]
    simp
  · rw [Function.update_of_ne hne]

theorem Text.peek_byte {t : Text} {a : Nat} {w : BitVec 64} (h : t.peek a = some w) {i : Nat}
    (hi : i < 8) : t (a + i) = some (Word.byte w i) := by
  unfold Text.peek at h
  split at h
  · next hmapped =>
      obtain ⟨c, hc⟩ := Text.mapped_iff.mp hmapped i hi
      rw [← Option.some.inj h, Word.byte_ofBytes _ hi, hc]
      rfl
  · cases h

theorem Text.peek_mapped {t : Text} {a : Nat} {w : BitVec 64} (h : t.peek a = some w) :
    t.mapped a = true := by
  unfold Text.peek at h
  split at h
  · assumption
  · cases h

/-- Writing a word back with another low byte changes one byte, wherever the words of
other statements are. -/
theorem poke_setLow {t t' : Text} {a : Nat} {w : BitVec 64} (hpeek : t.peek a = some w)
    (hmapped : t'.mapped a = true) (hsame : ∀ i, 0 < i → i < 8 → t' (a + i) = t (a + i))
    (c : BitVec 8) : t'.poke a (Word.setLow w c) = some (t'.set a c) := by
  unfold Text.poke Text.set
  rw [if_pos hmapped]
  refine congrArg some (funext fun b => ?_)
  rcases Nat.lt_trichotomy b a with hlt | rfl | hgt
  · rw [if_neg (by omega), Function.update_of_ne (by omega)]
  · rw [if_pos (by omega), Nat.sub_self, Word.byte_setLow _ _ (by decide), if_pos rfl,
      Function.update_self]
  · rw [Function.update_of_ne (by omega)]
    split
    · next hin =>
        rw [Word.byte_setLow _ _ (by omega), if_neg (by omega), ← Text.peek_byte hpeek (by omega),
          ← hsame _ (by omega) (by omega), show a + (b - a) = b by omega]
    · rfl

/-! ## Setting breakpoints -/

/-- `struct cached_line` with the byte that was replaced. -/
structure ArmedLine extends CachedLine where
  orgInstrByte : BitVec 8
  deriving DecidableEq, Repr

/-- `struct cached_unit` -/
structure CachedUnit where
  start : Nat
  stop : Nat
  lineCount : Nat
  lines : List ArmedLine
  deriving DecidableEq, Repr

/-- The columns of `file` that are read here. -/
structure UnitFile where
  id : Nat
  unitId : Nat
  deriving DecidableEq, Repr

/-- `file JOIN statement`: the rows of all units. -/
def unitStatements (files : List UnitFile) (statements : List StatementRow) :
    List (Nat × StatementRow) :=
  files.flatMap fun f => (statements.filter fun st => st.fileId = f.id).map fun st => (f.unitId, st)

/-- The rows of a unit, `ORDER BY address`; a `NULL` column is fetched as 0. -/
def unitLines (rows : List (Nat × StatementRow)) (unit : Nat) : List CachedLine :=
  (orderBy (fun r => r.2.address) (rows.filter fun r => r.1 = unit)).map fun r =>
    { address := r.2.address, funcId := r.2.functionId.getD 0, funcFlag := r.2.funcFlag.getD 0 }

/-- The units that have rows, `ORDER BY start`. -/
def unitIds (rows : List (Nat × StatementRow)) : List Nat :=
  orderBy (fun unit => ((unitLines rows unit).map (·.address)).min?.getD 0)
    (rows.map Prod.fst).dedup

/-- The client's text, and `base_address`. -/
structure Patching where
  text : Text
  base : Nat

/-- Reads the word of a line.  Where that fails and there is no base address yet, it is
taken from the memory map (`load`, 0 if it is not found there) and reading is repeated. -/
def peekLine (load : Nat) (st : Patching) (line : CachedLine) : Option (Nat × BitVec 64) :=
  match st.text.peek (line.address + st.base) with
  | some instr => some (st.base, instr)
  | none =>
      if st.base ≠ 0 ∨ load = 0 then none
      else (st.text.peek (line.address + load)).map fun instr => (load, instr)

/-- The body of the inner loop of `set_breakpoints`. -/
def setLine (load : Nat) (st : Patching) (line : CachedLine) : Option (Patching × ArmedLine) := do
  let (base, instr) ← peekLine load st line
  let text ← st.text.poke (line.address + base) (Word.setLow instr int3)
  return ({ text, base }, { line with orgInstrByte := Word.byte instr 0 })

/-- The inner loop. -/
def setLines (load : Nat) : List CachedLine → Patching → Option (Patching × List ArmedLine)
  | [], st => some (st, [])
  | line :: lines, st => do
      let (st, armed) ← setLine load st line
      let (st, rest) ← setLines load lines st
      return (st, armed :: rest)

/-- The outer loop. -/
def setUnits (load : Nat) (rows : List (Nat × StatementRow)) :
    List Nat → Patching → Option (Patching × List CachedUnit)
  | [], st => some (st, [])
  | unit :: units, st => do
      let lines := unitLines rows unit
      let (st, armed) ← setLines load lines st
      let (st, rest) ← setUnits load rows units st
      return (st, { start := (lines.map (·.address)).min?.getD 0
                    stop := (lines.map (·.address)).max?.getD 0
                    lineCount := lines.length, lines := armed } :: rest)

/-- `set_breakpoints`, from the text as it was loaded. -/
def setBreakpoints (files : List UnitFile) (statements : List StatementRow) (load : Nat)
    (text : Text) : Option (Patching × List CachedUnit) :=
  let rows := unitStatements files statements
  setUnits load rows (unitIds rows) { text, base := 0 }

/-! ## Processing a breakpoint -/

/-- A stop: the line that `lookup_cache` finds for it, and whether the single step ends
with a `SIGTRAP`. -/
structure Hit where
  line : ArmedLine
  trapped : Bool
  deriving DecidableEq, Repr

/-- A call of `process_breakpoint`: the text it finds, the text the client executes its
instruction in, if it gets there, and the text it leaves. -/
structure BreakpointCall where
  hit : Hit
  found : Text
  stepped : Option Text
  left : Text
  success : Bool

/-- The end of `process_breakpoint`, from where the original instruction is restored. -/
def stepOver (base : Nat) (text : Text) (hit : Hit) : BreakpointCall :=
  let pc := hit.line.address + base
  let failed (stepped : Option Text) (left : Text) : BreakpointCall :=
    { hit, found := text, stepped, left, success := false }
  match text.peek pc with
  | none => failed none text
  | some instr =>
      match text.poke pc (Word.setLow instr hit.line.orgInstrByte) with
      | none => failed none text
      | some restored =>
          if hit.trapped then
            match restored.poke pc (Word.setLow instr int3) with
            | none => failed (some restored) restored
            | some left =>
                { hit, found := text, stepped := some restored, left, success := true }
          else failed (some restored) restored

/-- The calls of a run; it ends with the first that fails. -/
def stepOvers (base : Nat) : List Hit → Text → List BreakpointCall
  | [], _ => []
  | hit :: hits, text =>
      let call := stepOver base text hit
      call :: if call.success then stepOvers base hits call.left else []

/-! ## The text after some lines -/

/-- The text with breakpoints on some statements. -/
def Text.patched (t : Text) (base : Nat) (done : List Nat) : Text := fun a =>
  if a ∈ done.map (· + base) then some int3 else t a

@[simp] theorem Text.patched_nil (t : Text) (base : Nat) : t.patched base [] = t := by
  funext a
  simp [Text.patched]

theorem Text.patched_set (t : Text) (base : Nat) (done : List Nat) (a : Nat) :
    (t.patched base done).set (a + base) int3 = t.patched base (done ++ [a]) := by
  funext b
  unfold Text.set Text.patched
  rw [List.map_append, List.map_singleton]
  rcases eq_or_ne b (a + base) with rfl | hne
  · rw [Function.update_self, if_pos (by simp)]
  · rw [Function.update_of_ne hne]
    simp only [List.mem_append, List.mem_singleton, hne, or_false]

/-- Where the client is: its statements are readable at `base`, and if that is not 0 it
is what the memory map says, and they are not readable without it. -/
structure Loaded (t : Text) (load base : Nat) (addresses : List Nat) : Prop where
  readable : ∀ a ∈ addresses, t.mapped (a + base) = true
  located : base = 0 ∨ base = load ∧ load ≠ 0 ∧ ∀ a ∈ addresses, t.mapped a = false

section
variable {t : Text} {load base : Nat} {addresses : List Nat}
  (loaded : Loaded t load base addresses)
include loaded

theorem Loaded.byte {a : Nat} (ha : a ∈ addresses) : ∃ c, t (a + base) = some c :=
  Text.mapped_iff.mp (loaded.readable a ha) 0 (by decide)

theorem Loaded.mapped_patched {done : List Nat} (hdone : ∀ a ∈ done, a ∈ addresses) (a : Nat) :
    (t.patched base done).mapped a = t.mapped a := by
  rw [Bool.eq_iff_iff, Text.mapped_iff, Text.mapped_iff]
  refine forall₂_congr fun i _ => ?_
  unfold Text.patched
  split
  · next hmem =>
      obtain ⟨b, hb, heq⟩ := List.mem_map.mp hmem
      obtain ⟨c, hc⟩ := loaded.byte (hdone b hb)
      rw [← heq, hc]
      simp
  · exact Iff.rfl

/-- Whether the base address is known already or not, the word of a line is read at `base`. -/
theorem Loaded.peekLine {done : List Nat} (hdone : ∀ a ∈ done, a ∈ addresses) {known : Nat}
    (hknown : known = base ∨ known = 0) {line : CachedLine} (hline : line.address ∈ addresses) :
    ∃ w, (t.patched base done).peek (line.address + base) = some w ∧
      peekLine load { text := t.patched base done, base := known } line = some (base, w) := by
  have hmapped := loaded.mapped_patched hdone
  have hpeek : (t.patched base done).peek (line.address + base) =
      some (Word.ofBytes
        (fun i => ((t.patched base done) (line.address + base + i)).getD 0) 8) := by
    rw [Text.peek, if_pos]
    rw [hmapped]
    exact loaded.readable _ hline
  refine ⟨_, hpeek, ?_⟩
  unfold FlightRec.peekLine
  rcases hknown with rfl | rfl
  · rw [hpeek]
  · rcases loaded.located with rfl | ⟨rfl, hload, hnone⟩
    · rw [hpeek]
    · have hzero : (t.patched base done).peek (line.address + 0) = none := by
        rw [Nat.add_zero, Text.peek, if_neg]
        rw [hmapped, hnone _ hline]
        exact Bool.false_ne_true
      rw [hzero]
      simp only [ne_eq, not_true_eq_false, false_or, if_neg hload, hpeek, Option.map_some]

theorem Loaded.setLine {done : List Nat} (hdone : ∀ a ∈ done, a ∈ addresses) {known : Nat}
    (hknown : known = base ∨ known = 0) {line : CachedLine} (hline : line.address ∈ addresses) :
    setLine load { text := t.patched base done, base := known } line =
      some ({ text := t.patched base (done ++ [line.address]), base },
        { line with
          orgInstrByte := ((t.patched base done) (line.address + base)).getD 0 }) := by
  obtain ⟨w, hpeek, hread⟩ := loaded.peekLine hdone hknown hline
  have hpoke := poke_setLow hpeek (Text.peek_mapped hpeek) (fun _ _ _ => rfl) int3
  have hbyte := Text.peek_byte hpeek (i := 0) (by decide)
  rw [Nat.add_zero] at hbyte
  unfold FlightRec.setLine
  rw [hread, hbyte, ← Text.patched_set]
  simp only [Option.bind_eq_bind, Option.bind_some, hpoke, Option.getD_some]
  rfl

end

/-- The lines with the bytes they keep, behind lines at `done`. -/
def arm (t : Text) (base : Nat) : List Nat → List CachedLine → List ArmedLine
  | _, [] => []
  | done, line :: lines =>
      { line with orgInstrByte := ((t.patched base done) (line.address + base)).getD 0 } ::
        arm t base (done ++ [line.address]) lines

theorem arm_append (t : Text) (base : Nat) (l' : List CachedLine) : ∀ (l : List CachedLine)
    (done : List Nat), arm t base done (l ++ l') =
      arm t base done l ++ arm t base (done ++ l.map (·.address)) l' := by
  intro l
  induction l with
  | nil => intro done; simp [arm]
  | cons line l ih =>
      intro done
      rw [List.cons_append, arm, ih, arm, List.map_cons, List.append_assoc, List.cons_append]
      rfl

theorem arm_toCachedLine (t : Text) (base : Nat) : ∀ (l : List CachedLine) (done : List Nat),
    (arm t base done l).map ArmedLine.toCachedLine = l := by
  intro l
  induction l with
  | nil => intro done; rfl
  | cons line l ih =>
      intro done
      rw [arm, List.map_cons, ih]

theorem arm_address_mem {t : Text} {base : Nat} {l : List CachedLine} {done : List Nat}
    {line : ArmedLine} (h : line ∈ arm t base done l) : line.address ∈ l.map (·.address) := by
  rw [← arm_toCachedLine t base l done, List.map_map]
  exact List.mem_map_of_mem h

section
variable {t : Text} {load base : Nat} {addresses : List Nat}
  (loaded : Loaded t load base addresses)
include loaded

theorem Loaded.setLines {lines : List CachedLine} : ∀ {done : List Nat} {known : Nat},
    (∀ a ∈ done, a ∈ addresses) → (∀ line ∈ lines, line.address ∈ addresses) →
      (known = base ∨ known = 0) →
      setLines load lines { text := t.patched base done, base := known } =
        some ({ text := t.patched base (done ++ lines.map (·.address))
                base := if lines.isEmpty then known else base }, arm t base done lines) := by
  induction lines with
  | nil =>
      intro done known _ _ _
      rw [List.map_nil, List.append_nil]
      rfl
  | cons line lines ih =>
      intro done known hdone hlines hknown
      have hline := hlines line (by simp)
      have hrest := @ih (done ++ [line.address]) base
        (fun a ha => by
          rcases List.mem_append.mp ha with ha | ha
          · exact hdone a ha
          · exact List.mem_singleton.mp ha ▸ hline)
        (fun l hl => hlines l (by simp [hl])) (Or.inl rfl)
      rw [FlightRec.setLines, loaded.setLine hdone hknown hline]
      simp only [Option.bind_eq_bind, Option.bind_some, hrest, ite_self]
      rw [List.map_cons, List.append_assoc]
      rfl

theorem Loaded.setUnits {rows : List (Nat × StatementRow)} {units : List Nat} :
    ∀ {done : List Nat} {known : Nat}, (∀ a ∈ done, a ∈ addresses) →
      (∀ line ∈ units.flatMap (unitLines rows), line.address ∈ addresses) →
      (known = base ∨ known = 0) →
      ∃ cached, setUnits load rows units { text := t.patched base done, base := known } =
          some ({ text := t.patched base
                    (done ++ (units.flatMap (unitLines rows)).map (·.address))
                  base := if (units.flatMap (unitLines rows)).isEmpty then known else base },
            cached) ∧
        cached.flatMap (·.lines) = arm t base done (units.flatMap (unitLines rows)) := by
  induction units with
  | nil =>
      intro done known _ _ _
      refine ⟨[], ?_, rfl⟩
      rw [List.flatMap_nil, List.map_nil, List.append_nil]
      rfl
  | cons unit units ih =>
      intro done known hdone hlines hknown
      rw [List.flatMap_cons] at hlines ⊢
      have hset := @Loaded.setLines _ _ _ _ loaded (unitLines rows unit) _ known hdone
        (fun l hl => hlines l (List.mem_append_left _ hl)) hknown
      obtain ⟨cached, hrest, harm⟩ := @ih
        (done ++ (unitLines rows unit).map (·.address))
        (if (unitLines rows unit).isEmpty then known else base)
        (fun a ha => by
          rcases List.mem_append.mp ha with ha | ha
          · exact hdone a ha
          · obtain ⟨l, hl, rfl⟩ := List.mem_map.mp ha
            exact hlines l (List.mem_append_left _ hl))
        (fun l hl => hlines l (List.mem_append_right _ hl))
        (by split <;> simp [hknown])
      have hbase : (if (units.flatMap (unitLines rows)).isEmpty then
            if (unitLines rows unit).isEmpty then known else base
          else base) =
          if (unitLines rows unit ++ units.flatMap (unitLines rows)).isEmpty then known
          else base := by
        cases unitLines rows unit <;> simp
      rw [FlightRec.setUnits, hset]
      simp only [Option.bind_eq_bind, Option.bind_some, hrest]
      rw [List.append_assoc, ← List.map_append, hbase]
      exact ⟨_, rfl, by rw [List.flatMap_cons, harm, arm_append]⟩

end

/-! ## The bytes that were kept -/

/-- A line keeps the byte of the program, unless its address had a line before. -/
theorem arm_original_iff {t : Text} {base : Nat} {lines : List CachedLine} :
    ∀ {done : List Nat}, (∀ line ∈ lines, ∃ c, t (line.address + base) = some c) →
      ((∀ line ∈ arm t base done lines, t (line.address + base) = some line.orgInstrByte) ↔
        ∀ a ∈ lines.map (·.address), (a ∈ done ∨ 1 < (lines.map (·.address)).count a) →
          t (a + base) = some int3) := by
  induction lines with
  | nil =>
      intro done _
      exact ⟨fun _ a ha => (by cases ha), fun _ line hline => by cases hline⟩
  | cons line lines ih =>
      intro done hbytes
      obtain ⟨c, hc⟩ := hbytes line (by simp)
      have hrest := @ih (done ++ [line.address]) fun l hl => hbytes l (by simp [hl])
      -- the byte of the first line is that of the program, or an `int3`
      have hfirst : (t (line.address + base) =
            some (((t.patched base done) (line.address + base)).getD 0)) ↔
          (line.address ∈ done → t (line.address + base) = some int3) := by
        have hmem : line.address + base ∈ done.map (· + base) ↔ line.address ∈ done := by
          simp
        unfold Text.patched
        by_cases hdone : line.address ∈ done
        · rw [if_pos (hmem.mpr hdone)]
          simp [hdone]
        · rw [if_neg (mt hmem.mp hdone), hc]
          simp [hdone]
      rw [arm, List.forall_mem_cons, hrest, List.map_cons, List.forall_mem_cons]
      simp only [List.count_cons, List.mem_append, List.mem_singleton]
      rw [hfirst]
      constructor
      · rintro ⟨hdone, hafter⟩
        refine ⟨fun h => ?_, fun a ha h => ?_⟩
        · rcases h with h | h
          · exact hdone h
          · have hagain : line.address ∈ lines.map (·.address) :=
              List.count_pos_iff.mp (by simpa using h)
            exact hafter _ hagain (Or.inl (Or.inr rfl))
        · rcases eq_or_ne a line.address with rfl | hne
          · exact hafter _ ha (Or.inl (Or.inr rfl))
          · refine hafter a ha (h.imp Or.inl fun h => ?_)
            simpa [Ne.symm hne] using h
      · rintro ⟨hhead, htail⟩
        refine ⟨fun h => hhead (Or.inl h), fun a ha h => ?_⟩
        rcases h with (h | rfl) | h
        · exact htail a ha (Or.inl h)
        · exact hhead (Or.inr (by simpa using List.count_pos_iff.mpr ha))
        · exact htail a ha (Or.inr (by omega))

theorem mem_unitIds {rows : List (Nat × StatementRow)} {unit : Nat} :
    unit ∈ unitIds rows ↔ ∃ r ∈ rows, r.1 = unit := by
  rw [unitIds, mem_orderBy, List.mem_dedup, List.mem_map]

theorem unitIds_nodup (rows : List (Nat × StatementRow)) : (unitIds rows).Nodup :=
  (List.perm_insertionSort _ _).nodup_iff.mpr (List.nodup_dedup _)

theorem unitLines_addresses (rows : List (Nat × StatementRow)) :
    (((unitIds rows).flatMap (unitLines rows)).map (·.address)).Perm
      (rows.map fun r => r.2.address) := by
  have hcover : ∀ r ∈ rows, r.1 ∈ unitIds rows := fun r hr => mem_unitIds.mpr ⟨r, hr, rfl⟩
  have hunit : ∀ unit, ((unitLines rows unit).map (·.address)).Perm
      ((rows.filter fun r => r.1 = unit).map fun r => r.2.address) := by
    intro unit
    rw [unitLines, List.map_map]
    exact (List.perm_insertionSort _ _).map _
  rw [List.map_flatMap]
  refine (List.Perm.flatMap_left _ fun unit _ => hunit unit).trans ?_
  rw [← List.map_flatMap]
  exact (groups_perm (unitIds_nodup rows) hcover).map _

/-! ## The stops -/

/-- The stops of a run that are processed, given which of them end with their trap. -/
def attempted : List Hit → List Hit
  | [] => []
  | hit :: hits => hit :: if hit.trapped then attempted hits else []

theorem attempted_subset {hits : List Hit} : ∀ h ∈ attempted hits, h ∈ hits := by
  induction hits with
  | nil =>
      intro h hh
      cases hh
  | cons hit hits ih =>
      intro h hh
      rcases List.mem_cons.mp hh with rfl | hh
      · exact List.mem_cons_self
      · refine List.mem_cons_of_mem _ (ih h ?_)
        split at hh
        · exact hh
        · cases hh

/-- The client executed the byte of the program, and the text is what it was. -/
structure BreakpointCall.Clean (t : Text) (base : Nat) (call : BreakpointCall) : Prop where
  stepped : ∃ c, t (call.hit.line.address + base) = some c ∧
    call.stepped = some (call.found.set (call.hit.line.address + base) c)
  left : call.left = call.found

theorem Text.set_inj {t : Text} {a : Nat} {c d : BitVec 8} (h : t.set a c = t.set a d) : c = d := by
  have := congrFun h a
  rw [Text.set, Text.set, Function.update_self, Function.update_self] at this
  exact Option.some.inj this

theorem stepOver_eq {text : Text} {base : Nat} {hit : Hit}
    (hmapped : text.mapped (hit.line.address + base) = true)
    (hint3 : text (hit.line.address + base) = some int3) :
    stepOver base text hit =
      { hit, found := text
        stepped := some (text.set (hit.line.address + base) hit.line.orgInstrByte)
        left := if hit.trapped then text
          else text.set (hit.line.address + base) hit.line.orgInstrByte
        success := hit.trapped } := by
  have hpeek : text.peek (hit.line.address + base) = some _ := if_pos hmapped
  have hrestore := poke_setLow hpeek hmapped (fun _ _ _ => rfl) hit.line.orgInstrByte
  have hagain := poke_setLow hpeek
    ((Text.mapped_set (c := hit.line.orgInstrByte) hint3 _).trans hmapped)
    (fun i hi _ => Function.update_of_ne (by omega) _ _) int3
  have hback : (text.set (hit.line.address + base) hit.line.orgInstrByte).set
      (hit.line.address + base) int3 = text := by
    unfold Text.set
    rw [Function.update_idem, ← hint3, Function.update_eq_self]
  rw [hback] at hagain
  unfold stepOver
  simp only [hpeek, hrestore, hagain]
  cases hit.trapped <;> rfl

section
variable {t text : Text} {base : Nat} {hit : Hit}
  (hmapped : text.mapped (hit.line.address + base) = true)
  (hint3 : text (hit.line.address + base) = some int3)
include hmapped hint3

theorem stepOver_clean_iff : (stepOver base text hit).Clean t base ↔
    t (hit.line.address + base) = some hit.line.orgInstrByte ∧
      (hit.trapped = true ∨ t (hit.line.address + base) = some int3) := by
  rw [stepOver_eq hmapped hint3]
  constructor
  · rintro ⟨⟨c, hc, hstepped⟩, hleft⟩
    have horg : hit.line.orgInstrByte = c := Text.set_inj (Option.some.inj hstepped)
    refine ⟨horg ▸ hc, ?_⟩
    cases htrap : hit.trapped with
    | true => exact Or.inl rfl
    | false =>
        rw [htrap] at hleft
        have hat : text.set (hit.line.address + base) hit.line.orgInstrByte
            (hit.line.address + base) = text (hit.line.address + base) := congrFun hleft _
        rw [Text.set, Function.update_self, hint3] at hat
        exact Or.inr (hc.trans (horg ▸ hat))
  · rintro ⟨horg, htrap⟩
    refine ⟨⟨_, horg, rfl⟩, ?_⟩
    show (if hit.trapped = true then text else _) = text
    rcases htrap with htrap | hsame
    · rw [if_pos htrap]
    · have hbyte : hit.line.orgInstrByte = int3 := Option.some.inj (horg.symm.trans hsame)
      rw [hbyte, Text.set, ← hint3, Function.update_eq_self, ite_self]

end

/-- All calls of a run are clean exactly if every processed stop has its byte and ends
with its trap. -/
theorem stepOvers_clean_iff {t text : Text} {base : Nat} {hits : List Hit}
    (hmapped : ∀ h ∈ hits, text.mapped (h.line.address + base) = true)
    (hint3 : ∀ h ∈ hits, text (h.line.address + base) = some int3) :
    (∀ call ∈ stepOvers base hits text, call.Clean t base) ↔
      ∀ h ∈ attempted hits, t (h.line.address + base) = some h.line.orgInstrByte ∧
        (h.trapped = true ∨ t (h.line.address + base) = some int3) := by
  induction hits with
  | nil => exact ⟨fun _ h hh => (by cases hh), fun _ call hcall => by cases hcall⟩
  | cons hit hits ih =>
      have hm := hmapped hit (by simp)
      have hi := hint3 hit (by simp)
      have hrest := ih (fun h hh => hmapped h (by simp [hh])) fun h hh => hint3 h (by simp [hh])
      rw [stepOvers, attempted, List.forall_mem_cons, List.forall_mem_cons,
        stepOver_clean_iff hm hi]
      refine and_congr_right fun _ => ?_
      -- after a call that ends with its trap the text is what it was
      rw [stepOver_eq hm hi]
      cases hit.trapped with
      | true => simpa using hrest
      | false => simp

/-! ## Transparency -/

/-- The text has breakpoints on the statements and nowhere else, the cache has the bytes
of the program, and the calls of `process_breakpoint` are clean. -/
structure Transparent (t : Text) (base : Nat) (addresses : List Nat)
    (armed : Patching × List CachedUnit) (hits : List Hit) : Prop where
  text : ∀ a, armed.1.text a = if ∃ b ∈ addresses, b + base = a then some int3 else t a
  kept : ∀ line ∈ armed.2.flatMap (·.lines), t (line.address + base) = some line.orgInstrByte
  calls : ∀ call ∈ stepOvers armed.1.base hits armed.1.text, call.Clean t base

/-- **When breakpoints are transparent.**  In a client that is loaded, breakpoints are
set; and for every run of stops at them, text, cache and calls are as they should be
exactly if every address that stands in two rows holds an `int3` anyway, and so does
every address whose single step does not end with its trap. -/
theorem breakpoints_transparent_iff {files : List UnitFile} {statements : List StatementRow}
    {load base : Nat} {t : Text}
    (loaded : Loaded t load base
      ((unitStatements files statements).map fun r => r.2.address)) :
    ∃ armed, setBreakpoints files statements load t = some armed ∧
      ∀ hits, (∀ h ∈ hits, h.line ∈ armed.2.flatMap (·.lines)) →
        (Transparent t base ((unitStatements files statements).map fun r => r.2.address)
            armed hits ↔
          (∀ a, 1 < ((unitStatements files statements).filter fun r => r.2.address = a).length →
            t (a + base) = some int3) ∧
          ∀ h ∈ attempted hits,
            h.trapped = true ∨ t (h.line.address + base) = some int3) := by
  have hperm := unitLines_addresses (unitStatements files statements)
  have haddr : ∀ line ∈ (unitIds (unitStatements files statements)).flatMap
      (unitLines (unitStatements files statements)),
      line.address ∈ (unitStatements files statements).map fun r => r.2.address :=
    fun line hline => hperm.mem_iff.mp (List.mem_map_of_mem hline)
  obtain ⟨cached, hset, harm⟩ := @Loaded.setUnits _ _ _ _ loaded _ _ [] 0
    (fun a ha => by cases ha) haddr (Or.inr rfl)
  rw [Text.patched_nil, List.nil_append] at hset
  refine ⟨_, hset, fun hits hhits => ?_⟩
  generalize (unitIds (unitStatements files statements)).flatMap
    (unitLines (unitStatements files statements)) = lines at hperm haddr harm ⊢
  rw [harm] at hhits
  have hall : ∀ a ∈ lines.map (·.address),
      a ∈ (unitStatements files statements).map fun r => r.2.address :=
    fun a ha => hperm.mem_iff.mp ha
  have hhit : ∀ h ∈ hits, h.line.address ∈ lines.map (·.address) :=
    fun h hh => arm_address_mem (hhits h hh)
  -- the base address is known if there is a line at all
  have hbase : stepOvers (if lines.isEmpty then 0 else base) hits
      (t.patched base (lines.map (·.address))) =
      stepOvers base hits (t.patched base (lines.map (·.address))) := by
    cases lines with
    | cons line lines => rfl
    | nil =>
        have hnil : hits = [] := List.eq_nil_iff_forall_not_mem.mpr fun h hh => by cases hhit h hh
        rw [hnil]
        rfl
  have hcount : ∀ a, (lines.map (·.address)).count a =
      ((unitStatements files statements).filter fun r => r.2.address = a).length := by
    intro a
    rw [hperm.count_eq, List.count, List.countP_map, List.countP_eq_length_filter]
    rfl
  have hkept := @arm_original_iff t base lines []
    fun line hline => loaded.byte (haddr line hline)
  have hcalls := @stepOvers_clean_iff t (t.patched base (lines.map (·.address))) base hits
    (fun h hh => by
      rw [loaded.mapped_patched hall]
      exact loaded.readable _ (hall _ (hhit h hh)))
    (fun h hh => by
      unfold Text.patched
      exact if_pos (List.mem_map_of_mem (hhit h hh)))
  constructor
  · rintro ⟨-, kept, calls⟩
    rw [harm, hkept] at kept
    rw [hbase, hcalls] at calls
    refine ⟨fun a ha => ?_, fun h hh => (calls h hh).2⟩
    rw [← hcount] at ha
    exact kept a (List.count_pos_iff.mp (by omega)) (Or.inr ha)
  · rintro ⟨hrows, hattempted⟩
    have kept : ∀ line ∈ arm t base [] lines, t (line.address + base) = some line.orgInstrByte := by
      refine hkept.mpr fun a _ h => hrows a ?_
      rw [← hcount]
      rcases h with h | h
      · cases h
      · exact h
    refine { text := fun a => ?_, kept := harm ▸ kept, calls := ?_ }
    · show (if a ∈ (lines.map (·.address)).map (· + base) then _ else _) = _
      refine if_congr ?_ rfl rfl
      rw [List.mem_map]
      exact exists_congr fun b => and_congr_left fun _ => hperm.mem_iff
    · rw [hbase, hcalls]
      exact fun h hh => ⟨kept _ (hhits h (attempted_subset h hh)), hattempted h hh⟩

/-- Some pages of `nop`s. -/
def nopText : Text := fun a => if 0x1000 ≤ a ∧ a < 0x3000 then some 0x90 else none

/-- A source file of one unit. -/
def oneUnit : List UnitFile := [⟨1, 1⟩]

/-- Two lines of one address, as an empty loop header may have. -/
def twoRows : List StatementRow :=
  [⟨1, 5, 0x1000, some 1, some 1, some 1⟩, ⟨1, 6, 0x1000, some 1, some 1, some 1⟩]

/-- The second row keeps the `int3` of the first, and the client executes it. -/
theorem breakpoint_kept_twice :
    (setBreakpoints oneUnit twoRows 0 nopText).map (fun armed =>
        (armed.2.flatMap (·.lines)).map fun line => (line.address, line.orgInstrByte)) =
      some [(0x1000, 0x90), (0x1000, 0xCC)] ∧
    ((setBreakpoints oneUnit twoRows 0 nopText).bind fun armed =>
      (armed.2.flatMap (·.lines))[1]?.bind fun line =>
        (stepOver armed.1.base armed.1.text ⟨line, true⟩).stepped.bind fun text => text 0x1000) =
      some 0xCC := by
  exact ⟨by decide, by decide⟩

/-- Two statements whose words overlap. -/
def nearRows : List StatementRow :=
  [⟨1, 5, 0x1000, some 1, some 1, some 1⟩, ⟨1, 6, 0x1004, some 1, some 1, none⟩]

theorem breakpoints_transparent_iff_near :
    ∃ armed, setBreakpoints oneUnit nearRows 0 nopText = some armed ∧
      Transparent nopText 0 [0x1000, 0x1004] armed
        ((armed.2.flatMap (·.lines)).map fun line => ⟨line, true⟩) := by
  obtain ⟨armed, hset, htransparent⟩ := @breakpoints_transparent_iff oneUnit nearRows 0 0 nopText
    ⟨by decide, Or.inl rfl⟩
  refine ⟨armed, hset, (htransparent _ fun h hh => ?_).mpr ⟨fun a ha => ?_, fun h hh => ?_⟩⟩
  · obtain ⟨line, hline, rfl⟩ := List.mem_map.mp hh
    exact hline
  · have hrows : unitStatements oneUnit nearRows = nearRows.map fun st => (1, st) := by decide
    rw [hrows] at ha
    simp only [nearRows, List.map_cons, List.map_nil, List.filter_cons, List.filter_nil] at ha
    split at ha <;> split at ha <;> simp_all
    omega
  · obtain ⟨line, hline, rfl⟩ := List.mem_map.mp (attempted_subset h hh)
    exact Or.inl rfl

end FlightRec
