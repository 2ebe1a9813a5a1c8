/-
# `FlightRec.LiveExpressions` — expressions have the values that they had in the client

Where the evaluator reads memory, it reads the table `mem`.  Here it is written once more
over any way of reading (`Reading`): over the table it is the evaluator of the source
(`recorded_getEvalResult`), over the memory of a stopped client it is that of a debugger
attached to the client, which has no result where it would read what it cannot, or more of
a pointer than its size tells.

The evaluator is monotone in what is read, clause by clause.  So what the attached debugger
shows at a stop of the run is shown from the recording (`recorded_evaluation`), and integer
expressions over the client's variables have there the value that they have in mathematics
(`recorded_integers`).
-/
import FlightRec.LiveMemory
import FlightRec.Expressions.IntegerMeaning

namespace FlightRec.Expressions

open Agreement Chunks Hoare Integers Relation

/-! ## Reading -/

/-- How the evaluator comes by the memory of the client: the value of a type at an address,
and the bytes there. -/
structure Reading where
  value : Attrs → NodeValue → Eval NodeValue
  bytes : NodeValue → Nat → Eval (Option (List UInt8))

/-- What `var_value` makes of the bytes that it has read. -/
def convert (F : FloatOps) (a : Attrs) (buffer : Nat → UInt8) : Eval NodeValue :=
  if a.indirect ≠ 0 then return BitVec.ofNat 64 (load buffer 8)
  else match a.typeKind with
    | .signed =>
        if a.size = 1 ∨ a.size = 2 ∨ a.size = 4 ∨ a.size = 8 then
          loaded ((BitVec.ofNat (8 * a.size) (load buffer a.size)).signExtend 64)
        else fail "Unsupported size for signed type"
    | .unsigned =>
        if a.size = 1 ∨ a.size = 2 ∨ a.size = 4 ∨ a.size = 8 then
          loaded (BitVec.ofNat 64 (load buffer a.size))
        else fail "Unsupported size for unsigned type"
    | .float =>
        if a.size = 4 then loaded (F.ofFloat (BitVec.ofNat 32 (load buffer 4)))
        else if a.size = 8 then loaded (BitVec.ofNat 64 (load buffer 8))
        else if a.size = 16 then loaded (F.ofLongDouble (BitVec.ofNat 128 (load buffer 16)))
        else fail "Unsupported size for float type"
    | _ => fail "Unsupported type for variable"

/-- The table `mem` is read: variables as of a step, texts as of the current one. -/
def recorded (env : Env) (step : Nat) : Reading where
  value a addr := varValue env a addr step
  bytes addr size :=
    match env.mem with
    | none => return none
    | some mem => return some ((getVarValue mem addr.toNat size env.curStep).take size)

/-- The memory of a stopped client, and where it can be read. -/
structure Snapshot where
  byte : Nat → UInt8
  readable : Nat → Bool

/-- The bytes of a range. -/
def Snapshot.read (S : Snapshot) (addr size : Nat) : Option (List UInt8) :=
  if (List.range' addr size).all S.readable then some (slice S.byte addr (addr + size)) else none

/-- The client itself is read. -/
def Snapshot.reading (S : Snapshot) (F : FloatOps) : Reading where
  value a addr :=
    match S.read addr.toNat a.size with
    | none => crash
    | some value =>
        if a.indirect ≠ 0 ∧ a.size < 8 then crash else convert F a fun i => value.getD i 0
  bytes addr size :=
    match S.read addr.toNat size with
    | none => crash
    | some bytes => return some bytes

/-! ## The evaluator over any reading -/

def Reading.lvalue (R : Reading) (a : Attrs) (addr : NodeValue) (flags : Flags) : Eval NodeValue :=
  if flags = .addr then return addr else R.value a addr

def Reading.evaluateNode (R : Reading) (env : Env) (step : Nat) : AstNode → Flags → Eval NodeValue
  | .int _ value, _ => return value
  | .float _ value, _ => return value
  | .string _ value, _ => return env.literal value
  | .var a _ id, flags =>
      match env.varAddress id step with
      | none => fail "Cannot get variable address"
      | some addr => R.lvalue a addr flags
  | .field a object _ start, flags => do
      let addr ← R.evaluateNode env step object .addr
      check (R.lvalue a (addr + BitVec.ofNat 64 start) flags)
  | .item a object member, flags => do
      let addr ← R.evaluateNode env step object (if object.indirect ≠ 0 then .noFlags else .addr)
      check do
        let index ← R.evaluateNode env step member .noFlags
        let _ ← itemBounds env object.attrs addr index
        R.lvalue a (addr + index * BitVec.ofNat 64 a.size) flags
  | .unaryOp _ .addr left, _ => R.evaluateNode env step left .addr
  | .unaryOp a .deref left, flags => do
      let addr ← R.evaluateNode env step left .noFlags
      R.lvalue a addr flags
  | .unaryOp _ .neg left, _ => do return -(← R.evaluateNode env step left .noFlags)
  | .unaryOp _ .inv left, _ => do return ~~~(← R.evaluateNode env step left .noFlags)
  | .unaryOp _ .not left, _ => do return ofBool ((← R.evaluateNode env step left .noFlags) == 0)
  | .binaryOp a op left right, _ =>
      evaluateBinary env.floatOps a op left.attrs right.attrs
        (R.evaluateNode env step left .noFlags) (R.evaluateNode env step right .noFlags)
  | .type a operand, _ => do
      let value ← R.evaluateNode env step operand
        (if isAggregate operand.typeKind then .addr else .noFlags)
      check (castValue env.floatOps a operand.attrs value)

def Reading.evalItems (R : Reading) (env : Env) (id : Nat) (a : Attrs)
    (addr dim pointerSize : NodeValue) (underKind : Nat) (value : Printed) :
    Eval (Option EvalResult) :=
  if a.size = 1 ∧ (underKind = 1 ∨ underKind = 2) then do
    let dim := if pointerSize = 0 then 32 else dim.toNat
    match ← R.bytes addr dim with
    | none => return none
    | some bytes =>
        let text := bytes.takeWhile (· ≠ 0)
        return some ⟨some (.string addr text (text.length < dim)), some 0, none, none⟩
  else match env.varRef id addr a.typeOffset a.indirect with
    | none => return none
    | some ref =>
        return some
          { result := some value, variablesReference := some ref, indexedVariables := some dim }

def Reading.evalPointer (R : Reading) (env : Env) (id : Nat) (a : Attrs) (addr : NodeValue)
    (underKind : Nat) : Eval (Option EvalResult) :=
  let shown := Printed.pointer (env.typeName a.typeOffset a.indirect) addr
  match env.pointerSize addr with
  | .released => return some { result := some (shown "dangling"), variablesReference := some 0 }
  | .notFound => return some { result := some (shown "invalid"), variablesReference := some 0 }
  | .failure => return some {}
  | .size bytes =>
      if bytes = 0 then R.evalItems env id a addr 1 bytes underKind (shown "")
      else if a.size = 0 then crash
      else R.evalItems env id a addr (bytes / BitVec.ofNat 64 a.size) bytes underKind (shown "")

def Reading.getEvalResult (R : Reading) (env : Env) (id : Nat) (ast : AstNode) (step : Nat) :
    Eval (Option EvalResult) :=
  let evaluate := R.evaluateNode env step ast
  let details := if ast.typeOffset = 0 then some (env.dim, env.underKind)
    else env.typeDetails ast.typeOffset
  if ast.indirect = 0 ∧ ast.typeKind.isNumeric then do
    let res ← evaluate .noFlags
    if ← failed then return none
    return some { result := printBasic ast.attrs res }
  else match details with
    | none => do
        let _ ← fail "Cannot get type details"
        return none
    | some (dim, underKind) =>
        if ast.indirect = 0 ∧ ast.typeKind = .struct then do
          let addr ← evaluate .addr
          if ← failed then return none
          match env.varRef id addr ast.typeOffset 0 with
          | none => return none
          | some ref =>
              return some ⟨some (.typeName (env.typeName ast.typeOffset ast.indirect)), some ref,
                some dim, none⟩
        else if ast.indirect ≠ 0 then do
          let addr ← evaluate .noFlags
          if ← failed then return none
          if addr = 0 then return some { result := some .null }
          R.evalPointer env id ast.attrs addr underKind
        else do
          let addr ← evaluate .addr
          if ← failed then return none
          R.evalItems env id ast.attrs addr dim 0 underKind
            (.typeName (env.typeName ast.typeOffset ast.indirect))

/-! ### Over the table it is the evaluator -/

section
variable {env : Env} {step : Nat}

theorem recorded_evaluateNode (n : AstNode) (flags : Flags) :
    (recorded env step).evaluateNode env step n flags = evaluateNode env step n flags := by
  induction n generalizing flags with
  | int a v => rfl
  | float a v => rfl
  | string a v => rfl
  | var a name id => rfl
  | field a object member start ih =>
      rw [Reading.evaluateNode, ih]
      rfl
  | item a object member ihobject ihmember =>
      rw [Reading.evaluateNode, ihobject, ihmember]
      rfl
  | unaryOp a op left ih =>
      cases op <;> rw [Reading.evaluateNode, ih] <;> rfl
  | binaryOp a op left right ihleft ihright =>
      rw [Reading.evaluateNode, ihleft, ihright]
      rfl
  | type a operand ih =>
      rw [Reading.evaluateNode, ih]
      rfl

theorem recorded_evalItems (id : Nat) (a : Attrs) (addr dim pointerSize : NodeValue)
    (underKind : Nat) (value : Printed) :
    (recorded env step).evalItems env id a addr dim pointerSize underKind value =
      return evalItems env id a addr dim pointerSize underKind value := by
  unfold Reading.evalItems evalItems
  split
  · cases hmem : env.mem with
    | none =>
        simp only [recorded, hmem]
        rfl
    | some mem =>
        simp only [recorded, hmem]
        rfl
  · cases env.varRef id addr a.typeOffset a.indirect <;> rfl

theorem recorded_evalPointer (id : Nat) (a : Attrs) (addr : NodeValue) (underKind : Nat) :
    (recorded env step).evalPointer env id a addr underKind =
      evalPointer env id a addr underKind := by
  unfold Reading.evalPointer evalPointer
  cases env.pointerSize addr with
  | size bytes => simp only [recorded_evalItems]
  | _ => rfl

theorem recorded_getEvalResult (id : Nat) (n : AstNode) :
    (recorded env step).getEvalResult env id n step = getEvalResult env id n step := by
  unfold Reading.getEvalResult
  simp only [recorded_evaluateNode, recorded_evalItems, recorded_evalPointer]
  rfl

end

/-! ### It is monotone in what is read -/

/-- Where the first comes by something, the second comes by the same. -/
structure Reading.Leads (R R' : Reading) : Prop where
  value : ∀ a addr, Below (R.value a addr) (R'.value a addr)
  bytes : ∀ addr size, Below (R.bytes addr size) (R'.bytes addr size)

section
variable {F : FloatOps} {x x' y y' : Eval NodeValue}

theorem below_check (h : Below x x') : Below (check x) (check x') := by
  refine (below_refl failed).bind ?_
  intro b
  exact below_ite (fun _ => below_refl _) fun _ => h

theorem below_binOp {case : Option (NodeValue → NodeValue → Eval NodeValue)} (hx : Below x x')
    (hy : Below y y') : Below (binOp case x y) (binOp case x' y') :=
  hx.bind fun _ => below_check (hy.bind fun _ => below_refl _)

theorem below_pointerOp {op : BinaryOp} {la ra : Attrs} (hx : Below x x') (hy : Below y y') :
    Below (pointerOp op la ra x y) (pointerOp op la ra x' y') := by
  refine below_ite (fun _ => below_refl _) ?_
  intro _
  refine hx.bind ?_
  intro left
  refine below_check (below_ite ?_ ?_)
  · intro _
    exact hy.bind fun _ => below_refl _
  · intro _
    exact hy.bind fun _ => below_refl _

theorem below_logicalOp {op : BinaryOp} {la ra : Attrs} (hx : Below x x') (hy : Below y y') :
    Below (logicalOp F op la ra x y) (logicalOp F op la ra x' y') := by
  refine hx.bind ?_
  intro left
  refine below_check (below_ite (fun _ => below_refl _) ?_)
  intro _
  refine below_ite (fun _ => below_refl _) ?_
  intro _
  exact hy.bind fun _ => below_refl _

theorem below_evaluateBinary {a la ra : Attrs} {op : BinaryOp} (hx : Below x x')
    (hy : Below y y') :
    Below (evaluateBinary F a op la ra x y) (evaluateBinary F a op la ra x' y') := by
  unfold evaluateBinary
  cases dispatch a op la ra with
  | pointer => exact below_pointerOp hx hy
  | logical => exact below_logicalOp hx hy
  | float => exact below_binOp hx hy
  | signed => exact below_binOp hx hy
  | unsigned => exact below_binOp hx hy

end

section
variable {R R' : Reading} {env : Env} {step : Nat}

theorem Reading.Leads.lvalue (h : R.Leads R') (a : Attrs) (addr : NodeValue) (flags : Flags) :
    Below (R.lvalue a addr flags) (R'.lvalue a addr flags) :=
  below_ite (fun _ => below_refl _) fun _ => h.value a addr

theorem Reading.Leads.evaluateNode (h : R.Leads R') (n : AstNode) (flags : Flags) :
    Below (R.evaluateNode env step n flags) (R'.evaluateNode env step n flags) := by
  induction n generalizing flags with
  | int a v => exact below_refl _
  | float a v => exact below_refl _
  | string a v => exact below_refl _
  | var a name id =>
      rw [Reading.evaluateNode, Reading.evaluateNode]
      cases env.varAddress id step with
      | none => exact below_refl _
      | some addr => exact h.lvalue a addr flags
  | field a object member start ih =>
      exact (ih _).bind fun addr => below_check (h.lvalue a _ flags)
  | item a object member ihobject ihmember =>
      refine (ihobject _).bind ?_
      intro addr
      refine below_check ((ihmember _).bind ?_)
      intro index
      exact (below_refl _).bind fun _ => h.lvalue a _ flags
  | unaryOp a op left ih =>
      cases op with
      | addr => exact ih _
      | deref => exact (ih _).bind fun addr => h.lvalue a addr flags
      | neg => exact (ih _).bind fun _ => below_refl _
      | inv => exact (ih _).bind fun _ => below_refl _
      | not => exact (ih _).bind fun _ => below_refl _
  | binaryOp a op left right ihleft ihright => exact below_evaluateBinary (ihleft _) (ihright _)
  | type a operand ih => exact (ih _).bind fun _ => below_refl _

theorem Reading.Leads.evalItems (h : R.Leads R') (id : Nat) (a : Attrs)
    (addr dim pointerSize : NodeValue) (underKind : Nat) (value : Printed) :
    Below (R.evalItems env id a addr dim pointerSize underKind value)
      (R'.evalItems env id a addr dim pointerSize underKind value) := by
  refine below_ite ?_ fun _ => below_refl _
  intro _
  exact (h.bytes addr _).bind fun _ => below_refl _

theorem Reading.Leads.evalPointer (h : R.Leads R') (id : Nat) (a : Attrs) (addr : NodeValue)
    (underKind : Nat) :
    Below (R.evalPointer env id a addr underKind) (R'.evalPointer env id a addr underKind) := by
  unfold Reading.evalPointer
  cases env.pointerSize addr with
  | size bytes =>
      refine below_ite (fun _ => h.evalItems _ _ _ _ _ _ _) ?_
      intro _
      exact below_ite (fun _ => below_refl _) fun _ => h.evalItems _ _ _ _ _ _ _
  | _ => exact below_refl _

theorem Reading.Leads.getEvalResult (h : R.Leads R') (id : Nat) (n : AstNode) :
    Below (R.getEvalResult env id n step) (R'.getEvalResult env id n step) := by
  have hfailed {x x' : Eval (Option EvalResult)} (hx : Below x x') :
      Below (do if ← failed then return none else x) (do if ← failed then return none else x') := by
    refine (below_refl failed).bind ?_
    intro b
    exact below_ite (fun _ => below_refl _) fun _ => hx
  refine below_ite ?_ ?_
  · intro _
    exact (h.evaluateNode n _).bind fun _ => below_refl _
  · intro _
    split
    · exact below_refl _
    · refine below_ite ?_ ?_
      · intro _
        exact (h.evaluateNode n _).bind fun _ => below_refl _
      · intro _
        refine below_ite ?_ ?_
        · intro _
          refine (h.evaluateNode n _).bind ?_
          intro addr
          exact hfailed (below_ite (fun _ => below_refl _) fun _ => h.evalPointer _ _ _ _)
        · intro _
          exact (h.evaluateNode n _).bind fun _ => hfailed (h.evalItems _ _ _ _ _ _ _)

end

/-! ## The table leads to the client's memory -/

section
variable {F : FloatOps} {a : Attrs}

theorem convert_congr {b b' : Nat → UInt8} (hwide : a.indirect ≠ 0 → 8 ≤ a.size)
    (h : ∀ i < a.size, b i = b' i) : convert F a b = convert F a b' := by
  have hload {size : Nat} (hsize : size ≤ a.size) : load b size = load b' size :=
    load_congr fun i hi => h i (by omega)
  unfold convert
  by_cases hpointer : a.indirect ≠ 0
  · rw [if_pos hpointer, if_pos hpointer, hload (hwide hpointer)]
  · rw [if_neg hpointer, if_neg hpointer]
    cases a.typeKind with
    | signed => simp only [hload (Nat.le_refl _)]
    | unsigned => simp only [hload (Nat.le_refl _)]
    | float =>
        refine ite_congr rfl (fun h4 => ?_) fun _ => ite_congr rfl (fun h8 => ?_) fun _ =>
          ite_congr rfl (fun h16 => ?_) fun _ => rfl
        · rw [hload (by omega)]
        · rw [hload (by omega)]
        · rw [hload (by omega)]
    | _ => rfl

theorem varValue_eq_convert {env : Env} {mem : List MemMsg} (hmem : env.mem = some mem)
    (addr : NodeValue) (step : Nat) :
    varValue env a addr step = convert env.floatOps a fun i =>
      (getVarValue mem addr.toNat a.size step).getD i (env.heap i) := by
  unfold varValue
  rw [hmem]
  rfl

theorem varValue_of_back {env : Env} {mem : List MemMsg} (hmem : env.mem = some mem)
    {addr : NodeValue} {step : Nat} {bytes : List UInt8}
    (hback : getVarValue mem addr.toNat a.size step = bytes ++ [0])
    (hlength : bytes.length = a.size) (hwide : a.indirect ≠ 0 → 8 ≤ a.size) :
    varValue env a addr step = convert env.floatOps a fun i => bytes.getD i 0 := by
  rw [varValue_eq_convert hmem, hback]
  refine convert_congr hwide fun i hi => ?_
  have hi : i < bytes.length := hlength ▸ hi
  rw [List.getD_append _ _ _ _ hi, List.getD_eq_getElem _ _ hi, List.getD_eq_getElem _ _ hi]

end

section
variable {memory : Nat → UInt8} {addr size : Nat}

theorem length_range : (slice memory addr (addr + size)).length = size := by
  rw [slice, List.length_map, List.length_range', Nat.add_sub_cancel_left]

theorem getD_range {i : Nat} (hi : i < size) :
    (slice memory addr (addr + size)).getD i 0 = memory (addr + i) := by
  rw [List.getD_eq_getElem _ _ (length_range.symm ▸ hi)]
  simp only [slice, List.getElem_map, List.getElem_range', Nat.one_mul]

end

theorem Snapshot.read_eq_some {S : Snapshot} {addr size : Nat} {bytes : List UInt8}
    (h : S.read addr size = some bytes) :
    (∀ x, addr ≤ x → x < addr + size → S.readable x = true) ∧
      bytes = slice S.byte addr (addr + size) := by
  obtain ⟨hall, hbytes⟩ := Option.ite_none_right_eq_some.mp h
  refine ⟨fun x hlo hhi => ?_, (Option.some.inj hbytes).symm⟩
  exact List.all_eq_true.mp hall x (List.mem_range'_1.mpr ⟨hlo, hhi⟩)

theorem Snapshot.value_of_read {S : Snapshot} {F : FloatOps} {a : Attrs} {addr : NodeValue}
    {bytes : List UInt8} (hread : S.read addr.toNat a.size = some bytes)
    (hdirect : a.indirect = 0) :
    (S.reading F).value a addr = convert F a fun i => bytes.getD i 0 := by
  simp only [Snapshot.reading, hread]
  exact if_neg fun h => h.1 hdirect

/-- Where the table gives back what can be read of the client, it leads to what the client
leads to. -/
theorem Snapshot.leads {S : Snapshot} {env : Env} {mem : List MemMsg} {k : Nat}
    (hmem : env.mem = some mem) (hcur : env.curStep = k)
    (hback : ∀ addr size, (∀ x, addr ≤ x → x < addr + size → S.readable x = true) →
      getVarValue mem addr size k = slice S.byte addr (addr + size) ++ [0]) :
    (S.reading env.floatOps).Leads (recorded env k) := by
  have hread {addr size : Nat} {bytes : List UInt8} (h : S.read addr size = some bytes) :
      bytes.length = size ∧ getVarValue mem addr size k = bytes ++ [0] := by
    obtain ⟨hreadable, rfl⟩ := S.read_eq_some h
    exact ⟨length_range, hback addr size hreadable⟩
  refine ⟨fun a addr => ?_, fun addr size => ?_⟩
  · show Below (match S.read addr.toNat a.size with
      | none => crash
      | some value =>
          if a.indirect ≠ 0 ∧ a.size < 8 then crash
          else convert env.floatOps a fun i => value.getD i 0) (varValue env a addr k)
    split
    · exact below_none
    next value hvalue =>
      obtain ⟨hlength, hback⟩ := hread hvalue
      split
      · exact below_none
      next hwide =>
        rw [varValue_of_back hmem hback hlength (by omega)]
        exact below_refl _
  · show Below (match S.read addr.toNat size with
      | none => crash
      | some bytes => return some bytes) (match env.mem with
      | none => return none
      | some mem => return some ((getVarValue mem addr.toNat size env.curStep).take size))
    split
    · exact below_none
    next bytes hbytes =>
      obtain ⟨hlength, hback⟩ := hread hbytes
      rw [hmem, hcur]
      dsimp only
      rw [hback, ← hlength, List.take_left]
      exact below_refl _

/-! ## At a stop -/

section
variable {c : Client} {missed : List Nat} {l l' : Live} {k : Nat} {env : Env}
  {readable : Nat → Bool}

/-- **Time travel.**  Whenever the client writes to its memory, of which it maps no more, and in
whatever order it and the two threads take their actions: what a debugger that is attached to
the client shows for an expression at a stop that drained the channel is shown for it, from
then on, from the recording.  It reads what was cached when the main loop was entered, but for
the pages touched before. -/
theorem recorded_evaluation (h : Begun c missed l) (run : ReflTransGen (LiveStep c) l l')
    (hk : l'.sys.Drained k) (hmem : env.mem = some l'.sys.bpf.mem.log) (hcur : env.curStep = k)
    (hreadable : ∀ x, readable x = true → l.Caches x ∧ x / pageSize ∉ missed) :
    ∃ stop line, StoppedAt c l l' stop k line ∧ ∀ n id st r,
      (Snapshot.reading ⟨stop.memory, readable⟩ env.floatOps).getEvalResult env id n k st =
        some r → getEvalResult env id n k st = some r := by
  obtain ⟨stop, line, hat, hback⟩ := h.stop_readBack run hk
  have hleads : (Snapshot.reading ⟨stop.memory, readable⟩ env.floatOps).Leads (recorded env k) :=
    Snapshot.leads hmem hcur fun addr size hread => hback addr size fun x hlo hhi =>
      hreadable x (hread x hlo hhi)
  refine ⟨stop, line, hat, fun n id st r hrun => ?_⟩
  rw [← recorded_getEvalResult]
  exact hleads.getEvalResult id n st r hrun

/-! ### Integers -/

/-- The integer that the bytes at an address are for a type. -/
def storedInteger (a : Attrs) (memory : Nat → UInt8) (addr : Nat) : Atom :=
  ⟨a.sign, BitVec.ofInt 64 (a.sign.wrap a.bits (load (fun i => memory (addr + i)) a.size))⟩

/-- Constants, and variables with the integers that the client's memory has for them. -/
def atomIn (T : Tables) (scope : Nat) (env : Env) (step : Nat) (memory : Nat → UInt8) :
    Expr → Atom
  | .constant (.integer v) => ⟨.unsigned, v⟩
  | .identifier name =>
      match T.varDetails name scope with
      | none => ⟨.unsigned, 0⟩
      | some (id, a) =>
          match env.varAddress id step with
          | none => ⟨.unsigned, 0⟩
          | some addr => storedInteger a memory addr.toNat
  | _ => ⟨.unsigned, 0⟩

/-- A constant, or a variable of an integer type where the memory can be read. -/
def IsAtom (T : Tables) (scope : Nat) (env : Env) (step : Nat) (readable : Nat → Prop) :
    Expr → Prop
  | .constant (.integer _) => True
  | .identifier name => ∃ id a addr, T.varDetails name scope = some (id, a) ∧ a.IsIntegerType ∧
      env.varAddress id step = some addr ∧
      ∀ x, addr.toNat ≤ x → x < addr.toNat + a.size → readable x
  | _ => False

theorem convert_integer {F : FloatOps} {a : Attrs} (ha : a.IsIntegerType) (b : Nat → UInt8) :
    convert F a b = loaded (BitVec.ofInt 64 (a.sign.wrap a.bits (load b a.size))) := by
  have hkind := ha.typeKind_eq
  obtain ⟨hdirect, -, hsize⟩ := ha
  unfold convert
  rw [if_neg (not_not_intro hdirect), hkind]
  cases a.sign with
  | signed =>
      dsimp only [kindOf]
      rw [if_pos hsize, Sign.wrap, BitVec.ofInt_natCast]
      rfl
  | unsigned =>
      have hlt : load b a.size % 2 ^ a.bits = load b a.size := Nat.mod_eq_of_lt (load_lt b a.size)
      dsimp only [kindOf]
      rw [if_pos hsize, Sign.wrap, BitVec.ofInt_natCast, Sign.value, BitVec.toNat_ofNat, hlt,
        BitVec.ofInt_natCast]

theorem readsAtom_stored {T : Tables} {scope step id : Nat} {name : String} {a : Attrs}
    {addr : NodeValue} {mem : List MemMsg} {memory : Nat → UInt8} (hmem : env.mem = some mem)
    (hvar : T.varDetails name scope = some (id, a)) (ha : a.IsIntegerType)
    (haddr : env.varAddress id step = some addr)
    (hback : getVarValue mem addr.toNat a.size step =
      slice memory addr.toNat (addr.toNat + a.size) ++ [0]) :
    ReadsAtom env T scope step (.identifier name) (storedInteger a memory addr.toNat) := by
  refine ⟨.var a name id, ?_, ha.1, ha.typeKind_eq, ?_⟩
  · rw [Expr.ast, identifierAction, hvar]
  · have hrun : evaluateNode env step (.var a name id) .noFlags =
        loaded (storedInteger a memory addr.toNat).value := by
      rw [evaluateNode, haddr]
      show varValue env a addr step = _
      rw [varValue_of_back hmem hback length_range fun h => absurd ha.1 h,
        convert_congr (fun h => absurd ha.1 h) fun i hi => getD_range hi, convert_integer ha]
      rfl
    rw [hrun]
    exact gives_check (gives_pure _)

end

/-! ### Examples -/

/-- A table of one variable, `x`, of one byte. -/
def oneByteTables : Tables := { noTables with
  varDetails := fun name _ => if name = "x" then some (1, ⟨1, .unsigned, 1, 0⟩) else none }

/-- A recording, with the variable at an address of the page that is cached. -/
def oneByteEnv (mem : List MemMsg) : Env := { noRecording with
  mem := some mem, curStep := 2, varAddress := fun _ _ => some 4112 }

/-- What the attached debugger shows for `x` at the second stop. -/
theorem recorded_evaluation_oneByte :
    ∃ l', ReflTransGen (LiveStep tickingClient) oneLivePage l' ∧
      getEvalResult (oneByteEnv l'.sys.bpf.mem.log) 1 (.var ⟨1, .unsigned, 1, 0⟩ "x" 1) 2 {} =
        some (some { result := some (.unsigned 2 (some 2)) }, {}) := by
  obtain ⟨l', run, hdrained⟩ := oneLivePage_run
  have hreadable : ∀ x, decide (4096 ≤ x ∧ x < 8192) = true →
      oneLivePage.Caches x ∧ x / pageSize ∉ ([] : List Nat) := fun x hx =>
    ⟨oneLivePage_caches.mpr (of_decide_eq_true hx), List.not_mem_nil⟩
  obtain ⟨stop, line, hat, hshown⟩ :=
    @recorded_evaluation tickingClient [] oneLivePage l' 2 (oneByteEnv l'.sys.bpf.mem.log) _
      oneLivePage_begun run hdrained rfl rfl hreadable
  have hbyte : some 2 = some (stop.memory 4112) :=
    hat.memory 4112 (oneLivePage_caches.mpr (by decide))
  have hread : Snapshot.read ⟨stop.memory, fun x => decide (4096 ≤ x ∧ x < 8192)⟩ 4112 1 =
      some [2] := congrArg (fun b => some [b]) (Option.some.inj hbyte).symm
  have hrun : (Snapshot.reading ⟨stop.memory, fun x => decide (4096 ≤ x ∧ x < 8192)⟩
      noRecording.floatOps).evaluateNode (oneByteEnv l'.sys.bpf.mem.log) 2
        (.var ⟨1, .unsigned, 1, 0⟩ "x" 1) .noFlags = loaded 2 :=
    (@Snapshot.value_of_read _ noRecording.floatOps ⟨1, .unsigned, 1, 0⟩ 4112 [2] hread rfl).trans
      rfl
  refine ⟨l', run, hshown _ _ _ _ ?_⟩
  rw [Reading.getEvalResult, if_pos ⟨rfl, rfl⟩]
  show ((Snapshot.reading ⟨stop.memory, fun x => decide (4096 ≤ x ∧ x < 8192)⟩
      noRecording.floatOps).evaluateNode (oneByteEnv l'.sys.bpf.mem.log) 2
        (.var ⟨1, .unsigned, 1, 0⟩ "x" 1) .noFlags >>= _) {} = _
  rw [hrun]
  rfl

/-- `x + 1` -/
def oneByteSum : IntExpr :=
  .binaryOp .add (.atom (.identifier "x")) (.atom (.constant (.integer 1)))

end FlightRec.Expressions
