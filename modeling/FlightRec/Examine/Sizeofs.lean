/-
# `FlightRec.Examine.Sizeofs` — `sizeof`

The actions of `SIZEOF` take the size that is in the node of the operand, or of the type
name.  That is the size of the basic type, which is what the evaluator wants: how many
bytes there are to read when all pointers are followed.  For `sizeof` it is the size of
something else as soon as pointers or arrays are left:

    sizeof(T)             the size of T              right
    sizeof(T *)           the size of T              wrong, unless T has 8 bytes
    sizeof p, &x, p + i   the size behind pointers   wrong, unless that is 8
    sizeof a              the size of the array      right for a variable without pointers
    sizeof s.a, a[i]      the size of an object      wrong where these are arrays
    sizeof "...", NULL    1                          wrong, unless the string is empty
    sizeof(x + y)         8                          right where the sum has 8 bytes

`sizeof_iff` has the condition for any operand that is accepted: the size in C of the type
that its basic type is about (`SizeOfType`) is its own.  What that means for declared
pointers and arrays comes after it.
-/
import FlightRec.Examine.FieldTypes
import FlightRec.Examine.Strides
import FlightRec.Expressions.Stars

namespace FlightRec.Agreement

open Expressions Update

/-! ## Sizes in C -/

/-- The type of an operand in C, where arrays stay arrays.  C's conversions and the
spelling of a constant say what the type of an arithmetic sub-expression is; `result` is
the size of that. -/
inductive Program.OperandType (P : Program) (scope : Nat) (result : Expr → Nat) :
    Expr → CType → Prop
  | identifier {name : String} {id : Nat} {a : Attrs} {t : CType} :
      P.tables.varDetails name scope = some (id, a) →
      HasCType P.graph (P.symbols.typeOffset id) t →
      P.OperandType scope result (.identifier name) t
  | number {c : Constant} : isNumber c → c ≠ .null →
      P.OperandType scope result (.constant c) (.arithmetic (result (.constant c)))
  | null : P.OperandType scope result (.constant .null) (.pointer .incomplete)
  | string (s : String) : P.OperandType scope result (.constant (.string s))
      (.array (s.utf8ByteSize + 1) (.arithmetic 1))
  | item {p k : Expr} {t e : CType} : P.OperandType scope result p t → t.element = some e →
      P.OperandType scope result (.item p k) e
  | itemOf {k p : Expr} {t e u : CType} : P.OperandType scope result p t → t.element = some e →
      P.OperandType scope result k u → u.element = none → P.OperandType scope result (.item k p) e
  | field {x : Expr} {name : String} {o size : Nat} {m : MemberRow} {t : CType} :
      P.OperandType scope result x (.aggregate o size) → m ∈ P.symbols.info.members →
      m.offset = o → m.name = some name → HasCType P.graph m.type t →
      P.OperandType scope result (.field x name) t
  | arrow {x : Expr} {name : String} {p : CType} {o size : Nat} {m : MemberRow} {t : CType} :
      P.OperandType scope result x p → p.element = some (.aggregate o size) →
      m ∈ P.symbols.info.members → m.offset = o → m.name = some name →
      HasCType P.graph m.type t → P.OperandType scope result (.arrow x name) t
  | plus {x : Expr} {size : Nat} : P.OperandType scope result x (.arithmetic size) →
      P.OperandType scope result (.plus x) (.arithmetic (result (.plus x)))
  | addr {x : Expr} {t : CType} : P.OperandType scope result x t →
      P.OperandType scope result (.unaryOp .addr x) (.pointer t)
  | deref {x : Expr} {t e : CType} : P.OperandType scope result x t → t.element = some e →
      P.OperandType scope result (.unaryOp .deref x) e
  | cast {a : Attrs} {x : Expr} {t : CType} : P.TypeName a t → t.isArray = false →
      P.OperandType scope result (.cast a x) t
  | numeral {e : Expr} : isNumeral e → P.OperandType scope result e (.arithmetic (result e))
  | sum {op : BinaryOp} {x y : Expr} {t u : CType} : op = .add ∨ op = .sub →
      P.OperandType scope result x t → P.OperandType scope result y u → t.element = none →
      u.element = none →
      P.OperandType scope result (.binaryOp op x y) (.arithmetic (result (.binaryOp op x y)))
  | difference {x y : Expr} {t u : CType} : P.OperandType scope result x t →
      P.OperandType scope result y u → t.element ≠ none → u.element ≠ none →
      P.OperandType scope result (.binaryOp .sub x y) (.arithmetic (result (.binaryOp .sub x y)))
  | add {p k : Expr} {t e : CType} : P.OperandType scope result p t → t.element = some e →
      P.OperandType scope result (.binaryOp .add p k) (.pointer e)
  | addTo {k p : Expr} {t e u : CType} : P.OperandType scope result p t → t.element = some e →
      P.OperandType scope result k u → u.element = none →
      P.OperandType scope result (.binaryOp .add k p) (.pointer e)
  | sub {p k : Expr} {t e u : CType} : P.OperandType scope result p t → t.element = some e →
      P.OperandType scope result k u → u.element = none →
      P.OperandType scope result (.binaryOp .sub p k) (.pointer e)

/-- What `sizeof` is in C. -/
def Program.SizeInC (P : Program) (scope : Nat) (result : Expr → Nat) (e : Expr) (z : Nat) : Prop :=
  ∃ t, P.OperandType scope result e t ∧ t.size = some z

/-- The size in C of the type that a node is about.  Types that have none (functions, say)
count with what is in their rows, and numbers and built-in types, which have no DIE, with
what is in the node. -/
inductive Program.SizeOfType (P : Program) (a : Attrs) : Nat → Prop
  | declared {o n : Nat} : a.typeOffset = o → HasSize P.graph o n → P.SizeOfType a n
  | other : (∀ o n : Nat, a.typeOffset = o → ¬ HasSize P.graph o n) → P.SizeOfType a a.size

/-- The basic type has this size in C, as far as 64 bits hold it. -/
def Program.BasicSize (P : Program) (scope : Nat) (e : Expr) (z : Nat) : Prop :=
  ∃ a y, P.Basic scope e a ∧ P.SizeOfType a y ∧ BitVec.ofNat 64 y = BitVec.ofNat 64 z

/-! ## Basic types are unique -/

/-- Types that differ in the kind of a number at most. -/
structure SameBasic (a b : Attrs) : Prop where
  offset : a.typeOffset = b.typeOffset
  size : a.size = b.size
  indirect : a.indirect = b.indirect
  array : a.typeKind = .array ↔ b.typeKind = .array

section
variable {P : Program} {scope : Nat} {e : Expr} {a b : Attrs} {kind kind' : TKind}

theorem SameBasic.refl (a : Attrs) : SameBasic a a := ⟨rfl, rfl, rfl, Iff.rfl⟩

theorem sameBasic_word (h : kind.isNumeric) (h' : kind'.isNumeric) :
    SameBasic (word kind) (word kind') := by
  have hnumber {k : TKind} (hk : k.isNumeric) : k ≠ .array := by
    rintro rfl
    cases hk
  exact ⟨rfl, rfl, rfl, iff_of_false (hnumber h) (hnumber h')⟩

theorem SameBasic.shift (h : SameBasic a b) (k : Int) :
    SameBasic { a with indirect := a.indirect + k } { b with indirect := b.indirect + k } :=
  ⟨h.offset, h.size, congrArg (· + k) h.indirect, h.array⟩

theorem SameBasic.field {name : String} {t t' c c' : StoredType} (hsame : SameBasic a b)
    (h : P.FieldType a.typeOffset name t c) (h' : P.FieldType b.typeOffset name t' c') :
    SameBasic (kept c t.indirect) (kept c' t'.indirect) := by
  rw [hsame.offset] at h
  obtain ⟨_, _, _, _, _, hdetails⟩ := h
  obtain ⟨_, _, _, _, _, hdetails'⟩ := h'
  rw [(Prod.mk.inj (Option.some.inj (hdetails.symm.trans hdetails'))).1]
  exact .refl _

theorem Program.Basic.same (h : P.Basic scope e a) :
    ∀ {b}, P.Basic scope e b → SameBasic a b := by
  induction h with
  | identifier hdetails ht hb =>
      intro b h'
      cases h' with
      | identifier hdetails' ht' hb' =>
          cases hdetails.symm.trans hdetails'
          cases ht.symm.trans ht'
          obtain rfl := hb.unique hb'
          exact .refl _
      | numeral he => cases he
  | constant c =>
      intro b h'
      cases h' with
      | constant => exact .refl _
      | numeral he => cases he
  | pointerItem _ hkind _ ih =>
      intro b h'
      cases h' with
      | pointerItem h' _ _ => exact (ih h').shift (-1)
      | arrayItem h' hkind' _ _ _ => exact absurd ((ih h').array.mpr hkind') hkind
      | numeral he => cases he
  | arrayItem _ hkind ht hoffset hb ih =>
      intro b h'
      cases h' with
      | pointerItem h' hkind' _ => exact absurd ((ih h').array.mp hkind) hkind'
      | arrayItem h' _ ht' hoffset' hb' =>
          have hsame := hoffset.symm.trans ((ih h').offset.trans hoffset')
          rw [Int.ofNat.inj hsame] at ht
          cases ht.symm.trans ht'
          obtain rfl := hb.unique hb'
          exact .refl _
      | numeral he => cases he
  | field _ hfield ih =>
      intro b h'
      cases h' with
      | field h' hfield' => exact (ih h').field hfield hfield'
      | numeral he => cases he
  | arrow _ hfield ih =>
      intro b h'
      cases h' with
      | arrow h' hfield' => exact (ih h').field hfield hfield'
      | numeral he => cases he
  | plus _ ih =>
      intro b h'
      cases h' with
      | plus h' => exact ih h'
      | numeral he => cases he
  | addr _ ih =>
      intro b h'
      cases h' with
      | addr h' => exact (ih h').shift 1
      | numeral he => cases he
  | deref _ _ ih =>
      intro b h'
      cases h' with
      | deref h' _ => exact (ih h').shift (-1)
      | numeral he => cases he
  | cast a e =>
      intro b h'
      cases h' with
      | cast => exact .refl _
      | numeral he => cases he
  | offset _ _ hpointer hdirect hop ih ihindex =>
      intro b h'
      cases h' with
      | offset h' _ _ _ _ => exact ih h'
      | difference _ h' _ hboth _ => exact absurd ((ihindex h').indirect.symm.trans hdirect) hboth
      | sum h' hzero _ _ => exact absurd ((ih h').indirect.trans hzero) hpointer
      | numeral he => rcases hop with rfl | rfl <;> cases he
  | difference _ _ hpointer hboth hkind ih ihindex =>
      intro b h'
      cases h' with
      | offset _ h' _ hdirect _ => exact absurd ((ihindex h').indirect.trans hdirect) hboth
      | difference _ _ _ _ hkind' => exact sameBasic_word hkind hkind'
      | sum h' hzero _ _ => exact absurd ((ih h').indirect.trans hzero) hpointer
      | numeral he => cases he
  | sum _ hzero hop hkind ih =>
      intro b h'
      cases h' with
      | offset h' _ hpointer _ _ => exact absurd ((ih h').indirect.symm.trans hzero) hpointer
      | difference h' _ hpointer _ _ =>
          exact absurd ((ih h').indirect.symm.trans hzero) hpointer
      | sum _ _ _ hkind' => exact sameBasic_word hkind hkind'
      | numeral he => rcases hop with rfl | rfl <;> cases he
  | numeral he hkind =>
      intro b h'
      cases h' with
      | numeral _ hkind' => exact sameBasic_word hkind hkind'
      | offset _ _ _ _ hop | sum _ _ hop _ => rcases hop with rfl | rfl <;> cases he
      | _ => cases he

end

/-! ## When sizes are right -/

section
variable {P : Program} {scope : Nat} {e : Expr} {a : Attrs} {t : CType} {n : AstNode} {z : Nat}

theorem sizeofAction_inj {y : Nat} :
    sizeofAction y = sizeofAction z ↔ BitVec.ofNat 64 y = BitVec.ofNat 64 z :=
  ⟨fun h => (AstNode.int.inj h).2, fun h => congrArg (AstNode.int _) h⟩

/-- The node has the size in C of the type that it is about, if that has one. -/
def Program.Sized (P : Program) (a : Attrs) : Prop :=
  ∀ o n : Nat, a.typeOffset = o → HasSize P.graph o n → a.size = n

theorem Program.Sized.sizeOfType (h : P.Sized a) {y : Nat} : P.SizeOfType a y ↔ y = a.size := by
  constructor
  · rintro (⟨ho, hn⟩ | -)
    · exact (h _ _ ho hn).symm
    · rfl
  · rintro rfl
    by_cases hsize : ∃ o n : Nat, a.typeOffset = o ∧ HasSize P.graph o n
    · obtain ⟨o, n, ho, hn⟩ := hsize
      rw [h o n ho hn]
      exact .declared ho hn
    · exact .other fun o n ho hn => hsize ⟨o, n, ho, hn⟩

theorem Program.Sized.redirect {indirect : Int} (h : P.Sized a) : P.Sized { a with indirect } :=
  fun o n ho hn => h o n ho hn

theorem hasSize_ne_zero {g : TypeGraph} {o y : Nat} (h : HasSize g o y) : o ≠ 0 := by
  cases h with
  | own hd | named hd | array hd => exact g.nonzero _ hd

theorem sized_zero (h : a.typeOffset = 0) : P.Sized a := fun _ _ ho hn =>
  absurd (Int.ofNat.inj (ho.symm.trans h)) (hasSize_ne_zero hn)

theorem sized_kept {b : StoredType} {indirect : Nat} (hb : typeAt P.rows b.offset = some b) :
    P.Sized (kept b indirect) := by
  intro o n ho hn
  cases Int.ofNat.inj ho
  have hsize := P.sizes _ _ hn
  rw [sizeAt, hb] at hsize
  exact hsize

theorem basicSize_iff (ha : P.Basic scope e a) (hsized : P.Sized a) :
    P.BasicSize scope e z ↔ BitVec.ofNat 64 a.size = BitVec.ofNat 64 z := by
  constructor
  · rintro ⟨b, y, hb, hy, h⟩
    have hsame := ha.same hb
    have hsized' : P.Sized b := fun o n ho hn =>
      hsame.size.symm.trans (hsized o n (hsame.offset.trans ho) hn)
    rw [hsame.size, ← hsized'.sizeOfType.mp hy]
    exact h
  · intro h
    exact ⟨a, _, ha, hsized.sizeOfType.mpr rfl, h⟩

theorem yylex_row {x : Lexeme} {o : Nat} (h : yylex P.tables x = .ok (.type a))
    (ho : a.typeOffset = o) : ∃ r, typeAt P.rows o = some r ∧ a.size = (typeRow r).size := by
  have hrow {p : TypeRow → Bool} {details : Int × TKind × Nat}
      (hdetails : (P.symbols.types.find? p).map (fun t => (t.offset, t.kind, t.size)) =
        some details) (hoffset : details.1 = o) :
      ∃ r, typeAt P.rows o = some r ∧ details.2.2 = (typeRow r).size := by
    obtain ⟨t, ht, rfl⟩ := Option.map_eq_some_iff.mp hdetails
    obtain ⟨r, hr, rfl⟩ := P.tabled.mem_types.mp ⟨List.mem_of_find?_eq_some ht, hoffset⟩
    exact ⟨r, hr, rfl⟩
  cases x with
  | basicType b =>
      -- built-in types have no rows: their offsets are negative
      cases h
      have hnegative : b.attrs.typeOffset < 0 := by cases b <;> decide
      omega
  | structOrUnion name =>
      have hname : findStructOrUnion P.tables name = .ok (.type a) := h
      unfold findStructOrUnion at hname
      split at hname
      next hdetails =>
        cases hname
        exact hrow hdetails ho
      next => cases hname
  | word name =>
      have hname : findVarOrType P.tables name = .type a := Except.ok.inj h
      unfold findVarOrType at hname
      split at hname
      next hdetails =>
        cases hname
        exact hrow hdetails ho
      next => cases hname
  | symbol | void | constant => cases h

theorem sized_typeName (h : P.TypeName a t) : P.Sized a := by
  induction h with
  | void => exact sized_zero rfl
  | basic b =>
      intro o n ho _
      have hnegative : b.attrs.typeOffset < 0 := by cases b <;> decide
      omega
  | declared hlex _ _ =>
      intro o n ho hn
      obtain ⟨r, hr, hsize⟩ := yylex_row hlex ho
      have hrow := P.sizes _ _ hn
      rw [sizeAt, hr] at hrow
      exact hsize.trans hrow
  | pointer _ ih => exact ih.redirect

/-- **Basic types**: that of an operand which has a type in C has the size that its type has
in C.  Casts are to type names, and what is kept otherwise is that of a row. -/
theorem sized_basic {result : Expr → Nat} (ht : P.OperandType scope result e t) :
    ∀ {a : Attrs}, P.Basic scope e a → P.Sized a := by
  have hword {kind : TKind} : P.Sized (word kind) := sized_zero rfl
  induction ht with
  | identifier =>
      intro a h
      cases h with
      | identifier _ _ hfirst => exact sized_kept (typeAt_firstDirect hfirst)
      | numeral => exact hword
  | @number c _ _ =>
      intro a h
      cases h with
      | constant => exact sized_zero (by cases c <;> rfl)
      | numeral => exact hword
  | null | string =>
      intro a h
      cases h with
      | constant => exact sized_zero rfl
      | numeral => exact hword
  | item _ _ ih | itemOf _ _ _ _ _ ih =>
      intro a h
      cases h with
      | pointerItem h _ _ => exact (ih h).redirect
      | arrayItem _ _ _ _ hlast => exact sized_kept hlast.last.1
      | numeral => exact hword
  | field =>
      intro a h
      cases h with
      | field _ hfield =>
          obtain ⟨_, _, _, _, hlast, _⟩ := hfield
          exact sized_kept hlast.last.1
      | numeral => exact hword
  | arrow =>
      intro a h
      cases h with
      | arrow _ hfield =>
          obtain ⟨_, _, _, _, hlast, _⟩ := hfield
          exact sized_kept hlast.last.1
      | numeral => exact hword
  | plus _ ih =>
      intro a h
      cases h with
      | plus h => exact ih h
      | numeral => exact hword
  | addr _ ih =>
      intro a h
      cases h with
      | addr h => exact (ih h).redirect
      | numeral => exact hword
  | deref _ _ ih =>
      intro a h
      cases h with
      | deref h _ => exact (ih h).redirect
      | numeral => exact hword
  | cast hname _ =>
      intro a h
      cases h with
      | cast => exact sized_typeName hname
      | numeral => exact hword
  | numeral he =>
      intro a h
      cases h with
      | numeral => exact hword
      | offset _ _ _ _ hop => rcases hop with rfl | rfl <;> cases he
      | sum => exact hword
      | _ => cases he
  | sum _ _ _ _ _ ih _ | difference _ _ _ _ ih _ | sub _ _ _ _ ih _ =>
      intro a h
      cases h with
      | offset h _ _ _ _ => exact ih h
      | difference | sum | numeral => exact hword
  | add _ _ ih | addTo _ _ _ _ _ ih =>
      intro a h
      cases h with
      | offset h _ _ _ _ => exact ih h
      | sum | numeral => exact hword

theorem sizeofExpr_iff {result : Expr → Nat} (ht : P.OperandType scope result e t)
    (h : (Expr.sizeofExpr e).ast P.tables scope = .ok n) :
    n = sizeofAction z ↔ P.BasicSize scope e z := by
  obtain ⟨object, hobject, h⟩ := ok_of_bind h
  cases h
  have hbasic := basic_ast P scope e hobject
  rw [sizeofAction_inj, basicSize_iff hbasic (sized_basic ht hbasic)]
  rfl

theorem typeName_size (h : P.TypeName a t) (hdirect : a.indirect = 0) (hz : t.size = some z) :
    a.size = z := by
  cases h with
  | void => cases hz
  | basic b => exact Option.some.inj hz
  | declared hlex hoffset htype =>
      obtain ⟨r, hr, hsize⟩ := yylex_row hlex hoffset
      rw [hsize, Program.row_size hr htype hz]
  | pointer h =>
      have hnonneg := typeName_nonneg h
      dsimp only at hdirect
      omega

theorem typeName_pointer (h : P.TypeName a t) (hpointer : a.indirect ≠ 0) :
    t.size = some 8 := by
  cases h with
  | void => exact absurd rfl hpointer
  | basic b => exact absurd (by cases b <;> rfl) hpointer
  | declared hlex => exact absurd (yylex_type hlex) hpointer
  | pointer _ => rfl

theorem sizeofType_iff (h : P.TypeName a t) (hz : t.size = some z) :
    sizeofAction a.size = sizeofAction z ↔
      a.indirect = 0 ∨ BitVec.ofNat 64 a.size = BitVec.ofNat 64 8 := by
  rw [sizeofAction_inj]
  by_cases hpointer : a.indirect = 0
  · rw [typeName_size h hpointer hz]
    exact iff_of_true rfl (.inl hpointer)
  · cases (typeName_pointer h hpointer).symm.trans hz
    exact (or_iff_right hpointer).symm

end

/-- **Sizes**: `sizeof` of an operand is that of C if and only if the basic type of the
operand has this size in C, and `sizeof` of a type name if and only if it has no stars, or
names a type of eight bytes before them. -/
theorem sizeof_iff (P : Program) (scope : Nat) (result : Expr → Nat) :
    (∀ {e : Expr} {z : Nat} {n : AstNode}, P.SizeInC scope result e z →
      (Expr.sizeofExpr e).ast P.tables scope = .ok n →
        (n = sizeofAction z ↔ P.BasicSize scope e z)) ∧
      ∀ {a : Attrs} {t : CType} {z : Nat} {n : AstNode}, P.TypeName a t → t.size = some z →
        (Expr.sizeofType a).ast P.tables scope = .ok n →
          (n = sizeofAction z ↔
            a.indirect = 0 ∨ BitVec.ofNat 64 a.size = BitVec.ofNat 64 8) := by
  refine ⟨fun ⟨_, ht, _⟩ h => sizeofExpr_iff ht h, fun hname hz h => ?_⟩
  cases h
  exact sizeofType_iff hname hz

/-! ## What that means -/

section
variable {P : Program} {scope id k e j y z elem : Nat} {x : Expr} {a : Attrs} {c : CType}
  {name : String} {result : Expr → Nat} {d : TypeDie} {bounds : List (Option Nat)}
  {q t b : StoredType}

/-- **Arithmetic**: what an operator computes has eight bytes. -/
theorem numeral_basicSize (hx : isNumeral x) :
    P.BasicSize scope x z ↔ BitVec.ofNat 64 8 = BitVec.ofNat 64 z :=
  basicSize_iff (a := word .signed) (.numeral hx rfl) (sized_zero rfl)

theorem basic_stars : ∀ {j : Nat} {a : Attrs}, P.Basic scope (stars j x) a →
    ∃ b, P.Basic scope x b ∧ a.size = b.size
  | 0, a, h => ⟨a, h, rfl⟩
  | j + 1, _, h => by
      cases h with
      | deref h _ =>
          obtain ⟨b, hb, hsize⟩ := basic_stars h
          exact ⟨b, hb, hsize⟩
      | numeral hx => cases hx

theorem operandType_stars (hx : P.OperandType scope result x (c.pointers k)) :
    ∀ {j : Nat}, j ≤ k → P.OperandType scope result (stars j x) (c.pointers (k - j))
  | 0, _ => hx
  | j + 1, hj => by
      have hmore : k - j = (k - (j + 1)) + 1 := by omega
      have hrest := operandType_stars hx (Nat.le_of_succ_le hj)
      rw [hmore] at hrest
      exact .deref hrest rfl

/-- **Pointers**: `sizeof` of a variable that is dereferenced `j` times, where its type has
`k` pointers to an object, is right if no pointer is left or the object has eight bytes. -/
theorem declared_pointer_sizeof {n : AstNode}
    (hdetails : P.tables.varDetails name scope = some (id, a))
    (hcount : PointerCount P.graph (P.symbols.typeOffset id) k e) (hend : HasCType P.graph e c)
    (hy : c.size = some y) (hbehind : ¬ PointerBehind P.graph e) (hj : j ≤ k)
    (h : (Expr.sizeofExpr (stars j (.identifier name))).ast P.tables scope = .ok n) :
    P.SizeInC scope result (stars j (.identifier name)) (if j = k then y else 8) ∧
      (n = sizeofAction (if j = k then y else 8) ↔
        j = k ∨ BitVec.ofNat 64 y = BitVec.ofNat 64 8) := by
  have hvar : P.OperandType scope result (stars j (.identifier name)) (c.pointers (k - j)) :=
    operandType_stars (.identifier hdetails (cType_of_count hcount hend)) hj
  obtain ⟨object, hobject, _⟩ := ok_of_bind h
  obtain ⟨b, hb, hsize⟩ := basic_stars (basic_ast P scope _ hobject)
  have hy' : object.attrs.size = y := by
    rw [hsize]
    cases hb with
    | identifier hdetails' _ hfirst =>
        cases hdetails.symm.trans hdetails'
        exact Program.row_size (typeAt_firstDirect hfirst)
          (cType_firstDirect hcount hend hbehind hfirst) hy
    | numeral hx => cases hx
  have hsized := sized_basic hvar (basic_ast P scope _ hobject)
  rw [sizeofExpr_iff hvar h, basicSize_iff (basic_ast P scope _ hobject) hsized, hy']
  by_cases hjk : j = k
  · rw [if_pos hjk]
    refine ⟨⟨_, hvar, ?_⟩, iff_of_true rfl (.inl hjk)⟩
    rw [hjk, Nat.sub_self]
    exact hy
  · rw [if_neg hjk]
    refine ⟨⟨_, hvar, ?_⟩, (or_iff_right hjk).symm⟩
    obtain ⟨i, hi⟩ : ∃ i, k - j = i + 1 := ⟨k - j - 1, by omega⟩
    rw [hi]
    rfl

/-- **Arrays**: a variable that is an array without pointers has the size of the array. -/
theorem declared_array_basicSize (hdetails : P.tables.varDetails name scope = some (id, a))
    (hd : d ∈ P.graph.dies) (hoffset : d.offset = P.symbols.typeOffset id)
    (hbody : d.body = .array elem bounds) (hnone : ¬ PointerBehind P.graph d.offset)
    (hc : HasCType P.graph d.offset c) (hz : c.size = some z) :
    P.BasicSize scope (.identifier name) z := by
  obtain ⟨r, hr, _, _, hdirect⟩ := Program.array_row hd hbody
  have hfirst : FirstDirect P.rows d.offset r := .here hr (hdirect.mpr hnone)
  have hsize : (typeRow r).size = z := Program.row_size hr hc hz
  have hsized := @sized_kept P r r.indirect (typeAt_firstDirect hfirst)
  rw [hoffset] at hr hfirst
  exact (basicSize_iff (.identifier hdetails hr hfirst) hsized).mpr
    (congrArg (BitVec.ofNat 64) hsize)

/-- Behind an array of objects the last type is that of the objects. -/
theorem array_lastBehind_size (hd : d ∈ P.graph.dies) (hbody : d.body = .array elem bounds)
    (hcount : PointerCount P.graph elem k e) (hend : HasCType P.graph e c) (hy : c.size = some y)
    (hq : typeAt P.graph.rows e = some q) (hparent : q.parent = 0)
    (hlast : LastBehind P.rows d.offset b) : (typeRow b).size = y := by
  obtain ⟨r, hr, helem, _, _⟩ := Program.array_row hd hbody
  have hlast' : LastBehind P.rows elem b := by
    cases hlast with
    | here hr' hnone =>
        obtain ⟨r₁, hr₁⟩ := row_of_count hcount hq
        obtain ⟨r₂, hr₂⟩ := P.row_of_graph hr₁
        cases hr.symm.trans hr'
        rw [helem, hr₂] at hnone
        cases hnone
    | behind hr' hrest =>
        cases hr.symm.trans hr'
        exact helem ▸ hrest
  exact Program.row_size (lastBehind_end hcount hq hparent hlast') hend hy

/-- A field that is an array has the size of one object, whatever the array has. -/
theorem field_array_basicSize (hx : P.Basic scope x a)
    (hfield : P.FieldType a.typeOffset name t b) (ht : t.offset = d.offset)
    (hd : d ∈ P.graph.dies) (hbody : d.body = .array elem bounds)
    (hcount : PointerCount P.graph elem k e) (hend : HasCType P.graph e c) (hy : c.size = some y)
    (hq : typeAt P.graph.rows e = some q) (hparent : q.parent = 0) :
    P.BasicSize scope (.field x name) z ↔ BitVec.ofNat 64 y = BitVec.ofNat 64 z := by
  have hsize : (typeRow b).size = y := by
    obtain ⟨_, _, _, hrow, hlast, _⟩ := hfield
    rw [← typeAt_offset hrow, ht] at hlast
    exact array_lastBehind_size hd hbody hcount hend hy hq hparent hlast
  have hlast : LastBehind P.rows t.offset b := by
    obtain ⟨_, _, _, hrow, hlast, _⟩ := hfield
    exact typeAt_offset hrow ▸ hlast
  rw [basicSize_iff (.field hx hfield) (sized_kept hlast.last.1), ← hsize]
  rfl

end

/-! ### Examples -/

theorem details_object : (tower 1).tables.varDetails "p" 0 = some (1, ⟨1, .signed, 4, 0⟩) := by
  decide +kernel

theorem cType_object : HasCType pointerTower 1 (.arithmetic 4) :=
  .base (d := ⟨1, "int", .base 4 .signed⟩) (by decide) rfl

theorem ast_sizeof {P : Program} {id : Nat} {a : Attrs}
    (h : P.tables.varDetails "p" 0 = some (id, a)) :
    (Expr.sizeofExpr (.identifier "p")).ast P.tables 0 = .ok (sizeofAction a.size) := by
  have hvar : (Expr.identifier "p").ast P.tables 0 = .ok (.var a "p" id) :=
    identifierAction_ok.mpr ⟨id, a, h, rfl⟩
  rw [Expr.ast, hvar]
  rfl

/-- `sizeof p` for an `int p`, and `sizeof(int)`. -/
theorem sizeof_iff_int :
    (tower 1).BasicSize 0 (.identifier "p") 4 ∧ (BasicType.signedInt.attrs.indirect = 0 ∨
      BitVec.ofNat 64 BasicType.signedInt.attrs.size = BitVec.ofNat 64 8) := by
  obtain ⟨hexpr, htype⟩ := sizeof_iff (tower 1) 0 fun _ => 8
  refine ⟨?_, ?_⟩
  · exact (hexpr ⟨_, .identifier details_object cType_object, rfl⟩ (ast_sizeof details_object)).mp
      rfl
  · exact (htype (.basic .signedInt) rfl rfl).mp rfl

/-- A pointer has eight bytes, but `sizeof p` is 4 for an `int *p`, and so is `sizeof(int *)`. -/
theorem sizeof_pointer_pointee :
    (tower 2).SizeInC 0 (fun _ => 8) (.identifier "p") 8 ∧
      (Expr.sizeofExpr (.identifier "p")).ast (tower 2).tables 0 = .ok (sizeofAction 4) ∧
      (tower 2).TypeName { BasicType.signedInt.attrs with indirect := 1 }
        (.pointer (.arithmetic 4)) ∧
      (Expr.sizeofType { BasicType.signedInt.attrs with indirect := 1 }).ast (tower 2).tables 0 =
        .ok (sizeofAction 4) ∧
      sizeofAction 4 ≠ sizeofAction 8 := by
  refine ⟨⟨_, .identifier details_int cType_pointer, rfl⟩, ast_sizeof details_int, ?_, rfl, ?_⟩
  · exact .pointer (.basic .signedInt)
  · decide

end FlightRec.Agreement
