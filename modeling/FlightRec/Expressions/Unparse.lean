/-
# `FlightRec.Expressions.Unparse` — the shortest text of a tree

`Expr.unparse` writes parentheses only where the operator inside binds less than its
place wants.  The parser reads the tree back, and no text of the tree has fewer tokens
(`unparse_shortest`).
-/
import FlightRec.Expressions.Grammar

namespace FlightRec.Expressions

/-- Parentheses around a text of `m`, unless it can stand for `n`. -/
def enclose (n m : Nonterminal) (ts : List Token) : List Token :=
  if m.rank ≤ n.rank then ts else .symbol .lparen :: ts ++ [.symbol .rparen]

/-- The text of a tree where `n` is wanted; a type, also one of pointers, is the one token
that `yylex` makes of a type's name. -/
def Expr.unparse (n : Nonterminal) : Expr → List Token
  | .identifier name => [.identifier name]
  | .constant c => [.constant c]
  | .item object index =>
      enclose n .postfixExpression
        (object.unparse .postfixExpression ++ .symbol .lbracket :: index.unparse .expression ++
          [.symbol .rbracket])
  | .field object name =>
      enclose n .postfixExpression
        (object.unparse .postfixExpression ++ [.symbol .dot, .identifier name])
  | .arrow object name =>
      enclose n .postfixExpression
        (object.unparse .postfixExpression ++ [.symbol .ptrOp, .identifier name])
  | .plus operand =>
      enclose n .unaryExpression (.symbol .plus :: operand.unparse .castExpression)
  | .unaryOp op operand =>
      enclose n .unaryExpression (.symbol op.symbol :: operand.unparse .castExpression)
  | .sizeofExpr operand =>
      enclose n .unaryExpression (.symbol .sizeof :: operand.unparse .unaryExpression)
  | .sizeofType type =>
      enclose n .unaryExpression
        (.symbol .sizeof :: .symbol .lparen :: [.type type] ++ [.symbol .rparen])
  | .cast type operand =>
      enclose n .castExpression
        (.symbol .lparen :: [.type type] ++ .symbol .rparen :: operand.unparse .castExpression)
  | .binaryOp op left right =>
      enclose n op.nonterminal
        (left.unparse op.nonterminal ++ .symbol op.symbol :: right.unparse op.nonterminal.operand)

/-! ## It is a text of the tree -/

section
variable {n m : Nonterminal} {ts : List Token} {e : Expr}

theorem Derives.enclose (h : Derives m ts e) : Derives n (enclose n m ts) e := by
  unfold Expressions.enclose
  split
  · next hle => exact h.loosen (n.rank - m.rank) (by omega)
  · exact h.inParens n

theorem BinaryOp.unit_operand (op : BinaryOp) :
    op.nonterminal.unit = some op.nonterminal.operand := by
  cases op <;> rfl

theorem Expr.derives_unparse (e : Expr) : ∀ n, Derives n (e.unparse n) e := by
  induction e with
  | identifier name => exact (Derives.identifier name).ofPrimary
  | constant c => exact (Derives.constant c).ofPrimary
  | item object index ihobject ihindex =>
      exact fun n => (Derives.item (ihobject _) (ihindex _)).enclose
  | field object name ih => exact fun n => (Derives.field name (ih _)).enclose
  | arrow object name ih => exact fun n => (Derives.arrow name (ih _)).enclose
  | plus operand ih => exact fun n => (Derives.plus (ih _)).enclose
  | unaryOp op operand ih => exact fun n => (Derives.unaryOp op (ih _)).enclose
  | sizeofExpr operand ih => exact fun n => (Derives.sizeofExpr (ih _)).enclose
  | sizeofType type => exact fun n => (Derives.sizeofType (.type type)).enclose
  | cast type operand ih => exact fun n => (Derives.cast (.type type) (ih _)).enclose
  | binaryOp op left right ihleft ihright =>
      exact fun n => (Derives.binaryOp op op.unit_operand (ihleft _) (ihright _)).enclose

/-! ## No text is shorter -/

theorem length_enclose_le (h : m.rank ≤ n.rank) (l : Nonterminal) (ts : List Token) :
    (enclose n l ts).length ≤ (enclose m l ts).length := by
  unfold enclose
  split
  · split
    · exact Nat.le_refl _
    · simp only [List.length_append, List.length_cons]
      omega
  · next hn => exact Nat.le_of_eq (congrArg List.length (if_neg (by omega)).symm)

theorem length_enclose_primary (l : Nonterminal) (ts : List Token) :
    (enclose .primaryExpression l ts).length ≤ (enclose .expression l ts).length + 2 := by
  have hexpression : enclose .expression l ts = ts := if_pos (by cases l <;> decide)
  rw [hexpression, enclose]
  split
  · exact Nat.le_add_right _ 2
  · simp

theorem Expr.length_unparse_le (h : m.rank ≤ n.rank) (e : Expr) :
    (e.unparse n).length ≤ (e.unparse m).length := by
  cases e with
  | identifier name => exact Nat.le_refl _
  | constant c => exact Nat.le_refl _
  | _ => exact length_enclose_le h _ _

theorem Expr.length_unparse_primary (e : Expr) :
    (e.unparse .primaryExpression).length ≤ (e.unparse .expression).length + 2 := by
  cases e with
  | identifier name => exact Nat.le_add_right _ 2
  | constant c => exact Nat.le_add_right _ 2
  | _ => exact length_enclose_primary _ _

theorem enclose_self (n : Nonterminal) (ts : List Token) : enclose n n ts = ts :=
  if_pos (Nat.le_refl _)

theorem DerivesType.length_pos {a : Attrs} (h : DerivesType ts a) : 1 ≤ ts.length := by
  cases h <;> simp

theorem Derives.length_unparse_le (h : Derives n ts e) :
    (e.unparse n).length ≤ ts.length := by
  induction h with
  | unit hunit _ ih =>
      have hrank := Nonterminal.rank_unit hunit
      exact Nat.le_trans (Expr.length_unparse_le (by omega) _) ih
  | identifier name => exact Nat.le_refl _
  | constant c => exact Nat.le_refl _
  | @paren ts e _ ih =>
      have hprimary := e.length_unparse_primary
      simp only [List.length_append, List.length_cons, List.length_nil]
      omega
  | item _ _ ihobject ihindex =>
      simp only [Expr.unparse, enclose_self, List.length_append, List.length_cons, List.length_nil]
      omega
  | field name _ ih =>
      simp only [Expr.unparse, enclose_self, List.length_append, List.length_cons, List.length_nil]
      omega
  | arrow name _ ih =>
      simp only [Expr.unparse, enclose_self, List.length_append, List.length_cons, List.length_nil]
      omega
  | plus _ ih =>
      simp only [Expr.unparse, enclose_self, List.length_cons]
      omega
  | unaryOp op _ ih =>
      simp only [Expr.unparse, enclose_self, List.length_cons]
      omega
  | sizeofExpr _ ih =>
      simp only [Expr.unparse, enclose_self, List.length_cons]
      omega
  | sizeofType htype =>
      have hpos := htype.length_pos
      simp only [Expr.unparse, enclose_self, List.length_append, List.length_cons, List.length_nil]
      omega
  | cast htype _ ih =>
      have hpos := htype.length_pos
      simp only [Expr.unparse, enclose_self, List.length_append, List.length_cons, List.length_nil]
      omega
  | binaryOp op hunit _ _ ihleft ihright =>
      cases op.unit_operand.symm.trans hunit
      simp only [Expr.unparse, enclose_self, List.length_append, List.length_cons]
      omega

end

/-- **Writing and reading.**  The text of a tree is read back as the tree, and it is the
shortest one that is. -/
theorem unparse_shortest (e : Expr) :
    parseTokens (e.unparse .expression) = some e ∧
      ∀ ts, parseTokens ts = some e → (e.unparse .expression).length ≤ ts.length := by
  refine ⟨parseTokens_eq_some_iff.mpr (e.derives_unparse _), fun ts h => ?_⟩
  exact (parseTokens_eq_some_iff.mp h).length_unparse_le

/-- `(a + b) * -c[i]`: the sum is in parentheses, nothing else is. -/
example :
    (Expr.binaryOp .mul (.binaryOp .add (.identifier "a") (.identifier "b"))
      (.unaryOp .neg (.item (.identifier "c") (.identifier "i")))).unparse .expression =
      [.symbol .lparen, .identifier "a", .symbol .plus, .identifier "b", .symbol .rparen,
        .symbol .star, .symbol .minus, .identifier "c", .symbol .lbracket, .identifier "i",
        .symbol .rbracket] := by
  rfl

end FlightRec.Expressions
