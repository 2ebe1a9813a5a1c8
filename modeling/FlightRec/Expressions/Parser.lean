/-
# `FlightRec.Expressions.Parser` — a parser for the grammar

`Derives` says what examine/expressions/expr.y allows, not how a derivation is found.
The parser here reads from the left and never goes back: a nonterminal reads its
operand and then, in a loop, whatever continues it.  The second token behind a
parenthesis is all that tells a cast, or the `sizeof` of a type, from an expression in
parentheses: the lexer has looked the name up.

What the parser accepts is derived (`parse_sound`).
-/
import FlightRec.Expressions.Parse

namespace FlightRec.Expressions

/-! ## The parser -/

/-- The operator that a symbol between two operands is. -/
def Symbol.binaryOp : Symbol → Option BinaryOp
  | .star => some .mul
  | .slash => some .div
  | .percent => some .mod
  | .plus => some .add
  | .minus => some .sub
  | .amp => some .bitAnd
  | .caret => some .xor
  | .bar => some .bitOr
  | .leftOp => some .left
  | .rightOp => some .right
  | .andOp => some .and
  | .orOp => some .or
  | .lt => some .lt
  | .gt => some .gt
  | .leOp => some .le
  | .geOp => some .ge
  | .eqOp => some .eq
  | .neOp => some .neq
  | _ => none

/-- The operator that a symbol in front of its operand is; `+` has no node. -/
def Symbol.unaryOp : Symbol → Option UnaryOp
  | .amp => some .addr
  | .star => some .deref
  | .minus => some .neg
  | .tilde => some .inv
  | .bang => some .not
  | _ => none

/-- The symbol is an operator of the nonterminal `n`. -/
def Symbol.operatorOf (n : Nonterminal) (s : Symbol) : Option BinaryOp :=
  s.binaryOp.filter fun op => op.nonterminal = n

/-- The stars behind a type. -/
def parseStars : Attrs → List Token → Attrs × List Token
  | a, .symbol .star :: rest => parseStars { a with indirect := a.indirect + 1 } rest
  | a, ts => (a, ts)

def parseType : List Token → Option (Attrs × List Token)
  | .void :: rest => some (parseStars {} rest)
  | .type a :: rest => some (parseStars a rest)
  | _ => none

/-- A type and the parenthesis that closes it. -/
def parseTypeInParens (ts : List Token) : Option (Attrs × List Token) :=
  match parseType ts with
  | some (a, .symbol .rparen :: rest) => some (a, rest)
  | _ => none

/-- Reads a nonterminal; returns its tree with the tokens behind it. -/
abbrev Reads := Nonterminal → List Token → Option (Expr × List Token)

section
variable (p : Reads)

def parsePrimary : List Token → Option (Expr × List Token)
  | .identifier name :: rest => some (.identifier name, rest)
  | .constant c :: rest => some (.constant c, rest)
  | .symbol .lparen :: rest =>
      match p .expression rest with
      | some (e, .symbol .rparen :: rest) => some (e, rest)
      | _ => none
  | _ => none

/-- Reads what continues an object; the first argument bounds how often. -/
def postfixLoop : Nat → Expr → List Token → Option (Expr × List Token)
  | k + 1, object, .symbol .lbracket :: rest =>
      match p .expression rest with
      | some (index, .symbol .rbracket :: rest) => postfixLoop k (.item object index) rest
      | _ => none
  | k + 1, object, .symbol .dot :: .identifier name :: rest =>
      postfixLoop k (.field object name) rest
  | k + 1, object, .symbol .ptrOp :: .identifier name :: rest =>
      postfixLoop k (.arrow object name) rest
  | _, object, ts => some (object, ts)

/-- Reads an operand and puts a node on it. -/
def parseOperand (n : Nonterminal) (node : Expr → Expr) (ts : List Token) :
    Option (Expr × List Token) :=
  (p n ts).map fun (e, rest) => (node e, rest)

/-- What stands behind `sizeof`. -/
def parseSizeof : List Token → Option (Expr × List Token)
  | .symbol .lparen :: ts =>
      match parseTypeInParens ts with
      | some (a, rest) => some (.sizeofType a, rest)
      | none => parseOperand p .unaryExpression .sizeofExpr (.symbol .lparen :: ts)
  | ts => parseOperand p .unaryExpression .sizeofExpr ts

def parseUnary : List Token → Option (Expr × List Token)
  | .symbol .sizeof :: rest => parseSizeof p rest
  | .symbol .plus :: rest => parseOperand p .castExpression .plus rest
  | .symbol s :: rest =>
      match s.unaryOp with
      | some op => parseOperand p .castExpression (.unaryOp op) rest
      | none => p .postfixExpression (.symbol s :: rest)
  | ts => p .postfixExpression ts

def parseCast : List Token → Option (Expr × List Token)
  | .symbol .lparen :: ts =>
      match parseTypeInParens ts with
      | some (a, rest) => parseOperand p .castExpression (.cast a) rest
      | none => p .unaryExpression (.symbol .lparen :: ts)
  | ts => p .unaryExpression ts

/-- Reads operators of `n` with their right operands, which are of the kind `m`. -/
def binaryLoop (n m : Nonterminal) : Nat → Expr → List Token → Option (Expr × List Token)
  | k + 1, left, .symbol s :: rest =>
      match s.operatorOf n with
      | some op =>
          (p m rest).bind fun (right, rest) => binaryLoop n m k (.binaryOp op left right) rest
      | none => some (left, .symbol s :: rest)
  | _, left, ts => some (left, ts)

/-- One nonterminal, where `p` reads those it leads to. -/
def parseStep : Reads
  | .primaryExpression, ts => parsePrimary p ts
  | .postfixExpression, ts =>
      (p .primaryExpression ts).bind fun (e, rest) => postfixLoop p rest.length e rest
  | .unaryExpression, ts => parseUnary p ts
  | .castExpression, ts => parseCast p ts
  | n, ts => n.unit.bind fun m =>
      (p m ts).bind fun (e, rest) => binaryLoop p n m rest.length e rest

end

/-- The parser, to a depth. -/
def parse : Nat → Reads
  | 0 => fun _ _ => none
  | fuel + 1 => parseStep (parse fuel)

/-- A whole text.  Between two tokens the parser goes down the chain of nonterminals once. -/
def parseTokens (ts : List Token) : Option Expr :=
  match parse (16 * ts.length + 16) .expression ts with
  | some (e, []) => some e
  | _ => none

/-! ## What is accepted is derived -/

theorem Symbol.binaryOp_eq_some_iff {s : Symbol} {op : BinaryOp} :
    s.binaryOp = some op ↔ op.symbol = s := by
  constructor
  · intro h
    cases s <;> cases h <;> rfl
  · rintro rfl
    cases op <;> rfl

theorem Symbol.unaryOp_eq_some_iff {s : Symbol} {op : UnaryOp} :
    s.unaryOp = some op ↔ op.symbol = s := by
  constructor
  · intro h
    cases s <;> cases h <;> rfl
  · rintro rfl
    cases op <;> rfl

theorem Symbol.operatorOf_eq_some_iff {n : Nonterminal} {s : Symbol} {op : BinaryOp} :
    s.operatorOf n = some op ↔ op.symbol = s ∧ op.nonterminal = n := by
  rw [operatorOf, Option.filter_eq_some_iff, binaryOp_eq_some_iff, decide_eq_true_iff]

theorem parseStars_sound {b : Attrs} {rest ts : List Token} : ∀ {a : Attrs} {us : List Token},
    DerivesType us a → parseStars a ts = (b, rest) →
      ∃ used, ts = used ++ rest ∧ DerivesType (us ++ used) b := by
  induction ts with
  | nil =>
      intro a us hus h
      cases h
      exact ⟨[], rfl, by rwa [List.append_nil]⟩
  | cons t ts ih =>
      intro a us hus h
      by_cases hstar : t = .symbol .star
      · subst hstar
        obtain ⟨used, hused, hderives⟩ := ih (.pointer hus) h
        exact ⟨.symbol .star :: used, by rw [hused]; rfl, by rwa [List.append_assoc] at hderives⟩
      · rw [parseStars] at h
        · cases h
          exact ⟨[], rfl, by rwa [List.append_nil]⟩
        · rintro _ h'
          cases h'
          exact hstar rfl

theorem parseType_sound {ts rest : List Token} {a : Attrs} (h : parseType ts = some (a, rest)) :
    ∃ used, ts = used ++ rest ∧ DerivesType used a := by
  unfold parseType at h
  split at h
  · next ts =>
      obtain ⟨used, hused, hderives⟩ := parseStars_sound .void (Option.some.inj h)
      exact ⟨.void :: used, by rw [hused]; rfl, hderives⟩
  · next b ts =>
      obtain ⟨used, hused, hderives⟩ := parseStars_sound (.type b) (Option.some.inj h)
      exact ⟨.type b :: used, by rw [hused]; rfl, hderives⟩
  · cases h

theorem parseTypeInParens_sound {ts rest : List Token} {a : Attrs}
    (h : parseTypeInParens ts = some (a, rest)) :
    ∃ used, ts = used ++ .symbol .rparen :: rest ∧ DerivesType used a := by
  unfold parseTypeInParens at h
  split at h
  · next htype =>
      cases h
      exact parseType_sound htype
  · cases h

/-- The tokens `ts` are a text of `e` and then `rest`. -/
def Begins (n : Nonterminal) (ts : List Token) (e : Expr) (rest : List Token) : Prop :=
  ∃ used, ts = used ++ rest ∧ Derives n used e

/-- What `p` reads is derived. -/
def Sound (p : Reads) : Prop :=
  ∀ {n : Nonterminal} {ts rest : List Token} {e : Expr}, p n ts = some (e, rest) →
    Begins n ts e rest

theorem Begins.unit {n m : Nonterminal} {ts rest : List Token} {e : Expr} (hunit : n.unit = some m)
    (h : Begins m ts e rest) : Begins n ts e rest := by
  obtain ⟨used, hused, hderives⟩ := h
  exact ⟨used, hused, .unit hunit hderives⟩

section
variable {p : Reads} {ts rest : List Token} {e : Expr}

theorem parsePrimary_sound (hp : Sound p) (h : parsePrimary p ts = some (e, rest)) :
    Begins .primaryExpression ts e rest := by
  unfold parsePrimary at h
  split at h
  · next name ts =>
      cases h
      exact ⟨[.identifier name], rfl, .identifier name⟩
  · next c ts =>
      cases h
      exact ⟨[.constant c], rfl, .constant c⟩
  · next ts =>
      split at h
      · next hread =>
          cases h
          obtain ⟨used, hused, hderives⟩ := hp hread
          exact ⟨.symbol .lparen :: used ++ [.symbol .rparen], by rw [hused]; simp, .paren hderives⟩
      · cases h
  · cases h

theorem postfixLoop_sound (hp : Sound p) : ∀ {k : Nat} {object : Expr} {us ts : List Token},
    Derives .postfixExpression us object → postfixLoop p k object ts = some (e, rest) →
      ∃ used, ts = used ++ rest ∧ Derives .postfixExpression (us ++ used) e := by
  intro k object us ts hus h
  fun_induction postfixLoop p k object ts generalizing us with
  | case1 k object ts index behind hread ih =>
      obtain ⟨usedIndex, hindex, hderives⟩ := hp hread
      obtain ⟨used, hused, hloop⟩ := ih (.item hus hderives) h
      exact ⟨.symbol .lbracket :: usedIndex ++ .symbol .rbracket :: used,
        by rw [hindex, hused]; simp, by simpa using hloop⟩
  | case2 k object ts hread => cases h
  | case3 k object name ts ih =>
      obtain ⟨used, hused, hloop⟩ := ih (.field name hus) h
      exact ⟨.symbol .dot :: .identifier name :: used, by rw [hused]; rfl, by simpa using hloop⟩
  | case4 k object name ts ih =>
      obtain ⟨used, hused, hloop⟩ := ih (.arrow name hus) h
      exact ⟨.symbol .ptrOp :: .identifier name :: used, by rw [hused]; rfl, by simpa using hloop⟩
  | case5 k object ts =>
      cases h
      exact ⟨[], rfl, by rwa [List.append_nil]⟩

theorem parseOperand_sound (hp : Sound p) {n m : Nonterminal} {node : Expr → Expr}
    {front : List Token}
    (rule : ∀ {us : List Token} {operand : Expr}, Derives m us operand →
      Derives n (front ++ us) (node operand))
    (h : parseOperand p m node ts = some (e, rest)) : Begins n (front ++ ts) e rest := by
  obtain ⟨⟨operand, behind⟩, hread, hnode⟩ := Option.map_eq_some_iff.mp h
  cases hnode
  obtain ⟨used, hused, hderives⟩ := hp hread
  exact ⟨front ++ used, by rw [hused, List.append_assoc], rule hderives⟩

theorem parseSizeof_sound (hp : Sound p) (h : parseSizeof p ts = some (e, rest)) :
    Begins .unaryExpression (.symbol .sizeof :: ts) e rest := by
  unfold parseSizeof at h
  split at h
  · next ts =>
      split at h
      · next htype =>
          cases h
          obtain ⟨used, hused, hderives⟩ := parseTypeInParens_sound htype
          exact ⟨.symbol .sizeof :: .symbol .lparen :: used ++ [.symbol .rparen],
            by rw [hused]; simp, .sizeofType hderives⟩
      · exact @parseOperand_sound _ _ _ _ hp _ _ _ [.symbol .sizeof] .sizeofExpr h
  · exact @parseOperand_sound _ _ _ _ hp _ _ _ [.symbol .sizeof] .sizeofExpr h

theorem parseUnary_sound (hp : Sound p) (h : parseUnary p ts = some (e, rest)) :
    Begins .unaryExpression ts e rest := by
  unfold parseUnary at h
  split at h
  · exact parseSizeof_sound hp h
  · exact @parseOperand_sound _ _ _ _ hp _ _ _ [.symbol .plus] .plus h
  · next s ts _ _ =>
      split at h
      · next op hop =>
          rw [← Symbol.unaryOp_eq_some_iff.mp hop]
          exact @parseOperand_sound _ _ _ _ hp _ _ _ [.symbol op.symbol] (.unaryOp op) h
      · exact (hp h).unit rfl
  · exact (hp h).unit rfl

theorem parseCast_sound (hp : Sound p) (h : parseCast p ts = some (e, rest)) :
    Begins .castExpression ts e rest := by
  unfold parseCast at h
  split at h
  · next ts =>
      split at h
      · next a behind htype =>
          obtain ⟨used, hused, htype⟩ := parseTypeInParens_sound htype
          have hcast := @parseOperand_sound _ _ _ _ hp _ _ _
            (.symbol .lparen :: used ++ [.symbol .rparen])
            (fun hderives => by simpa using Derives.cast htype hderives) h
          rw [hused]
          simpa using hcast
      · exact (hp h).unit rfl
  · exact (hp h).unit rfl

theorem binaryLoop_sound (hp : Sound p) {n m : Nonterminal} (hunit : n.unit = some m) :
    ∀ {k : Nat} {left : Expr} {us ts : List Token}, Derives n us left →
      binaryLoop p n m k left ts = some (e, rest) →
        ∃ used, ts = used ++ rest ∧ Derives n (us ++ used) e := by
  intro k left us ts hus h
  fun_induction binaryLoop p n m k left ts generalizing us with
  | case1 k left s ts op hop ih =>
      obtain ⟨rfl, rfl⟩ := Symbol.operatorOf_eq_some_iff.mp hop
      obtain ⟨⟨right, behind⟩, hread, hloop⟩ := Option.bind_eq_some_iff.mp h
      obtain ⟨usedRight, hright, hderives⟩ := hp hread
      obtain ⟨used, hused, hall⟩ := ih right behind (.binaryOp op hunit hus hderives) hloop
      exact ⟨.symbol op.symbol :: usedRight ++ used, by rw [hright, hused]; simp,
        by simpa using hall⟩
  | case2 k left s ts hop =>
      cases h
      exact ⟨[], rfl, by rwa [List.append_nil]⟩
  | case3 k left ts =>
      cases h
      exact ⟨[], rfl, by rwa [List.append_nil]⟩

theorem parseStep_of_rank {n m : Nonterminal} (hrank : 3 < n.rank) (hunit : n.unit = some m) :
    parseStep p n ts =
      (p m ts).bind fun (e, rest) => binaryLoop p n m rest.length e rest := by
  cases n with
  | primaryExpression => cases hunit
  | postfixExpression => exact absurd hrank (by decide)
  | unaryExpression => exact absurd hrank (by decide)
  | castExpression => exact absurd hrank (by decide)
  | _ =>
      cases hunit
      rfl

theorem parseStep_sound (hp : Sound p) : Sound (parseStep p) := by
  intro n ts rest e h
  by_cases hrank : 3 < n.rank
  · have hpred : n.rank = n.rank - 1 + 1 := by omega
    obtain ⟨m, hunit, _⟩ := Nonterminal.unit_of_rank hpred
    rw [parseStep_of_rank hrank hunit] at h
    obtain ⟨⟨left, behind⟩, hread, hloop⟩ := Option.bind_eq_some_iff.mp h
    obtain ⟨usedLeft, hleft, hderives⟩ := hp hread
    obtain ⟨used, hused, hall⟩ := binaryLoop_sound hp hunit (.unit hunit hderives) hloop
    exact ⟨usedLeft ++ used, by rw [hleft, hused, List.append_assoc], hall⟩
  · cases n with
    | primaryExpression => exact parsePrimary_sound hp h
    | postfixExpression =>
        obtain ⟨⟨object, behind⟩, hread, hloop⟩ := Option.bind_eq_some_iff.mp h
        obtain ⟨usedObject, hobject, hderives⟩ := hp hread
        obtain ⟨used, hused, hall⟩ := postfixLoop_sound hp (.unit rfl hderives) hloop
        exact ⟨usedObject ++ used, by rw [hobject, hused, List.append_assoc], hall⟩
    | unaryExpression => exact parseUnary_sound hp h
    | castExpression => exact parseCast_sound hp h
    | _ => exact absurd (by decide) hrank

end

theorem parse_sound (fuel : Nat) : Sound (parse fuel) := by
  induction fuel with
  | zero =>
      intro n ts rest e h
      cases h
  | succ fuel ih => exact parseStep_sound ih

end FlightRec.Expressions
