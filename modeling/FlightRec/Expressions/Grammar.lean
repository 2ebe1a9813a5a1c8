/-
# `FlightRec.Expressions.Grammar` — the grammar has one reading

What is derived is accepted by the parser, in front of any token that does not
continue it (`parse_complete`).  The grammar of examine/expressions/expr.y is thus
decided by a look at one token (`parseTokens_eq_some_iff`), a text has one derivation
(`Derives.unique`), and `expr_parse` returns one tree for it (`exprParse_eq_some_iff`).

The induction is on the derivation.  A chain of operators nests to the left, while the
parser goes through it in a loop: what carries the induction is that the parser, having
read the left part of a chain, is in the middle of its loop (`Resumes`).
-/
import FlightRec.Expressions.Parser

namespace FlightRec.Expressions

/-! ## What is derived is accepted -/

/-- The token continues what was read for `n`. -/
def Token.Continues (n : Nonterminal) : Token → Prop
  | .symbol s => (s ∈ [.lbracket, .dot, .ptrOp] ∧ 1 ≤ n.rank) ∨
      ∃ op : BinaryOp, op.symbol = s ∧ op.nonterminal.rank ≤ n.rank
  | _ => False

/-- No token that continues `n` is next. -/
def Stops (n : Nonterminal) (ts : List Token) : Prop := ∀ t ∈ ts.head?, ¬ t.Continues n

theorem Stops.of_rank_le {n m : Nonterminal} {ts : List Token} (h : Stops n ts)
    (hle : m.rank ≤ n.rank) : Stops m ts := by
  intro t ht hcont
  refine h t ht ?_
  cases t with
  | symbol s =>
      rcases hcont with ⟨hmem, hrank⟩ | ⟨op, hop, hrank⟩
      · exact .inl ⟨hmem, Nat.le_trans hrank hle⟩
      · exact .inr ⟨op, hop, Nat.le_trans hrank hle⟩
  | _ => exact hcont

theorem stops_nil (n : Nonterminal) : Stops n [] := by
  intro t ht
  cases ht

theorem stops_closing {s : Symbol} (hs : s = .rparen ∨ s = .rbracket) (n : Nonterminal)
    (ts : List Token) : Stops n (.symbol s :: ts) := by
  intro t ht hcont
  cases ht
  rcases hcont with ⟨hmem, _⟩ | ⟨op, hop, _⟩
  · rcases hs with rfl | rfl <;> simp at hmem
  · rcases hs with rfl | rfl <;> cases op <;> cases hop

theorem stops_operator {m : Nonterminal} {op : BinaryOp} (hunit : op.nonterminal.unit = some m)
    (ts : List Token) : Stops m (.symbol op.symbol :: ts) := by
  intro t ht hcont
  cases ht
  rcases hcont with ⟨hmem, _⟩ | ⟨op', hop, hrank⟩
  · cases op <;> simp [BinaryOp.symbol] at hmem
  · have heq : some op' = some op := by
      rw [← Symbol.binaryOp_eq_some_iff.mpr hop, ← Symbol.binaryOp_eq_some_iff.mpr rfl]
    cases heq
    cases op <;> cases hunit <;> exact absurd hrank (by decide)

theorem stops_primary (ts : List Token) : Stops .primaryExpression ts := by
  intro t _ hcont
  cases t with
  | symbol s =>
      rcases hcont with ⟨_, hrank⟩ | ⟨op, _, hrank⟩
      · exact absurd hrank (by decide)
      · cases op <;> exact absurd hrank (by decide)
  | _ => exact hcont

/-! ### The first tokens of a text -/

theorem Derives.parseType_append {n : Nonterminal} {ts : List Token} {e : Expr}
    (h : Derives n ts e) : ∀ rest, parseType (ts ++ rest) = none := by
  induction h with
  | unit _ _ ih => exact ih
  | binaryOp op _ _ _ ihleft _ =>
      intro rest
      rw [List.append_assoc]
      exact ihleft _
  | item _ _ ihobject _ =>
      intro rest
      simp only [List.append_assoc]
      exact ihobject _
  | field _ _ ih =>
      intro rest
      rw [List.append_assoc]
      exact ih _
  | arrow _ _ ih =>
      intro rest
      rw [List.append_assoc]
      exact ih _
  | _ =>
      intro rest
      rfl

/-- No type stands behind a parenthesis at the beginning. -/
def NotCast (ts : List Token) : Prop :=
  ∀ us, ts = .symbol .lparen :: us → parseTypeInParens us = none

theorem Derives.notCast {n : Nonterminal} {ts : List Token} {e : Expr} (h : Derives n ts e) :
    n.rank ≤ 2 → ∀ rest, NotCast (ts ++ rest) := by
  induction h with
  | @unit n m _ _ hunit _ ih =>
      intro hrank
      refine ih ?_
      cases n <;> cases hunit <;> first | exact absurd hrank (by decide) | decide
  | @paren ts e h _ =>
      rintro _ rest us hus
      have hus : ts ++ [.symbol .rparen] ++ rest = us := (List.cons.inj hus).2
      rw [← hus, parseTypeInParens, List.append_assoc, h.parseType_append]
  | item _ _ ihobject _ =>
      intro hrank rest
      simp only [List.append_assoc]
      exact ihobject (by decide) _
  | field _ _ ih =>
      intro hrank rest
      rw [List.append_assoc]
      exact ih (by decide) _
  | arrow _ _ ih =>
      intro hrank rest
      rw [List.append_assoc]
      exact ih (by decide) _
  | cast _ _ _ => exact fun hrank => absurd hrank (by decide)
  | binaryOp op _ _ _ _ _ =>
      intro hrank
      cases op <;> exact absurd hrank (by decide)
  | unaryOp op _ _ =>
      rintro _ rest us hus
      cases op <;> cases hus
  | _ =>
      rintro _ rest us hus
      cases hus

/-- The first token of a postfix expression. -/
def Token.opensPostfix : Token → Prop
  | .symbol s => s = .lparen
  | _ => True

theorem Derives.opensPostfix {n : Nonterminal} {ts : List Token} {e : Expr} (h : Derives n ts e) :
    n.rank ≤ 1 → ∃ t us, ts = t :: us ∧ t.opensPostfix := by
  induction h with
  | @unit n m _ _ hunit _ ih =>
      intro hrank
      refine ih ?_
      cases n <;> cases hunit <;> first | exact absurd hrank (by decide) | decide
  | identifier name => exact fun _ => ⟨_, _, rfl, trivial⟩
  | constant c => exact fun _ => ⟨_, _, rfl, trivial⟩
  | paren _ _ => exact fun _ => ⟨_, _, rfl, rfl⟩
  | item _ _ ihobject _ =>
      intro hrank
      obtain ⟨t, us, rfl, ht⟩ := ihobject (by decide)
      exact ⟨t, _, rfl, ht⟩
  | field _ _ ih =>
      intro hrank
      obtain ⟨t, us, rfl, ht⟩ := ih (by decide)
      exact ⟨t, _, rfl, ht⟩
  | arrow _ _ ih =>
      intro hrank
      obtain ⟨t, us, rfl, ht⟩ := ih (by decide)
      exact ⟨t, _, rfl, ht⟩
  | binaryOp op _ _ _ _ _ =>
      intro hrank
      cases op <;> exact absurd hrank (by decide)
  | _ => exact fun hrank => absurd hrank (by decide)

/-! ### Each reader reads what is derived -/

theorem DerivesType.parseType {ts : List Token} {a : Attrs} (h : DerivesType ts a) :
    ∀ rest, parseType (ts ++ rest) = some (parseStars a rest) := by
  induction h with
  | void => exact fun rest => rfl
  | type a => exact fun rest => rfl
  | pointer _ ih =>
      intro rest
      rw [List.append_assoc, ih]
      rfl

theorem DerivesType.parseTypeInParens {ts : List Token} {a : Attrs} (h : DerivesType ts a)
    (rest : List Token) : parseTypeInParens (ts ++ .symbol .rparen :: rest) = some (a, rest) := by
  rw [Expressions.parseTypeInParens, h.parseType]
  rfl

section
variable {p : Reads} {ts rest : List Token} {e : Expr}

theorem parseOperand_of_read {n : Nonterminal} (node : Expr → Expr)
    (h : p n ts = some (e, rest)) : parseOperand p n node ts = some (node e, rest) := by
  rw [parseOperand, h]
  rfl

theorem parseCast_of_notCast (h : NotCast ts) : parseCast p ts = p .unaryExpression ts := by
  unfold parseCast
  split
  · next ts => rw [h ts rfl]
  · rfl

theorem parseSizeof_of_notCast (h : NotCast ts) :
    parseSizeof p ts = parseOperand p .unaryExpression .sizeofExpr ts := by
  unfold parseSizeof
  split
  · next ts => rw [h ts rfl]
  · rfl

theorem parseUnary_of_opensPostfix {t : Token} (h : t.opensPostfix) :
    parseUnary p (t :: ts) = p .postfixExpression (t :: ts) := by
  cases t with
  | symbol s =>
      have hs : s = .lparen := h
      subst hs
      rfl
  | _ => rfl

theorem parseUnary_unaryOp (op : UnaryOp) :
    parseUnary p (.symbol op.symbol :: ts) =
      parseOperand p .castExpression (.unaryOp op) ts := by
  cases op <;> rfl

/-- How a nonterminal goes on behind a part of it. -/
def resume (p : Reads) (k : Nat) (e : Expr) (rest : List Token) :
    Nonterminal → Option (Expr × List Token)
  | .primaryExpression | .unaryExpression | .castExpression => some (e, rest)
  | .postfixExpression => postfixLoop p k e rest
  | n => n.unit.bind fun m => binaryLoop p n m k e rest

theorem resume_of_rank {n m : Nonterminal} (hrank : 3 < n.rank) (hunit : n.unit = some m)
    (k : Nat) : resume p k e rest n = binaryLoop p n m k e rest := by
  cases n with
  | primaryExpression => cases hunit
  | postfixExpression => exact absurd hrank (by decide)
  | unaryExpression => exact absurd hrank (by decide)
  | castExpression => exact absurd hrank (by decide)
  | _ =>
      cases hunit
      rfl

theorem postfixLoop_of_stops (h : Stops .postfixExpression rest) (k : Nat) :
    postfixLoop p k e rest = some (e, rest) := by
  have not_next : ∀ {s : Symbol} {us : List Token}, s ∈ [Symbol.lbracket, .dot, .ptrOp] →
      rest ≠ .symbol s :: us := by
    rintro s us hs rfl
    exact h _ rfl (.inl ⟨hs, by decide⟩)
  fun_cases postfixLoop p k e rest with
  | case1 => exact absurd rfl (not_next (by decide))
  | case2 => exact absurd rfl (not_next (by decide))
  | case3 => exact absurd rfl (not_next (by decide))
  | case4 => exact absurd rfl (not_next (by decide))
  | case5 => rfl

theorem binaryLoop_of_stops {n : Nonterminal} (h : Stops n rest) (m : Nonterminal) (k : Nat) :
    binaryLoop p n m k e rest = some (e, rest) := by
  fun_cases binaryLoop p n m k e rest with
  | case1 k _ s us op hop =>
      obtain ⟨rfl, rfl⟩ := Symbol.operatorOf_eq_some_iff.mp hop
      exact absurd (.inr ⟨op, rfl, Nat.le_refl _⟩) (h _ rfl)
  | case2 => rfl
  | case3 => rfl

theorem resume_of_stops {n : Nonterminal} (h : Stops n rest) (k : Nat) :
    resume p k e rest n = some (e, rest) := by
  by_cases hrank : 3 < n.rank
  · have hpred : n.rank = n.rank - 1 + 1 := by omega
    obtain ⟨m, hunit, _⟩ := Nonterminal.unit_of_rank hpred
    rw [resume_of_rank hrank hunit, binaryLoop_of_stops h]
  · cases n with
    | postfixExpression => exact postfixLoop_of_stops h k
    | primaryExpression => rfl
    | unaryExpression => rfl
    | castExpression => rfl
    | _ => exact absurd (by decide) hrank

theorem binaryLoop_operator {m : Nonterminal} {right : Expr} {behind : List Token} (op : BinaryOp)
    (k : Nat) (left : Expr) (h : p m rest = some (right, behind)) :
    binaryLoop p op.nonterminal m (k + 1) left (.symbol op.symbol :: rest) =
      binaryLoop p op.nonterminal m k (.binaryOp op left right) behind := by
  rw [binaryLoop, Symbol.operatorOf_eq_some_iff.mpr ⟨rfl, rfl⟩]
  show (p m rest).bind _ = _
  rw [h]
  rfl

end

/-- What a nonterminal reads first: the operand of its loop, if it has one. -/
def Nonterminal.operand : Nonterminal → Nonterminal
  | .primaryExpression => .primaryExpression
  | .unaryExpression => .unaryExpression
  | .castExpression => .castExpression
  | n => n.unit.getD n

theorem Nonterminal.rank_operand_le (n : Nonterminal) : n.operand.rank ≤ n.rank := by
  cases n <;> decide

theorem Nonterminal.rank_unit {n m : Nonterminal} (h : n.unit = some m) : n.rank = m.rank + 1 := by
  cases n <;> cases h <;> rfl

theorem Nonterminal.operand_of_rank {n m : Nonterminal} (hrank : 3 < n.rank)
    (hunit : n.unit = some m) : n.operand = m := by
  cases n <;> cases hunit <;> first | exact absurd hrank (by decide) | rfl

theorem BinaryOp.rank_nonterminal (op : BinaryOp) : 3 < op.nonterminal.rank := by
  cases op <;> decide

/-- The parser has read `ts` as `e` and goes on from there. -/
def Resumes (n : Nonterminal) (ts : List Token) (e : Expr) : Prop :=
  ∀ (fuel : Nat) (rest : List Token), 16 * ts.length + n.rank ≤ fuel → Stops n.operand rest →
    ∃ k, rest.length ≤ k ∧
      parse (fuel + 1) n (ts ++ rest) = resume (parse fuel) k e rest n

section
variable {n m : Nonterminal} {ts us : List Token} {e : Expr}

/-- In front of a token that does not continue it, `ts` is all that is read. -/
theorem Resumes.parse_eq (h : Resumes n ts e) {fuel : Nat} {rest : List Token}
    (hfuel : 16 * ts.length + n.rank < fuel) (hstops : Stops n rest) :
    parse fuel n (ts ++ rest) = some (e, rest) := by
  obtain ⟨fuel, rfl⟩ : ∃ k, fuel = k + 1 := ⟨fuel - 1, by omega⟩
  obtain ⟨k, _, hparse⟩ := h fuel rest (by omega) (hstops.of_rank_le n.rank_operand_le)
  rw [hparse, resume_of_stops hstops]

theorem Resumes.unit (hunit : n.unit = some m) (hderives : Derives m ts e) (h : Resumes m ts e) :
    Resumes n ts e := by
  intro fuel rest hfuel hstops
  have hrank := Nonterminal.rank_unit hunit
  by_cases hloop : 3 < n.rank
  · rw [Nonterminal.operand_of_rank hloop hunit] at hstops
    refine ⟨rest.length, Nat.le_refl _, ?_⟩
    rw [resume_of_rank hloop hunit]
    show parseStep (parse fuel) n (ts ++ rest) = _
    rw [parseStep_of_rank hloop hunit, h.parse_eq (by omega) hstops]
    rfl
  · refine ⟨rest.length, Nat.le_refl _, ?_⟩
    cases n with
    | primaryExpression => cases hunit
    | postfixExpression =>
        cases hunit
        show (parse fuel .primaryExpression (ts ++ rest)).bind _ = _
        rw [h.parse_eq (by omega) hstops]
        rfl
    | unaryExpression =>
        cases hunit
        obtain ⟨t, us, rfl, ht⟩ := hderives.opensPostfix (by decide)
        show parseUnary (parse fuel) (t :: (us ++ rest)) = _
        rw [parseUnary_of_opensPostfix ht, ← List.cons_append,
          h.parse_eq (by omega) (hstops.of_rank_le (by decide))]
        rfl
    | castExpression =>
        cases hunit
        show parseCast (parse fuel) (ts ++ rest) = _
        rw [parseCast_of_notCast (hderives.notCast (by decide) rest),
          h.parse_eq (by omega) (hstops.of_rank_le (by decide))]
        rfl
    | _ => exact absurd (by decide) hloop

theorem Resumes.parse_closed (h : Resumes .expression ts e) {s : Symbol}
    (hs : s = .rparen ∨ s = .rbracket) {fuel : Nat} (hfuel : 16 * (ts.length + 1) ≤ fuel)
    (rest : List Token) :
    parse fuel .expression (ts ++ .symbol s :: rest) = some (e, .symbol s :: rest) := by
  refine h.parse_eq ?_ (stops_closing hs _ rest)
  have hrank : Nonterminal.rank .expression = 14 := rfl
  omega

theorem Resumes.paren (h : Resumes .expression ts e) :
    Resumes .primaryExpression (.symbol .lparen :: ts ++ [.symbol .rparen]) e := by
  intro fuel rest hfuel _
  rw [List.length_append, List.length_cons, List.length_singleton] at hfuel
  have hread := h.parse_closed (.inl rfl) (by omega : _ ≤ fuel) rest
  refine ⟨rest.length, Nat.le_refl _, ?_⟩
  show parsePrimary (parse fuel) (.symbol .lparen :: (ts ++ [.symbol .rparen] ++ rest)) = _
  rw [List.append_assoc, List.singleton_append, parsePrimary, hread]
  rfl

theorem Resumes.item {object : Expr} (hobject : Resumes .postfixExpression ts object)
    (h : Resumes .expression us e) :
    Resumes .postfixExpression (ts ++ .symbol .lbracket :: us ++ [.symbol .rbracket])
      (.item object e) := by
  intro fuel rest hfuel _
  simp only [List.length_append, List.length_cons, List.length_nil] at hfuel
  obtain ⟨k, hk, hparse⟩ := hobject fuel (.symbol .lbracket :: (us ++ .symbol .rbracket :: rest))
    (by omega) (stops_primary _)
  have hread := h.parse_closed (.inr rfl) (by omega : _ ≤ fuel) rest
  simp only [List.length_cons, List.length_append] at hk
  obtain ⟨k, rfl⟩ : ∃ j, k = j + 1 := ⟨k - 1, by omega⟩
  refine ⟨k, by omega, ?_⟩
  simp only [List.append_assoc, List.cons_append, List.nil_append]
  rw [hparse, resume, postfixLoop, hread]
  rfl

theorem Resumes.member {object node : Expr} (hobject : Resumes .postfixExpression ts object)
    {s : Symbol} {name : String}
    (hloop : ∀ (p : Reads) (k : Nat) (rest : List Token),
      postfixLoop p (k + 1) object (.symbol s :: .identifier name :: rest) =
        postfixLoop p k node rest) :
    Resumes .postfixExpression (ts ++ [.symbol s, .identifier name]) node := by
  intro fuel rest hfuel _
  simp only [List.length_append, List.length_cons, List.length_nil] at hfuel
  obtain ⟨k, hk, hparse⟩ := hobject fuel (.symbol s :: .identifier name :: rest) (by omega)
    (stops_primary _)
  simp only [List.length_cons] at hk
  obtain ⟨k, rfl⟩ : ∃ j, k = j + 1 := ⟨k - 1, by omega⟩
  refine ⟨k, by omega, ?_⟩
  simp only [List.append_assoc, List.cons_append, List.nil_append]
  rw [hparse, resume, hloop]
  rfl

theorem Resumes.prefixed {s : Symbol} {node : Expr → Expr} (h : Resumes m ts e)
    (hm : m.rank ≤ 3) (hstops : ∀ rest, Stops .unaryExpression rest → Stops m rest)
    (hread : ∀ (p : Reads) (rest : List Token),
      parseUnary p (.symbol s :: (ts ++ rest)) = parseOperand p m node (ts ++ rest)) :
    Resumes .unaryExpression (.symbol s :: ts) (node e) := by
  intro fuel rest hfuel hrest
  rw [List.length_cons] at hfuel
  refine ⟨rest.length, Nat.le_refl _, ?_⟩
  show parseUnary (parse fuel) (.symbol s :: (ts ++ rest)) = _
  rw [hread, parseOperand_of_read node (h.parse_eq (by omega) (hstops rest hrest))]
  rfl

/-- An operator that does not continue a unary expression does not continue a cast. -/
theorem stops_cast_of_unary (rest : List Token) (h : Stops .unaryExpression rest) :
    Stops .castExpression rest := by
  intro t ht hcont
  refine h t ht ?_
  cases t with
  | symbol s =>
      rcases hcont with ⟨hmem, _⟩ | ⟨op, _, hrank⟩
      · exact .inl ⟨hmem, by decide⟩
      · exact absurd op.rank_nonterminal (Nat.not_lt.mpr hrank)
  | _ => exact hcont

theorem Resumes.sizeofType {a : Attrs} (h : DerivesType ts a) :
    Resumes .unaryExpression (.symbol .sizeof :: .symbol .lparen :: ts ++ [.symbol .rparen])
      (.sizeofType a) := by
  intro fuel rest _ _
  refine ⟨rest.length, Nat.le_refl _, ?_⟩
  show parseSizeof (parse fuel) (.symbol .lparen :: (ts ++ [.symbol .rparen] ++ rest)) = _
  rw [List.append_assoc, List.singleton_append, parseSizeof, h.parseTypeInParens]
  rfl

theorem Resumes.cast {a : Attrs} (htype : DerivesType ts a) (h : Resumes .castExpression us e) :
    Resumes .castExpression (.symbol .lparen :: ts ++ .symbol .rparen :: us) (.cast a e) := by
  intro fuel rest hfuel hstops
  simp only [List.length_append, List.length_cons] at hfuel
  refine ⟨rest.length, Nat.le_refl _, ?_⟩
  show parseCast (parse fuel) (.symbol .lparen :: (ts ++ .symbol .rparen :: us ++ rest)) = _
  rw [List.append_assoc, List.cons_append, parseCast, htype.parseTypeInParens]
  exact parseOperand_of_read (.cast a) (h.parse_eq (by omega) hstops)

theorem Resumes.binaryOp {left right : Expr} (op : BinaryOp) (hunit : op.nonterminal.unit = some m)
    (hleft : Resumes op.nonterminal ts left) (hright : Resumes m us right) :
    Resumes op.nonterminal (ts ++ .symbol op.symbol :: us) (.binaryOp op left right) := by
  intro fuel rest hfuel hstops
  have hrank := Nonterminal.rank_unit hunit
  have hoperand := Nonterminal.operand_of_rank op.rank_nonterminal hunit
  rw [List.length_append, List.length_cons] at hfuel
  rw [hoperand] at hstops
  obtain ⟨k, hk, hparse⟩ := hleft fuel (.symbol op.symbol :: (us ++ rest)) (by omega)
    (hoperand ▸ stops_operator hunit _)
  simp only [List.length_cons, List.length_append] at hk
  obtain ⟨k, rfl⟩ : ∃ j, k = j + 1 := ⟨k - 1, by omega⟩
  refine ⟨k, by omega, ?_⟩
  rw [List.append_assoc, List.cons_append, hparse, resume_of_rank op.rank_nonterminal hunit,
    resume_of_rank op.rank_nonterminal hunit]
  exact binaryLoop_operator op k left (hright.parse_eq (by omega) hstops)

end

theorem parse_resumes {n : Nonterminal} {ts : List Token} {e : Expr} (h : Derives n ts e) :
    Resumes n ts e := by
  induction h with
  | unit hunit h ih => exact ih.unit hunit h
  | identifier name => exact fun fuel rest _ _ => ⟨rest.length, Nat.le_refl _, rfl⟩
  | constant c => exact fun fuel rest _ _ => ⟨rest.length, Nat.le_refl _, rfl⟩
  | paren _ ih => exact ih.paren
  | item _ _ ihobject ihindex => exact ihobject.item ihindex
  | field name _ ih => exact ih.member fun _ _ _ => rfl
  | arrow name _ ih => exact ih.member fun _ _ _ => rfl
  | plus _ ih => exact ih.prefixed (by decide) stops_cast_of_unary fun _ _ => rfl
  | unaryOp op _ ih =>
      exact ih.prefixed (by decide) stops_cast_of_unary fun _ _ => parseUnary_unaryOp op
  | sizeofExpr h ih =>
      exact ih.prefixed (by decide) (fun _ => id) fun _ rest =>
        parseSizeof_of_notCast (h.notCast (by decide) rest)
  | sizeofType htype => exact .sizeofType htype
  | cast htype _ ih => exact .cast htype ih
  | binaryOp op hunit _ _ ihleft ihright => exact .binaryOp op hunit ihleft ihright

/-- What is derived is accepted, in front of anything that does not continue it. -/
theorem parse_complete {n : Nonterminal} {ts rest : List Token} {e : Expr} (h : Derives n ts e)
    (hstops : Stops n rest) {fuel : Nat} (hfuel : 16 * ts.length + n.rank < fuel) :
    parse fuel n (ts ++ rest) = some (e, rest) :=
  (parse_resumes h).parse_eq hfuel hstops

/-! ## One reading -/

theorem Derives.unique {n : Nonterminal} {ts : List Token} {e e' : Expr} (h : Derives n ts e)
    (h' : Derives n ts e') : e = e' := by
  have hfuel := Nat.lt_succ_self (16 * ts.length + n.rank)
  have hread := (parse_complete h (stops_nil n) hfuel).symm.trans
    (parse_complete h' (stops_nil n) hfuel)
  exact congrArg Prod.fst (Option.some.inj hread)

theorem parseTokens_eq_some_iff {ts : List Token} {e : Expr} :
    parseTokens ts = some e ↔ Derives .expression ts e := by
  constructor
  · intro h
    unfold parseTokens at h
    split at h
    · next hread =>
        cases h
        obtain ⟨used, hused, hderives⟩ := parse_sound _ hread
        rw [hused, List.append_nil]
        exact hderives
    · cases h
  · intro h
    have hrank : Nonterminal.rank .expression = 14 := rfl
    have hread := parse_complete h (stops_nil _)
      (by omega : _ < 16 * ts.length + 16)
    rw [List.append_nil] at hread
    rw [parseTokens, hread]

/-- `expr_parse`, with the parser in place of the one that Bison generates. -/
def exprParse (T : Tables) (scope : Nat) (text : List Lexeme) : Option AstNode := do
  let tokens ← (text.mapM (yylex T)).toOption
  let e ← parseTokens tokens
  (e.ast T scope).toOption

theorem toOption_eq_some_iff {ε α : Type*} {x : Except ε α} {a : α} :
    x.toOption = some a ↔ x = .ok a := by
  cases x with
  | error e => simp [Except.toOption]
  | ok b => simp [Except.toOption]

/-- **One tree for a text.**  That `expr_parse` accepts a text with a tree is decided by
the parser, which reads each token once. -/
theorem exprParse_eq_some_iff {T : Tables} {scope : Nat} {text : List Lexeme} {ast : AstNode} :
    exprParse T scope text = some ast ↔ ExprParse T scope text ast := by
  simp only [exprParse, Option.bind_eq_bind, Option.bind_eq_some_iff, toOption_eq_some_iff,
    parseTokens_eq_some_iff, ExprParse]
  constructor
  · rintro ⟨tokens, hlex, e, hderives, hast⟩
    exact ⟨tokens, e, hlex, hderives, hast⟩
  · rintro ⟨tokens, e, hlex, hderives, hast⟩
    exact ⟨tokens, hlex, e, hderives, hast⟩

end FlightRec.Expressions
