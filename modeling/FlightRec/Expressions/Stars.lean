/-
# `FlightRec.Expressions.Stars` — names with leading stars

`'*'` is read as a multiplication between two operands and as a dereference before one.
Where stars stand before a name, each of them is a dereference (`Derives.of_starTokens`):
no expression ends with a star that could be a left operand.  The action takes one from
the indirection of its operand and refuses an operand that has none left (`stars_ast`).
-/
import FlightRec.Expressions.Parse

namespace FlightRec.Expressions

/-- The expression with so many stars before it. -/
def stars : Nat → Expr → Expr
  | 0, e => e
  | k + 1, e => .unaryOp .deref (stars k e)

/-- The tokens of a name with so many stars before it. -/
def starTokens (k : Nat) (name : String) : List Token :=
  List.replicate k (.symbol .star) ++ [.identifier name]

section
variable {n : Nonterminal} {ts us : List Token} {e : Expr} {k : Nat} {name : String}

theorem derives_stars (name : String) :
    ∀ k, Derives .castExpression (starTokens k name) (stars k (.identifier name))
  | 0 => (Derives.identifier name).ofPrimary _
  | k + 1 => .unit rfl (.unaryOp .deref (derives_stars name k))

theorem Derives.getLast_ne_star (h : Derives n ts e) : ts.getLast? ≠ some (.symbol .star) := by
  have hlast (xs : List Token) {ys : List Token} (hys : ys ≠ [])
      (ih : ys.getLast? ≠ some (.symbol .star)) : (xs ++ ys).getLast? ≠ some (.symbol .star) := by
    rwa [List.getLast?_append_of_ne_nil _ hys]
  have hend (xs : List Token) {t : Token} (ht : t ≠ .symbol .star) :
      (xs ++ [t]).getLast? ≠ some (.symbol .star) := by
    rw [List.getLast?_concat]
    exact fun h => ht (Option.some.inj h)
  induction h with
  | unit _ _ ih => exact ih
  | identifier => exact hend [] nofun
  | constant => exact hend [] nofun
  | paren => exact hend _ nofun
  | item => exact hend _ nofun
  | field => exact hlast _ (List.cons_ne_nil _ _) (hend [_] nofun)
  | arrow => exact hlast _ (List.cons_ne_nil _ _) (hend [_] nofun)
  | plus h ih => exact hlast [_] h.ne_nil ih
  | unaryOp op h ih => exact hlast [_] h.ne_nil ih
  | sizeofExpr h ih => exact hlast [_] h.ne_nil ih
  | sizeofType => exact hend _ nofun
  | cast _ h ih => exact hlast _ (List.cons_ne_nil _ _) (hlast [_] h.ne_nil ih)
  | binaryOp op _ _ hright _ ih => exact hlast _ (List.cons_ne_nil _ _) (hlast [_] hright.ne_nil ih)

theorem symbol_of_starTokens {s : Symbol} (h : .symbol s ∈ starTokens k name) : s = .star := by
  rcases List.mem_append.mp h with h | h
  · cases List.eq_of_mem_replicate h
    rfl
  · cases List.mem_singleton.mp h

theorem prefix_starTokens (hus : us ≠ []) (h : ts ++ us = starTokens k name) :
    ∀ t ∈ ts, t = .symbol .star := by
  have hinit : ts ++ us.dropLast = List.replicate k (.symbol .star) := by
    rw [← List.dropLast_append_of_ne_nil hus, h, starTokens, List.dropLast_concat]
  intro t ht
  exact List.eq_of_mem_replicate (hinit ▸ List.mem_append_left _ ht)

/-- A name with stars before it is derived in one way: no star multiplies. -/
theorem Derives.of_starTokens (h : Derives n ts e) :
    ∀ k, ts = starTokens k name → e = stars k (.identifier name) := by
  -- any symbol but a star rules the production out
  have hsymbol {s : Symbol} {k : Nat} {ts : List Token} (hts : ts = starTokens k name)
      (hs : .symbol s ∈ ts) : s = .star := symbol_of_starTokens (hts ▸ hs)
  induction h with
  | unit _ _ ih => exact ih
  | identifier name' =>
      intro k hts
      cases k with
      | zero =>
          cases hts
          rfl
      | succ k => cases hts
  | constant c =>
      intro k hts
      cases k <;> cases hts
  | unaryOp op _ ih =>
      intro k hts
      cases k with
      | zero => cases hts
      | succ k =>
          obtain ⟨hop, hrest⟩ := List.cons_eq_cons.mp hts
          have hderef : op = .deref := by
            cases op <;> first | rfl | cases hop
          rw [hderef, ih k hrest]
          rfl
  | binaryOp op _ hleft _ =>
      intro k hts
      have hstars := prefix_starTokens (List.cons_ne_nil _ _) hts
      refine absurd ?_ hleft.getLast_ne_star
      rw [List.getLast?_eq_some_getLast hleft.ne_nil, hstars _ (List.getLast_mem _)]
  | paren => exact fun k hts => nomatch hsymbol hts List.mem_cons_self
  | plus => exact fun k hts => nomatch hsymbol hts List.mem_cons_self
  | sizeofExpr => exact fun k hts => nomatch hsymbol hts List.mem_cons_self
  | sizeofType => exact fun k hts => nomatch hsymbol hts List.mem_cons_self
  | cast => exact fun k hts => nomatch hsymbol hts List.mem_cons_self
  | item => exact fun k hts => nomatch hsymbol (s := .lbracket) hts (by simp)
  | field => exact fun k hts => nomatch hsymbol (s := .dot) hts (by simp)
  | arrow => exact fun k hts => nomatch hsymbol (s := .ptrOp) hts (by simp)

theorem stars_ast_error {T : Tables} {scope : Nat} {msg : String}
    (he : e.ast T scope = .error msg) : ∀ k, (stars k e).ast T scope = .error msg
  | 0 => he
  | k + 1 => by
      have hbind : (stars (k + 1) e).ast T scope =
          ((stars k e).ast T scope).bind (unaryAction .deref) := rfl
      rw [hbind, stars_ast_error he k]
      rfl

theorem stars_ast {T : Tables} {scope m : Nat} {node : AstNode} (he : e.ast T scope = .ok node)
    (hm : node.indirect = m) : ∀ k,
      (k ≤ m → ∃ ast, (stars k e).ast T scope = .ok ast ∧ ast.indirect = (m - k : Nat)) ∧
        (m < k → ∀ ast, (stars k e).ast T scope ≠ .ok ast)
  | 0 => ⟨fun _ => ⟨node, he, hm⟩, fun h => absurd h (Nat.not_lt_zero m)⟩
  | k + 1 => by
      obtain ⟨haccepts, hrejects⟩ := stars_ast he hm k
      have hbind : (stars (k + 1) e).ast T scope =
          ((stars k e).ast T scope).bind (unaryAction .deref) := rfl
      rw [hbind]
      constructor
      · intro hk
        obtain ⟨ast, hast, hindirect⟩ := haccepts (Nat.le_of_succ_le hk)
        have hne : ast.indirect ≠ 0 := by
          rw [hindirect]
          omega
        refine ⟨_, by rw [hast, Except.bind, unaryAction, if_neg hne], ?_⟩
        change ast.indirect - 1 = _
        rw [hindirect]
        omega
      · intro hk ast
        rcases Nat.lt_or_ge m k with hlt | hge
        · cases hast : (stars k e).ast T scope with
          | error msg => nofun
          | ok ast => exact absurd hast (hrejects hlt ast)
        · obtain ⟨ast', hast, hindirect⟩ := haccepts hge
          have hzero : ast'.indirect = 0 := by
            rw [hindirect]
            omega
          rw [hast, Except.bind, unaryAction, if_pos hzero]
          nofun

end

end FlightRec.Expressions
