/-
# `FlightRec.Expressions.Lexer` — the text of an expression

The rules of examine/expressions/expr.l, in the order of the source, and `expr_parse` on
the characters of a text.  Flex makes the scanner: it takes the longest match, and of
rules that match the same the first.  A character stands for its bytes in UTF-8: the
rules tell no two bytes apart that are not ASCII.

    no text reaches flex's own rule, which would write on stdout    (`longest_rules`)
    a text of words with blanks between them is read as its words   (`exprParseText_layout`)

A type of several words, or `struct` with its name, is one word of the scanner with
blanks in it.  So two words can become one: `unsigned` in front of `long` does.  In what
the grammar derives nothing but an operator or a bracket stands behind a name or a type,
and no word goes on with these.
-/
import FlightRec.Expressions.Grammar
import FlightRec.Expressions.IntLiterals
import FlightRec.Expressions.StringLiterals
import FlightRec.Lib.Scanner

namespace FlightRec.Expressions

open IntLiterals (isD isO isH)
open Numerals Scanner Scanner.Pattern

/-! ## Definitions of the lexer -/

/-- `{L}` -/
def isL (c : Char) : Bool := ('a' ≤ c ∧ c ≤ 'z') ∨ ('A' ≤ c ∧ c ≤ 'Z') ∨ c = '_'

def blanks : List Char := [' ', '\t', '\x0b', '\n', '\x0c']

namespace Lexer

/-- `{S}` -/
def s : Pattern Char := oneOf blanks

def d : Pattern Char := .cls isD

def o : Pattern Char := .cls isO

def l : Pattern Char := .cls isL

def h : Pattern Char := .cls isH

/-- Characters in double quotes. -/
def quoted (text : String) : Pattern Char := lit text.toList

/-- `[+-]?{D}+` behind one of the characters. -/
def exponent (marks : List Char) : Pattern Char :=
  .seq (oneOf marks) (.seq (opt (oneOf ['+', '-'])) (plus d))

/-- `{E}` -/
def e : Pattern Char := exponent ['E', 'e']

/-- `{P}` -/
def p : Pattern Char := exponent ['P', 'p']

/-- `{FS}` -/
def fs : Pattern Char := oneOf ['f', 'F', 'l', 'L']

/-- `(u|U)` -/
def unsignedMark : Pattern Char := oneOf ['u', 'U']

/-- `(l|L|ll|LL)` -/
def longMark : Pattern Char :=
  .alt (oneOf ['l', 'L']) (.alt (quoted "ll") (quoted "LL"))

/-- `{IS}` -/
def is : Pattern Char :=
  .alt unsignedMark (.alt (.seq (opt unsignedMark) longMark) (.seq longMark unsignedMark))

/-- `{L}({L}|{D})*` -/
def name : Pattern Char := .seq l (.star (.alt l d))

/-- `{S}+`, and what is behind it. -/
def behind (r : Pattern Char) : Pattern Char := .seq (plus s) r

/-- `({S}+"int")?` -/
def int : Pattern Char := opt (behind (quoted "int"))

/-- `("signed"{S}+)?` -/
def signed (r : Pattern Char) : Pattern Char := .seq (opt (.seq (quoted "signed") (plus s))) r

/-- `0[xX]` -/
def hexMark (r : Pattern Char) : Pattern Char := .seq (.char '0') (.seq (oneOf ['x', 'X']) r)

/-! ## Actions -/

/-- `ltrim` -/
def ltrim (source : List Char) : List Char := source.dropWhile isSpace

/-- The bytes of a text, as the actions read them. -/
def bytes (yytext : List Char) : List UInt8 := Printf.bytes (String.ofList yytext)

def structOrUnion (keyword : String) (yytext : List Char) : Action Lexeme :=
  .token (.structOrUnion (String.ofList (ltrim (yytext.drop keyword.length))))

/-- `strtol(yytext + skip, NULL, base)` -/
def integer (skip base : Nat) (yytext : List Char) : Action Lexeme :=
  .token (.constant (.integer (BitVec.ofInt 64 (strtol (yytext.drop skip) base))))

/-- `decode_char(yytext + 2, NULL)`: a `char` has a sign. -/
def character (yytext : List Char) : Action Lexeme :=
  let decoded := (StringLiterals.decodeChar (bytes (yytext.drop 2))).1
  .token (.constant (.integer (decoded.toBitVec.signExtend 64)))

/-- `decode_string(yytext)`.  Where it stores behind its buffer there is no result. -/
def string (yytext : List Char) : Action Lexeme :=
  match (StringLiterals.decodeString (bytes yytext)).bind CString.stringAt with
  | some value =>
      match String.fromUTF8? ⟨value.toArray⟩ with
      | some text => .token (.constant (.string text))
      | none => .reject
  | none => .reject

end Lexer

/-! ## The rules -/

section
open Lexer

def sizeofRule : Rule Char Lexeme := ⟨quoted "sizeof", fun _ => .token (.symbol .sizeof)⟩

/-- The names of built-in types. -/
def basicPatterns : List (Pattern Char × BasicType) :=
  [(quoted "float", .float),
    (quoted "double", .double),
    (quoted "long double", .longDouble),
    (.seq (quoted "unsigned") (behind (.seq (quoted "long")
      (behind (.seq (quoted "long") int)))), .unsignedLongLong),
    (.seq (quoted "unsigned") (behind (.seq (quoted "long") int)), .unsignedLong),
    (.seq (quoted "unsigned") (behind (.seq (quoted "short") int)), .unsignedShort),
    (.seq (quoted "unsigned") (behind (quoted "char")), .unsignedChar),
    (.seq (quoted "unsigned") int, .unsignedInt),
    (quoted "uint64_t", .uint64),
    (quoted "uint32_t", .uint32),
    (quoted "uint16_t", .uint16),
    (quoted "uint8_t", .uint8),
    (signed (.seq (quoted "long") (behind (.seq (quoted "long") int))), .signedLongLong),
    (signed (.seq (quoted "long") int), .signedLong),
    (signed (quoted "int"), .signedInt),
    (signed (.seq (quoted "short") int), .signedShort),
    (signed (quoted "char"), .signedChar),
    (quoted "signed", .signedInt),
    (quoted "int64_t", .int64),
    (quoted "int32_t", .int32),
    (quoted "int16_t", .int16),
    (quoted "int8_t", .int8)]

def typeRules : List (Rule Char Lexeme) :=
  [⟨quoted "void", fun _ => .token .void⟩,
    ⟨.seq (quoted "struct") (behind name), structOrUnion "struct"⟩,
    ⟨.seq (quoted "union") (behind name), structOrUnion "union"⟩]
    ++ basicPatterns.map fun (r, t) => ⟨r, fun _ => .token (.basicType t)⟩

def integerRules : List (Rule Char Lexeme) :=
  [⟨hexMark (.seq (plus h) (opt is)), integer 2 16⟩,
    ⟨.seq (.char '0') (.seq (oneOf ['b', 'B']) (plus (oneOf ['0', '1']))), integer 2 2⟩,
    ⟨.seq (.char '0') (.seq (.star o) (opt is)), integer 0 8⟩,
    ⟨.seq (.cls fun c => '1' ≤ c ∧ c ≤ '9') (.seq (.star d) (opt is)), integer 0 10⟩,
    ⟨.seq (quoted "'\\") (.seq o (.seq (opt o) (.seq (opt o) (.char '\'')))), character⟩,
    ⟨.seq (quoted "'\\x") (.seq h (.seq (opt h) (.char '\''))), character⟩]

def floatPatterns : List (Pattern Char) :=
  [.seq (plus d) (.seq e (opt fs)),
    .seq (.star d) (.seq (.char '.') (.seq (plus d) (.seq (opt e) (opt fs)))),
    .seq (plus d) (.seq (.char '.') (.seq (.star d) (.seq (opt e) (opt fs)))),
    hexMark (.seq (plus h) (.seq p (opt fs))),
    hexMark (.seq (.star h) (.seq (.char '.') (.seq (plus h) (.seq (opt p) (opt fs))))),
    hexMark (.seq (plus h) (.seq (.char '.') (.seq (.star h) (.seq (opt p) (opt fs)))))]

/-- The conversion of numbers with a point or an exponent is `strtod(3)`. -/
def constantRules (strtod : List Char → BitVec 64) : List (Rule Char Lexeme) :=
  integerRules
    ++ floatPatterns.map
      (fun r => ⟨r, fun yytext => .token (.constant (.floating (strtod yytext)))⟩)
    ++ [⟨quoted "NULL", fun _ => .token (.constant .null)⟩]

/-- `\\.|[^\\"\n]` -/
def stringItem : Pattern Char :=
  .alt (.seq (.char '\\') (.cls (· ≠ '\n'))) (.cls fun c => c ≠ '\\' ∧ c ≠ '"' ∧ c ≠ '\n')

def stringRule : Rule Char Lexeme :=
  ⟨.seq (.char '"') (.seq (.star stringItem) (.char '"')), Lexer.string⟩

def wordRule : Rule Char Lexeme :=
  ⟨name, fun yytext => .token (.word (String.ofList yytext))⟩

def symbolPatterns : List (Pattern Char × Symbol) :=
  [(quoted ">>", .rightOp), (quoted "<<", .leftOp), (quoted "->", .ptrOp), (quoted "&&", .andOp),
    (quoted "||", .orOp), (quoted "<=", .leOp), (quoted ">=", .geOp), (quoted "==", .eqOp),
    (quoted "!=", .neOp), (quoted "(", .lparen), (quoted ")", .rparen),
    (.alt (quoted "[") (quoted "<:"), .lbracket), (.alt (quoted "]") (quoted ":>"), .rbracket),
    (quoted ".", .dot), (quoted "&", .amp), (quoted "!", .bang), (quoted "~", .tilde),
    (quoted "-", .minus), (quoted "+", .plus), (quoted "*", .star), (quoted "/", .slash),
    (quoted "%", .percent), (quoted "<", .lt), (quoted ">", .gt), (quoted "^", .caret),
    (quoted "|", .bar)]

def symbolRules : List (Rule Char Lexeme) :=
  symbolPatterns.map fun (r, s) => ⟨r, fun _ => .token (.symbol s)⟩

/-- Blanks, and `.`, whose action is `yyerror`. -/
def lastRules : List (Rule Char Lexeme) :=
  [⟨s, fun _ => .skip⟩, ⟨.cls (· ≠ '\n'), fun _ => .reject⟩]

end

section
variable (strtod : List Char → BitVec 64)

def rules : List (Rule Char Lexeme) :=
  sizeofRule :: typeRules ++ constantRules strtod ++ stringRule :: wordRule :: symbolRules
    ++ lastRules

/-- All but the one for string literals. -/
def otherRules : List (Rule Char Lexeme) :=
  sizeofRule :: typeRules ++ constantRules strtod ++ wordRule :: symbolRules ++ lastRules

/-- `yy_scan_string` reads the text up to its terminator. -/
def lex (text : List Char) : Option (List Lexeme) :=
  scanText (rules strtod) (text.takeWhile (· ≠ '\x00'))

/-- `expr_parse` -/
def exprParseText (T : Tables) (scope : Nat) (text : List Char) : Option AstNode := do
  exprParse T scope (← lex strtod text)

end

/-! ## The patterns -/

/-- The patterns do not depend on the conversion. -/
def patterns : List (Pattern Char) := (rules fun _ => 0).map (·.pattern)

/-- What a pattern with a blank in it starts with, if it goes on behind one character. -/
def blankHeads : List Char := ['s', 'u', 'l', 'i', 'c', '"']

/-- What the operators and brackets start with. -/
def symbolHeads : List Char :=
  ['>', '<', '-', '&', '|', '=', '!', '(', ')', '[', ']', ':', '.', '~', '+', '*', '/', '%', '^']

/-- No word starts like one with a blank in it. -/
def quiet (r : Pattern Char) : Bool := blankHeads.all fun a => !r.mayStart a

/-- What the proofs need of each pattern. -/
structure Checked (r : Pattern Char) : Prop where
  nullable : r.nullable = false
  contain : (r.short || r.headsIn blankHeads || blanks.all fun b => !r.mayContain b) = true
  ends : (r.short || blanks.all fun b => !r.mayStart b && !r.mayEnd b) = true
  follow : (r.headsIn ['"'] || (blanks.all fun b => !r.mayContain b)
    || blanks.all fun b => symbolHeads.all fun c => !r.mayFollow b c) = true
  sizeof : (blanks.all fun b => (r.after ("sizeof".toList ++ [b])).dead) = true

instance (r : Pattern Char) : Decidable (Checked r) :=
  decidable_of_iff
    (r.nullable = false ∧
      (r.short || r.headsIn blankHeads || blanks.all fun b => !r.mayContain b) = true ∧
      (r.short || blanks.all fun b => !r.mayStart b && !r.mayEnd b) = true ∧
      (r.headsIn ['"'] || (blanks.all fun b => !r.mayContain b)
        || blanks.all fun b => symbolHeads.all fun c => !r.mayFollow b c) = true ∧
      (blanks.all fun b => (r.after ("sizeof".toList ++ [b])).dead) = true)
    ⟨fun ⟨h₁, h₂, h₃, h₄, h₅⟩ => ⟨h₁, h₂, h₃, h₄, h₅⟩,
      fun ⟨h₁, h₂, h₃, h₄, h₅⟩ => ⟨h₁, h₂, h₃, h₄, h₅⟩⟩

theorem checked_patterns :
    (∀ r ∈ patterns, Checked r) ∧
      (∀ r ∈ (otherRules fun _ => 0).map (·.pattern), (r.short || !r.mayStart '"') = true) ∧
      (∀ r ∈ (constantRules fun _ => 0).map (·.pattern), quiet r = true) ∧
      (∀ r ∈ symbolPatterns, quiet r.1 = true ∧ r.1.headsIn symbolHeads = true) ∧
      ∀ r ∈ wordRule :: typeRules, r.pattern.mayStart '"' = false := by
  decide +kernel

section
variable {strtod : List Char → BitVec 64} {r : Rule Char Lexeme} {x u : List Char}

theorem checked_of_mem (hr : r ∈ rules strtod) : Checked r.pattern := by
  have hpatterns : (rules strtod).map (·.pattern) = patterns := rfl
  exact checked_patterns.1 _ (hpatterns ▸ List.mem_map_of_mem hr)

theorem mem_rules_iff : r ∈ rules strtod ↔ r = stringRule ∨ r ∈ otherRules strtod := by
  simp only [rules, otherRules, List.mem_append, List.mem_cons]
  tauto

theorem head_of_blank {a b : Char} (hr : r ∈ rules strtod) (h : r.pattern.Matches (a :: x))
    (hx : x ≠ []) (hb : b ∈ blanks) (hbx : b ∈ x) : a ∈ blankHeads := by
  have hcheck := (checked_of_mem hr).contain
  simp only [Bool.or_eq_true, List.all_eq_true, Bool.not_eq_true'] at hcheck
  obtain (hshort | hheads) | hnone := hcheck
  · have hle : (a :: x).length ≤ 1 := h.length_le hshort
    exact absurd (List.length_eq_zero_iff.mp (by simpa using hle)) hx
  · exact h.headsIn hheads
  · have hcontain := h.mayContain (List.mem_cons_of_mem a hbx)
    exact absurd hcontain (by rw [hnone b hb]; exact Bool.false_ne_true)

/-- A word that does not start like one with a blank ends at a blank. -/
theorem maximal_of_quiet {r₀ : Pattern Char} {rest : List Char} (hquiet : quiet r₀ = true)
    (hx : x ≠ []) (h : r₀.Matches x) (hrest : ∀ b ∈ rest.head?, b ∈ blanks) :
    Maximal (rules strtod) x rest := by
  intro u hu hprefix
  refine classify_eq_none fun r hr hmatch => ?_
  obtain ⟨b, u, rfl⟩ := List.exists_cons_of_ne_nil hu
  obtain ⟨a, x, rfl⟩ := List.exists_cons_of_ne_nil hx
  obtain ⟨v, rfl⟩ := hprefix
  have hb : b ∈ blanks := hrest b rfl
  have hbehind : b ∈ x ++ b :: u := List.mem_append_right x List.mem_cons_self
  have hhead : a ∈ blankHeads :=
    head_of_blank hr hmatch (List.append_ne_nil_of_right_ne_nil x hu) hb hbehind
  have hstart := List.all_eq_true.mp hquiet a hhead
  rw [h.mayStart] at hstart
  cases hstart

theorem maximal_sizeof {rest : List Char} (hrest : ∀ b ∈ rest.head?, b ∈ blanks) :
    Maximal (rules strtod) "sizeof".toList rest := by
  intro u hu hprefix
  refine classify_eq_none fun r hr hmatch => ?_
  obtain ⟨b, u, rfl⟩ := List.exists_cons_of_ne_nil hu
  obtain ⟨v, rfl⟩ := hprefix
  have hdead := List.all_eq_true.mp ((checked_of_mem hr).sizeof) b (hrest b rfl)
  rw [List.append_cons] at hmatch
  exact not_matches_of_dead hdead hmatch.after

theorem not_matches_end {b : Char} (hr : r ∈ rules strtod) (hx : x ≠ []) (hb : b ∈ blanks) :
    ¬ r.pattern.Matches (x ++ [b]) := by
  intro h
  have hcheck := (checked_of_mem hr).ends
  simp only [Bool.or_eq_true, Bool.and_eq_true, List.all_eq_true, Bool.not_eq_true'] at hcheck
  obtain hshort | hnone := hcheck
  · have hle : (x ++ [b]).length ≤ 1 := h.length_le hshort
    rw [List.length_append, List.length_singleton] at hle
    exact hx (List.length_eq_zero_iff.mp (by omega))
  · exact absurd h.mayEnd (by rw [(hnone b hb).2]; exact Bool.false_ne_true)

/-- Only in a string literal a blank stands in front of an operator or a bracket. -/
theorem not_matches_neighbours {a b c : Char} (hr : r ∈ rules strtod) (ha : a ≠ '"')
    (hb : b ∈ blanks) (hc : c ∈ symbolHeads) : ¬ r.pattern.Matches (a :: x ++ b :: c :: u) := by
  intro h
  have hcheck := (checked_of_mem hr).follow
  simp only [Bool.or_eq_true, List.all_eq_true, Bool.not_eq_true'] at hcheck
  obtain (hhead | hnone) | hnone := hcheck
  · exact ha (List.mem_singleton.mp (h.headsIn hhead))
  · have hcontain := h.mayContain (List.mem_append_right (a :: x) List.mem_cons_self)
    exact absurd hcontain (by rw [hnone b hb]; exact Bool.false_ne_true)
  · have hfollow := h.mayFollow (a :: x) u rfl
    exact absurd hfollow (by rw [hnone b hb c hc]; exact Bool.false_ne_true)

theorem maximal_of_word {r₀ : Rule Char Lexeme} {gap rest : List Char}
    (hr₀ : r₀ ∈ wordRule :: typeRules) (hx : x ≠ []) (h : r₀.pattern.Matches x)
    (hgap : ∀ b ∈ gap, b ∈ blanks)
    (hrest : rest = [] ∨ gap ≠ [] ∧ ∀ c ∈ rest.head?, c ∈ symbolHeads) :
    Maximal (rules strtod) x (gap ++ rest) := by
  intro u hu hprefix
  refine classify_eq_none fun r hr hmatch => ?_
  have hinside (hin : u <+: gap) : False := by
    obtain rfl | ⟨u, b, rfl⟩ := List.eq_nil_or_concat u
    · exact hu rfl
    · rw [List.concat_eq_append] at hin hmatch
      have hb : b ∈ blanks := hgap b (hin.subset (List.mem_append_right u List.mem_cons_self))
      rw [← List.append_assoc] at hmatch
      exact not_matches_end hr (List.append_ne_nil_of_left_ne_nil hx u) hb hmatch
  obtain hin | ⟨v, rfl⟩ := List.prefix_or_prefix_of_prefix hprefix (List.prefix_append gap rest)
  · exact hinside hin
  · cases v with
    | nil => exact hinside (by rw [List.append_nil])
    | cons c v =>
        obtain ⟨w, hw⟩ := (List.prefix_append_right_inj gap).mp hprefix
        obtain rfl | ⟨hne, hsymbol⟩ := hrest
        · cases hw
        · obtain rfl | ⟨gap, b, rfl⟩ := List.eq_nil_or_concat gap
          · exact hne rfl
          · have hc : c ∈ symbolHeads := hsymbol c (hw ▸ rfl)
            have hb : b ∈ blanks := hgap b (by simp)
            obtain ⟨a, x, rfl⟩ := List.exists_cons_of_ne_nil hx
            have ha : a ≠ '"' := by
              rintro rfl
              exact absurd h.mayStart
                (by rw [checked_patterns.2.2.2.2 r₀ hr₀]; exact Bool.false_ne_true)
            refine not_matches_neighbours hr ha hb hc (x := x ++ gap) (u := v) ?_
            simpa using hmatch

/-! ### String literals -/

/-- What is behind the first quote that no backslash stands before. -/
def closing : List Char → Option (List Char)
  | [] => none
  | '"' :: text => some text
  | '\\' :: _ :: text => closing text
  | _ :: text => closing text

theorem closing_item {item : List Char} (h : stringItem.Matches item) :
    closing (item ++ u) = closing u := by
  cases h with
  | left h =>
      cases h with
      | seq hslash hany =>
          cases hslash
          cases hany
          rfl
  | right h =>
      cases h with
      | @cls _ c hc =>
          obtain ⟨hslash, hquote, -⟩ := of_decide_eq_true hc
          rw [List.singleton_append, closing]
          · exact hquote
          · exact fun _ _ h _ => hslash h

theorem closing_items {items : List Char} (h : (Pattern.star stringItem).Matches items) :
    closing (items ++ u) = closing u := by
  generalize hstar : Pattern.star stringItem = r at h
  induction h with
  | nil => rfl
  | cons hitem _ _ ih =>
      cases hstar
      rw [List.append_assoc, closing_item hitem, ih rfl]
  | _ => cases hstar

theorem matches_string (h : stringRule.pattern.Matches x) :
    ∃ body, x = '"' :: body ∧ ∀ u, closing (body ++ u) = some u := by
  cases h with
  | seq hopen hrest =>
      cases hrest with
      | @seq _ _ items _ hitems hclose =>
          cases hopen
          cases hclose
          refine ⟨items ++ ['"'], rfl, fun u => ?_⟩
          rw [List.append_assoc, closing_items hitems]
          rfl

theorem maximal_of_string (h : stringRule.pattern.Matches x) (rest : List Char) :
    Maximal (rules strtod) x rest := by
  intro u hu _
  refine classify_eq_none fun r hr hmatch => ?_
  obtain ⟨body, rfl, hclosing⟩ := matches_string h
  obtain rfl | hr := mem_rules_iff.mp hr
  · obtain ⟨body', hbody, hclosing'⟩ := matches_string hmatch
    have hsame : body ++ u = body' := (List.cons.inj hbody).2
    have hclosed := hclosing' []
    rw [List.append_nil, ← hsame, hclosing u] at hclosed
    exact hu (Option.some.inj hclosed)
  · have hother : (otherRules strtod).map (·.pattern) = (otherRules fun _ => 0).map (·.pattern) :=
      rfl
    have hcheck := checked_patterns.2.1 _ (hother ▸ List.mem_map_of_mem hr)
    obtain hshort | hstart := Bool.or_eq_true_iff.mp hcheck
    · have hle : ('"' :: (body ++ u)).length ≤ 1 := hmatch.length_le hshort
      rw [List.length_cons, List.length_append] at hle
      exact hu (List.length_eq_zero_iff.mp (by omega))
    · rw [hmatch.mayStart] at hstart
      cases hstart

/-! ### What a token is made of -/

/-- A name or a type. -/
def Lexeme.isName : Lexeme → Bool
  | .void | .basicType _ | .structOrUnion _ | .word _ => true
  | .symbol _ | .constant _ => false

def Token.isName : Token → Bool
  | .void | .type _ | .identifier _ => true
  | .symbol _ | .constant _ => false

theorem isName_of_mem {lexeme : Lexeme} (hr : r ∈ wordRule :: typeRules)
    (h : r.action x = .token lexeme) : lexeme.isName = true := by
  simp only [typeRules, List.mem_cons, List.mem_append, List.mem_map, List.not_mem_nil,
    or_false] at hr
  obtain rfl | (rfl | rfl | rfl) | ⟨q, -, rfl⟩ := hr
  all_goals
    cases h
    rfl

theorem constant_of_mem {lexeme : Lexeme} (hr : r ∈ constantRules strtod)
    (h : r.action x = .token lexeme) : ∃ c, lexeme = .constant c := by
  simp only [constantRules, integerRules, List.mem_append, List.mem_map, List.mem_cons,
    List.not_mem_nil, or_false] at hr
  rcases hr with (hr | ⟨q, -, rfl⟩) | rfl
  · rcases hr with rfl | rfl | rfl | rfl | rfl | rfl
    all_goals
      cases h
      exact ⟨_, rfl⟩
  · cases h
    exact ⟨_, rfl⟩
  · cases h
    exact ⟨_, rfl⟩

theorem constant_of_string {lexeme : Lexeme} (h : Lexer.string x = .token lexeme) :
    ∃ c, lexeme = .constant c := by
  unfold Lexer.string at h
  split at h
  · split at h
    · cases h
      exact ⟨_, rfl⟩
    · cases h
  · cases h

theorem quiet_of_mem (hr : r ∈ constantRules strtod) : quiet r.pattern = true := by
  have hpatterns : (constantRules strtod).map (·.pattern) =
      (constantRules fun _ => 0).map (·.pattern) := rfl
  exact checked_patterns.2.2.1 _ (hpatterns ▸ List.mem_map_of_mem hr)

/-- The word of a token, by the part of the rules that it is from. -/
inductive WordOf (x : List Char) : Lexeme → Prop where
  | sizeof : x = "sizeof".toList → WordOf x (.symbol .sizeof)
  | name {lexeme : Lexeme} (r : Rule Char Lexeme) : r ∈ wordRule :: typeRules →
      r.pattern.Matches x → lexeme.isName = true → WordOf x lexeme
  | string (c : Constant) : stringRule.pattern.Matches x → WordOf x (.constant c)
  | constant (c : Constant) (q : Pattern Char) : quiet q = true → q.Matches x →
      WordOf x (.constant c)
  | symbol (s : Symbol) (q : Pattern Char) : (q, s) ∈ symbolPatterns → q.Matches x →
      WordOf x (.symbol s)

theorem wordOf_of_classify {lexeme : Lexeme}
    (h : classify (rules strtod) x = some (.token lexeme)) : WordOf x lexeme := by
  obtain ⟨r, hr, hmatch, haction⟩ := exists_rule_of_classify h
  obtain rfl | hr := mem_rules_iff.mp hr
  · obtain ⟨c, rfl⟩ := constant_of_string haction
    exact .string c hmatch
  · simp only [otherRules, symbolRules, lastRules, List.mem_append, List.mem_cons, List.mem_map,
      List.not_mem_nil, or_false] at hr
    obtain (((rfl | htype) | hconstant) | rfl | ⟨⟨q, s⟩, hsymbol, rfl⟩) | rfl | rfl := hr
    · cases haction
      exact .sizeof (matches_lit_iff.mp hmatch)
    · have hname := List.mem_cons_of_mem wordRule htype
      exact .name r hname hmatch (isName_of_mem hname haction)
    · obtain ⟨c, rfl⟩ := constant_of_mem hconstant haction
      exact .constant c r.pattern (quiet_of_mem hconstant) hmatch
    · exact .name wordRule List.mem_cons_self hmatch (isName_of_mem List.mem_cons_self haction)
    · cases haction
      exact .symbol s q hsymbol hmatch
    · cases haction
    · cases haction

theorem ne_nil_of_classify {action : Action Lexeme} (h : classify (rules strtod) x = some action) :
    x ≠ [] := by
  rintro rfl
  obtain ⟨r, hr, hmatch, -⟩ := exists_rule_of_classify h
  have hnull := (nullable_iff r.pattern).mpr hmatch
  rw [(checked_of_mem hr).nullable] at hnull
  cases hnull

/-! ### Every character is taken -/

theorem blank_rules {b : Char} (hb : b ∈ blanks) : Blank (rules strtod) b := by
  constructor
  · simp only [blanks, List.mem_cons, List.not_mem_nil, or_false] at hb
    obtain rfl | rfl | rfl | rfl | rfl := hb <;> rfl
  · intro u hu
    refine classify_eq_none fun r hr h => ?_
    have hcheck := (checked_of_mem hr).ends
    simp only [Bool.or_eq_true, Bool.and_eq_true, List.all_eq_true, Bool.not_eq_true'] at hcheck
    obtain hshort | hnone := hcheck
    · have hle : (b :: u).length ≤ 1 := h.length_le hshort
      exact hu (List.length_eq_zero_iff.mp (by simpa using hle))
    · exact absurd h.mayStart (by rw [(hnone b hb).1]; exact Bool.false_ne_true)

/-- Flex's own rule, which writes what no other rule matches on stdout, is never used. -/
theorem longest_rules {text : List Char} (htext : text ≠ []) :
    longest (rules strtod) text ≠ none := by
  refine longest_ne_none (fun a => ?_) htext
  by_cases ha : a = '\n'
  · subst ha
    rw [(blank_rules (by decide)).1]
    exact Option.some_ne_none _
  · have hlast : (⟨.cls (· ≠ '\n'), fun _ => .reject⟩ : Rule Char Lexeme) ∈ rules strtod := by
      simp [rules, lastRules]
    exact classify_ne_none hlast (.cls (decide_eq_true ha))

end

/-! ## What the grammar derives -/

/-- Behind a name or a type stands an operator or a bracket. -/
def Follows (t t' : Token) : Prop := t.isName = true → ∃ s ≠ Symbol.sizeof, t' = .symbol s

theorem follows_symbol (t : Token) {s : Symbol} (hs : s ≠ .sizeof) : Follows t (.symbol s) :=
  fun _ => ⟨s, hs, rfl⟩

theorem symbol_follows (s : Symbol) (t : Token) : Follows (.symbol s) t := fun h => by cases h

section
variable {ts us : List Token}

theorem chain_symbol {s : Symbol} (hs : s ≠ .sizeof) (hts : ts.IsChain Follows)
    (hus : us.IsChain Follows) : (ts ++ .symbol s :: us).IsChain Follows := by
  refine hts.append (hus.cons fun t _ => symbol_follows s t) fun t _ t' ht' => ?_
  cases ht'
  exact follows_symbol t hs

theorem DerivesType.chain {a : Attrs} (h : DerivesType ts a) : ts.IsChain Follows := by
  induction h with
  | void => exact .singleton _
  | type a => exact .singleton _
  | pointer _ ih => exact chain_symbol (by decide) ih .nil

theorem BinaryOp.symbol_ne_sizeof (op : BinaryOp) : op.symbol ≠ .sizeof := by
  cases op <;> decide

theorem Derives.chain {n : Nonterminal} {e : Expr} (h : Derives n ts e) : ts.IsChain Follows := by
  have hfront (s : Symbol) {us : List Token} (hus : us.IsChain Follows) :
      (.symbol s :: us).IsChain Follows := hus.cons fun t _ => symbol_follows s t
  induction h with
  | unit _ _ ih => exact ih
  | identifier name => exact .singleton _
  | constant c => exact .singleton _
  | paren _ ih => exact hfront _ (chain_symbol (by decide) ih .nil)
  | item _ _ ihobject ihindex =>
      exact chain_symbol (by decide) (chain_symbol (by decide) ihobject ihindex) .nil
  | field name _ ih => exact chain_symbol (by decide) ih (.singleton _)
  | arrow name _ ih => exact chain_symbol (by decide) ih (.singleton _)
  | plus _ ih => exact hfront _ ih
  | unaryOp op _ ih => exact hfront _ ih
  | sizeofExpr _ ih => exact hfront _ ih
  | sizeofType htype => exact hfront _ (hfront _ (chain_symbol (by decide) htype.chain .nil))
  | cast htype _ ih => exact hfront _ (chain_symbol (by decide) htype.chain ih)
  | binaryOp op _ _ _ ihleft ihright =>
      exact chain_symbol op.symbol_ne_sizeof ihleft ihright

end

/-! ## Texts -/

/-- The scanner makes the token of the word alone. -/
def Spells (strtod : List Char → BitVec 64) (T : Tables) (x : List Char) (t : Token) : Prop :=
  ∃ lexeme, classify (rules strtod) x = some (.token lexeme) ∧ yylex T lexeme = .ok t

section
variable {strtod : List Char → BitVec 64} {T : Tables} {t : Token} {lexeme : Lexeme}

theorem isName_yylex (h : yylex T lexeme = .ok t) : t.isName = lexeme.isName := by
  cases lexeme with
  | structOrUnion name =>
      change findStructOrUnion T name = .ok t at h
      unfold findStructOrUnion at h
      split at h
      · cases h
        rfl
      · cases h
  | word name =>
      cases h
      unfold findVarOrType
      split <;> rfl
  | _ =>
      cases h
      rfl

theorem Spells.ne_nil {x : List Char} (h : Spells strtod T x t) : x ≠ [] := by
  obtain ⟨lexeme, hclassify, -⟩ := h
  exact ne_nil_of_classify hclassify

theorem Spells.head_of_symbol {x : List Char} {s : Symbol} (hs : s ≠ .sizeof)
    (h : Spells strtod T x (.symbol s)) : ∀ c ∈ x.head?, c ∈ symbolHeads := by
  intro c hc
  obtain ⟨lexeme, hclassify, hlex⟩ := h
  have hname := isName_yylex hlex
  cases wordOf_of_classify hclassify with
  | sizeof => cases hlex; exact absurd rfl hs
  | name r hr hmatch hisName =>
      rw [hisName] at hname
      cases hname
  | string c => cases hlex
  | constant c => cases hlex
  | symbol s' q hmem hmatch =>
      obtain ⟨a, x, rfl⟩ := List.exists_cons_of_ne_nil (ne_nil_of_classify hclassify)
      cases hc
      exact hmatch.headsIn (checked_patterns.2.2.2.1 _ hmem).2

/-- What is behind a word of a text: blanks, and then the end or a next word, which is an
operator or a bracket behind a name or a type. -/
theorem Spells.maximal {x gap rest : List Char} (h : Spells strtod T x t)
    (hgap : ∀ b ∈ gap, b ∈ blanks) (hrest : rest = [] ∨ gap ≠ [] ∧
      (t.isName = true → ∀ c ∈ rest.head?, c ∈ symbolHeads)) :
    Maximal (rules strtod) x (gap ++ rest) := by
  obtain ⟨lexeme, hclassify, hlex⟩ := h
  have hne := ne_nil_of_classify hclassify
  have hblank : ∀ b ∈ (gap ++ rest).head?, b ∈ blanks := by
    intro b hb
    cases gap with
    | nil =>
        obtain rfl | ⟨hgap, -⟩ := hrest
        · cases hb
        · exact absurd rfl hgap
    | cons c gap =>
        cases hb
        exact hgap b List.mem_cons_self
  cases wordOf_of_classify hclassify with
  | sizeof hx => exact hx ▸ maximal_sizeof hblank
  | name r hr hmatch hname =>
      refine maximal_of_word hr hne hmatch hgap (hrest.imp_right fun ⟨hne, hhead⟩ => ?_)
      exact ⟨hne, hhead ((isName_yylex hlex).trans hname)⟩
  | string c hmatch => exact maximal_of_string hmatch _
  | constant c q hquiet hmatch => exact maximal_of_quiet hquiet hne hmatch hblank
  | symbol s q hmem hmatch =>
      exact maximal_of_quiet (checked_patterns.2.2.2.1 _ hmem).1 hne hmatch hblank

/-- The words of the tokens, with blanks between them. -/
structure Row (strtod : List Char → BitVec 64) (T : Tables) (row : List (List Char × List Char))
    (ts : List Token) : Prop where
  words : List.Forall₂ (fun w t => Spells strtod T w.1 t) row ts
  plain : ∀ w ∈ row, '\x00' ∉ w.1
  blanks : ∀ w ∈ row, ∀ b ∈ w.2, b ∈ blanks
  gaps : ∀ w ∈ row.dropLast, w.2 ≠ []

theorem Row.apart {row : List (List Char × List Char)} {ts : List Token}
    (h : Row strtod T row ts) (hchain : ts.IsChain Follows) : Apart (rules strtod) row := by
  obtain ⟨hwords, -, hblanks, hgaps⟩ := h
  induction hwords with
  | nil => trivial
  | @cons w t row ts hw hrow ih =>
      obtain ⟨hfollows, hchain⟩ := List.isChain_cons.mp hchain
      have hrest : layout row = [] ∨ w.2 ≠ [] ∧
          (t.isName = true → ∀ c ∈ (layout row).head?, c ∈ symbolHeads) := by
        cases hrow with
        | nil => exact .inl rfl
        | @cons w' t' row ts hw' hrow =>
            refine .inr ⟨hgaps w List.mem_cons_self, fun hname c hc => ?_⟩
            obtain ⟨s, hs, rfl⟩ := hfollows t' rfl hname
            obtain ⟨a, x, hx⟩ := List.exists_cons_of_ne_nil hw'.ne_nil
            refine hw'.head_of_symbol hs c ?_
            rw [layout, List.flatMap_cons, hx] at hc
            rw [hx]
            exact hc
      refine ⟨hw.maximal (hblanks w List.mem_cons_self) hrest, ih hchain ?_ ?_⟩
      · exact fun v hv => hblanks v (List.mem_cons_of_mem w hv)
      · intro v hv
        refine hgaps v ?_
        rw [List.dropLast_cons_of_ne_nil fun h => by rw [h] at hv; cases hv]
        exact List.mem_cons_of_mem w hv

theorem Row.lex_layout {row : List (List Char × List Char)} {ts : List Token}
    (h : Row strtod T row ts) (hchain : ts.IsChain Follows) :
    ∃ lexemes, lex strtod (layout row) = some lexemes ∧ lexemes.mapM (yylex T) = .ok ts := by
  have hplain : (layout row).takeWhile (· ≠ '\x00') = layout row := by
    refine List.takeWhile_eq_self_iff.mpr fun c hc => decide_eq_true ?_
    obtain ⟨w, hw, hc⟩ := List.mem_flatMap.mp hc
    rintro rfl
    obtain hword | hgap := List.mem_append.mp hc
    · exact h.plain w hw hword
    · exact absurd (h.blanks w hw _ hgap) (by decide)
  obtain ⟨lexemes, hclassify, hlex⟩ : ∃ lexemes,
      List.Forall₂ (fun w b => w.1 ≠ [] ∧ classify (rules strtod) w.1 = some (.token b))
        row lexemes ∧ lexemes.mapM (yylex T) = .ok ts := by
    have hwords := h.words
    clear h hchain hplain
    induction hwords with
    | nil => exact ⟨[], .nil, rfl⟩
    | cons hw _ ih =>
        obtain ⟨lexeme, hclassify, hlex⟩ := hw
        obtain ⟨lexemes, hrest, hlexes⟩ := ih
        refine ⟨lexeme :: lexemes, .cons ⟨ne_nil_of_classify hclassify, hclassify⟩ hrest, ?_⟩
        rw [List.mapM_cons, hlex, hlexes]
        rfl
  refine ⟨lexemes, ?_, hlex⟩
  rw [lex, hplain]
  exact scan_layout hclassify (fun w hw b hb => blank_rules (h.blanks w hw b hb)) (h.apart hchain)

/-- **A text is read as it is written.**  The words of what the grammar derives, with blanks
between them, make the tree of the derivation. -/
theorem exprParseText_layout {row : List (List Char × List Char)} {ts : List Token} {e : Expr}
    (scope : Nat) (hderives : Derives .expression ts e) (hrow : Row strtod T row ts) :
    exprParseText strtod T scope (layout row) = (e.ast T scope).toOption := by
  obtain ⟨lexemes, hlex, htokens⟩ := hrow.lex_layout hderives.chain
  simp only [exprParseText, hlex, Option.bind_eq_bind, Option.bind_some, exprParse, htokens,
    Except.toOption, parseTokens_eq_some_iff.mpr hderives]

end

/-- A counter `n`, and a `struct node`. -/
def nodeTables : Tables where
  varDetails name _ := if name = "n" then some (1, ⟨2, .unsigned, 8, 0⟩) else none
  typeDetails _ := none
  structDetails name := if name = "node" then some (7, .struct, 16) else none
  fieldDetails _ _ := none
  baseTypeDetails _ := none

/-- `sizeof ( struct node ) + n`, with a tab and two blanks. -/
def sizeofRow : List (List Char × List Char) :=
  [("sizeof".toList, [' ']), (['('], [' ']), ("struct \tnode".toList, [' ']), ([')'], [' ']),
    (['+'], [' ', ' ']), (['n'], [])]

theorem exprParseText_layout_sizeof :
    exprParseText (fun _ => 0) nodeTables 0 "sizeof ( struct \tnode ) +  n".toList =
      some (.binaryOp ⟨0, .unsigned, 8, 0⟩ .add (.int ⟨0, .unsigned, 8, 0⟩ 16)
        (.var ⟨2, .unsigned, 8, 0⟩ "n" 1)) := by
  have htext : "sizeof ( struct \tnode ) +  n".toList = layout sizeofRow := rfl
  have hsizeof : Derives .multiplicativeExpression
      [.symbol .sizeof, .symbol .lparen, .type ⟨7, .struct, 16, 0⟩, .symbol .rparen]
      (.sizeofType ⟨7, .struct, 16, 0⟩) :=
    (Derives.sizeofType (.type ⟨7, .struct, 16, 0⟩)).loosen 2 rfl
  have hadd := Derives.binaryOp .add rfl (.unit rfl hsizeof) ((Derives.identifier "n").ofPrimary _)
  have hderives : Derives .expression _ _ := hadd.loosen 9 rfl
  have hrow : Row (fun _ => 0) nodeTables sizeofRow _ :=
    ⟨.cons ⟨.symbol .sizeof, rfl, rfl⟩ (.cons ⟨.symbol .lparen, rfl, rfl⟩
      (.cons ⟨.structOrUnion "node", rfl, rfl⟩ (.cons ⟨.symbol .rparen, rfl, rfl⟩
      (.cons ⟨.symbol .plus, rfl, rfl⟩ (.cons ⟨.word "n", rfl, rfl⟩ .nil))))),
      by decide, by simp [sizeofRow, blanks], by simp [sizeofRow]⟩
  rw [htext, exprParseText_layout 0 hderives hrow]
  rfl

end FlightRec.Expressions
