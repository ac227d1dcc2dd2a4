import Pgify.Lib.PostgresScan
import Pgify.Model.HiddenLexer
import Pgify.Model.NameLexer
import Pgify.Model.Printer

/-! # Blanks and comments for MySQL and for PostgreSQL

A hidden token is white space or a comment for MySQL by its span alone. What PostgreSQL reads it as
depends on its place in the output too: `interval_expression` prints a quote in front of the hidden
tokens that follow it, so that they become part of the literal.
-/

namespace Pgify.HiddenText

open Pgify.Model PostgresScan CursorMerge

/-! ## Spans of hidden tokens -/

/-- The rest of a line with its end. -/
def Line (body : List Char) : Prop :=
  ∃ line ending, body = line ++ ending ∧ (ending = ['\n'] ∨ ending = ['\r', '\n']) ∧
    ∀ c ∈ line, ¬ (c = '\n' ∨ c = '\r')

/-- What the four rules match. -/
inductive Matched : TokenType → List Char → Prop
  | ws {c : Char} (blank : c = ' ' ∨ c = '\r' ∨ c = '\t' ∨ c = '\n') : Matched .ws [c]
  | slComment {body : List Char} (line : Line body) : Matched .slComment ('-' :: '-' :: body)
  | mysqlComment {body : List Char} (line : Line body) : Matched .mysqlComment ('#' :: body)
  | mlComment {body : List Char} (first : ¬ ['*', '/'] <:+: body ++ ['*']) :
      Matched .mlComment ('/' :: '*' :: (body ++ ['*', '/']))

private theorem line_of_lineBody {input body rest : List Char}
    (consumed : lineBody input = some (body, rest)) : input = body ++ rest ∧ Line body := by
  induction input generalizing body with
  | nil => cases consumed
  | cons c input ih =>
    rw [lineBody] at consumed
    split at consumed
    · next newline =>
      obtain ⟨rfl, rfl⟩ := Prod.mk.inj (Option.some.inj consumed)
      exact ⟨by rw [newline]; rfl, [], ['\n'], rfl, Or.inl rfl, by simp⟩
    · next notNewline =>
      split at consumed
      · next carriage =>
        split at consumed
        · next newline =>
          obtain ⟨rfl, rfl⟩ := Prod.mk.inj (Option.some.inj consumed)
          obtain ⟨tail, rfl⟩ := List.head?_eq_some_iff.mp newline
          exact ⟨by rw [carriage]; rfl, [], ['\r', '\n'], rfl, Or.inr rfl, by simp⟩
        · cases consumed
      · next notCarriage =>
        obtain ⟨⟨tail, behind⟩, matched, same⟩ := Option.map_eq_some_iff.mp consumed
        obtain ⟨rfl, rfl⟩ := Prod.mk.inj same
        obtain ⟨rfl, line, ending, rfl, ends, oneLine⟩ := ih matched
        refine ⟨rfl, c :: line, ending, rfl, ends, ?_⟩
        exact List.forall_mem_cons.mpr ⟨fun either => either.elim notNewline notCarriage, oneLine⟩

private theorem closed_of_mlBody {input body rest : List Char}
    (consumed : mlBody input = some (body, rest)) : input = body ++ rest ∧
      ∃ inner, body = inner ++ ['*', '/'] ∧ ¬ ['*', '/'] <:+: inner ++ ['*'] := by
  induction input generalizing body with
  | nil => cases consumed
  | cons c input ih =>
    rw [mlBody] at consumed
    split at consumed
    · next closer =>
      obtain ⟨rfl, rfl⟩ := Prod.mk.inj (Option.some.inj consumed)
      obtain ⟨rfl, slash⟩ := closer
      obtain ⟨tail, rfl⟩ := List.head?_eq_some_iff.mp slash
      exact ⟨rfl, [], rfl, by decide⟩
    · next open_ =>
      obtain ⟨⟨tail, behind⟩, matched, same⟩ := Option.map_eq_some_iff.mp consumed
      obtain ⟨rfl, rfl⟩ := Prod.mk.inj same
      obtain ⟨rfl, inner, rfl, first⟩ := ih matched
      refine ⟨rfl, c :: inner, rfl, ?_⟩
      rw [List.cons_append, List.infix_cons_iff, not_or]
      refine ⟨fun starts => open_ ?_, first⟩
      obtain ⟨tail, same⟩ := starts
      obtain ⟨rfl, rest⟩ := List.cons.inj same
      refine ⟨rfl, ?_⟩
      cases inner with
      | nil => cases (List.cons.inj rest).1
      | cons d inner => simpa using (List.cons.inj rest).1.symm

private theorem matched_of_mWs {c : Char} {input rest : List Char} {lexeme : Lexeme}
    (blank : c = ' ' ∨ c = '\r' ∨ c = '\t' ∨ c = '\n')
    (next : mWs (c :: input) = some (lexeme, rest)) :
    c :: input = lexeme.span ++ rest ∧ lexeme.text = String.ofList lexeme.span ∧
      Matched lexeme.type lexeme.span := by
  obtain ⟨rfl, rfl⟩ := Prod.mk.inj (Option.some.inj next)
  exact ⟨rfl, rfl, .ws blank⟩

/-- A hidden token is the next stretch of the input, with the stretch as its text. -/
theorem matched_of_nextHiddenToken {input rest : List Char} {lexeme : Lexeme}
    (next : nextHiddenToken input = some (lexeme, rest)) :
    input = lexeme.span ++ rest ∧ lexeme.text = String.ofList lexeme.span ∧
      Matched lexeme.type lexeme.span := by
  obtain ⟨rule, predicted, next⟩ := Option.bind_eq_some_iff.mp next
  unfold predictHidden at predicted
  split at predicted <;> cases predicted
  · exact matched_of_mWs (by simp) next
  · exact matched_of_mWs (by simp) next
  · exact matched_of_mWs (by simp) next
  · exact matched_of_mWs (by simp) next
  · obtain ⟨⟨body, behind⟩, consumed, same⟩ := Option.map_eq_some_iff.mp next
    obtain ⟨rfl, rfl⟩ := Prod.mk.inj same
    obtain ⟨split, line⟩ := line_of_lineBody consumed
    exact ⟨congrArg ('-' :: '-' :: ·) split, rfl, .slComment line⟩
  · obtain ⟨⟨body, behind⟩, consumed, same⟩ := Option.map_eq_some_iff.mp next
    obtain ⟨rfl, rfl⟩ := Prod.mk.inj same
    obtain ⟨split, line⟩ := line_of_lineBody consumed
    exact ⟨congrArg ('#' :: ·) split, rfl, .mysqlComment line⟩
  · obtain ⟨⟨body, behind⟩, consumed, same⟩ := Option.map_eq_some_iff.mp next
    obtain ⟨rfl, rfl⟩ := Prod.mk.inj same
    obtain ⟨split, inner, rfl, first⟩ := closed_of_mlBody consumed
    exact ⟨congrArg ('/' :: '*' :: ·) split, rfl, .mlComment first⟩

/-! ## MySQL -/

def mysqlSpace (c : Char) : Prop :=
  c = ' ' ∨ '\t' ≤ c ∧ c ≤ '\r'

def control (c : Char) : Prop :=
  c.toNat < 32 ∨ c.toNat = 127

instance (c : Char) : Decidable (mysqlSpace c) := inferInstanceAs (Decidable (_ ∨ _))

instance (c : Char) : Decidable (control c) := inferInstanceAs (Decidable (_ ∨ _))

/-- The text runs to the end of its line. -/
def ToLineEnd (body : List Char) : Prop :=
  ∃ line, body = line ++ ['\n'] ∧ '\n' ∉ line

/-- The first character is white space or a control character. -/
def StartsBlank (body : List Char) : Prop :=
  ∃ c, body.head? = some c ∧ (mysqlSpace c ∨ control c)

/-- White space and comments by MySQL's lexical rules. -/
inductive MysqlLayout : List Char → Prop
  | space {c : Char} (space : mysqlSpace c) : MysqlLayout [c]
  | hash {body : List Char} (line : ToLineEnd body) : MysqlLayout ('#' :: body)
  | dashes {body : List Char} (blank : StartsBlank body) (line : ToLineEnd body) :
      MysqlLayout ('-' :: '-' :: body)
  | block {body : List Char} (first : ¬ ['*', '/'] <:+: body ++ ['*']) :
      MysqlLayout ('/' :: '*' :: (body ++ ['*', '/']))

/-- Two dashes that MySQL reads as operators, for want of a blank behind them. -/
def BareDashes (span : List Char) : Prop :=
  ∃ body, span = '-' :: '-' :: body ∧ ¬ StartsBlank body

private theorem Line.toLineEnd {body : List Char} (line : Line body) : ToLineEnd body := by
  obtain ⟨front, ending, rfl, ends, oneLine⟩ := line
  have noNewline : '\n' ∉ front := fun member => oneLine _ member (Or.inl rfl)
  rcases ends with rfl | rfl
  · exact ⟨front, rfl, noNewline⟩
  · refine ⟨front ++ ['\r'], by simp, ?_⟩
    simpa using noNewline

/-- Hidden text is white space or a comment for MySQL unless it starts with bare dashes. -/
theorem mysqlLayout_iff {type : TokenType} {span : List Char} (matched : Matched type span) :
    MysqlLayout span ↔ ¬ BareDashes span := by
  constructor
  · rintro layout ⟨body, rfl, bare⟩
    cases layout with
    | dashes blank line => exact bare blank
  · intro notBare
    cases matched with
    | ws blank =>
      apply MysqlLayout.space
      rcases blank with rfl | rfl | rfl | rfl <;> decide
    | @slComment body line =>
      have blank : StartsBlank body := by
        by_contra bare
        exact notBare ⟨_, rfl, bare⟩
      exact .dashes blank line.toLineEnd
    | mysqlComment line => exact .hash line.toLineEnd
    | mlComment first => exact .block first

/-! ## PostgreSQL -/

/-- No comment that starts with a hash, and no second opener in a bracketed comment. -/
def Proper (text : List Char) : Prop :=
  text.head? ≠ some '#' ∧ (['/', '*'] <+: text → ¬ ['/', '*'] <:+: text.drop 2)

instance (text : List Char) : Decidable (Proper text) := inferInstanceAs (Decidable (_ ∧ _))

private theorem scan_line {body : List Char} (line : Line body) (next : Option Char) :
    scan .lineComment body next = .outside false ∧
      ∀ kind ∈ kinds .lineComment body next, kind = .space ∨ kind = .comment := by
  obtain ⟨front, ending, rfl, ends, oneLine⟩ := line
  obtain ⟨through, inside⟩ := scan_lineComment (upcoming ending next) oneLine
  rw [scan_append, kinds_append, through]
  have behind : scan .lineComment ending next = .outside false ∧
      ∀ kind ∈ kinds .lineComment ending next, kind = .space := by
    rcases ends with rfl | rfl <;> simp [scan, kinds, step, stepOutside, isSpace]
  refine ⟨behind.1, fun kind member => ?_⟩
  rcases List.mem_append.mp member with comment | space
  · exact Or.inr (inside kind comment)
  · exact Or.inl (behind.2 kind space)

/-- From outside, proper hidden text is read as white space or comment up to its end. -/
theorem scan_proper {type : TokenType} {text : List Char} {mode : Mode} (next : Option Char)
    (matched : Matched type text) (proper : Proper text) (outside : mode.isOutside = true) :
    scan mode text next = .outside false ∧
      ∀ kind ∈ kinds mode text next, kind = .space ∨ kind = .comment := by
  cases matched with
  | @ws c blank =>
    have space : isSpace c = true := by
      rcases blank with rfl | rfl | rfl | rfl <;> decide
    simp [scan, kinds, step_space outside space]
  | @slComment body line =>
    obtain ⟨behind, inside⟩ := scan_line line next
    have second : step .lineComment '-' (upcoming body next) = (.comment, .lineComment) := rfl
    simp only [scan, kinds, upcoming_cons, step_dashes outside, second]
    exact ⟨behind, List.forall_mem_cons.mpr ⟨Or.inr rfl,
      List.forall_mem_cons.mpr ⟨Or.inr rfl, inside⟩⟩⟩
  | mysqlComment line => exact absurd rfl proper.1
  | @mlComment body first =>
    have noOpener : ¬ ['/', '*'] <:+: body ++ ['*'] := by
      intro nested
      have whole : body ++ ['*'] <:+: body ++ ['*', '/'] := ⟨[], ['/'], by simp⟩
      exact proper.2 ⟨_, rfl⟩ (nested.trans whole)
    obtain ⟨behind, inside⟩ := scan_blockComment next first noOpener
    have second : step (.blockPair (some 0)) '*' (upcoming (body ++ ['*', '/']) next) =
        (.comment, .blockComment 0) := rfl
    simp only [scan, kinds, upcoming_cons, step_slashStar outside, second]
    exact ⟨behind, List.forall_mem_cons.mpr ⟨Or.inr rfl,
      List.forall_mem_cons.mpr ⟨Or.inr rfl, fun kind member => Or.inr (inside kind member)⟩⟩⟩

/-! ## The output -/

/-- The characters of some pieces of the output. -/
def chars (pieces : List (Token ⊕ Tree)) : List Char :=
  pieces.flatMap fun piece => (pieceText piece).toList

@[simp] theorem chars_append (first second : List (Token ⊕ Tree)) :
    chars (first ++ second) = chars first ++ chars second :=
  List.flatMap_append

@[simp] theorem chars_cons (piece : Token ⊕ Tree) (rest : List (Token ⊕ Tree)) :
    chars (piece :: rest) = (pieceText piece).toList ++ chars rest := rfl

@[simp] theorem chars_nil : chars [] = [] := rfl

/-- The output is the characters of its pieces. -/
theorem toList_printTree (tokens : List Token) (tree : Option Tree) :
    (printTree tokens tree).text.toList = chars (printTree tokens tree).pieces := by
  rw [printTree_text]
  generalize (printTree tokens tree).pieces = pieces
  simp [chars, String.toList_join, List.flatMap_map]

/-- A hidden token of the lexer: its text is a span of one of the four rules. -/
def Lexed (token : Token) : Prop :=
  ∃ input lexeme rest, nextHiddenToken input = some (lexeme, rest) ∧
    token.type = lexeme.type ∧ token.text = lexeme.text

/-- A vector whose hidden tokens come from the lexer. -/
structure LexedVector where
  tokens : List Token
  lexed : ∀ token ∈ tokens, token.isHidden = true → Lexed token

/-- One of the two quotes of `interval_expression`. -/
def intervalQuote (leaf : Tree) : Bool :=
  leaf.getType = .tTransform && leaf.getText = "'"

theorem getText_of_intervalQuote {leaf : Tree} (quote : intervalQuote leaf = true) :
    leaf.getText.toList = ['\''] := by
  rw [intervalQuote, Bool.and_eq_true, decide_eq_true_eq, decide_eq_true_eq] at quote
  rw [quote.2]
  rfl

/-- The pieces end between the two quotes of an interval expression: every such quote opens one or
closes it. -/
def inInterval (pieces : List (Token ⊕ Tree)) : Bool :=
  (rights pieces).foldl (fun between leaf => between ^^ intervalQuote leaf) false

/-- What a hidden token has to be: proper, or without a quote inside an interval expression. -/
def RegularToken (between : Bool) (text : List Char) : Prop :=
  if between then '\'' ∉ text else Proper text

/-- What a leaf has to be at its place: it leaves no literal, quoted identifier or comment open. An
interval expression has no quote inside and none directly behind it. -/
def RegularLeaf (before : List (Token ⊕ Tree)) (leaf : Tree) (after : List Char) : Prop :=
  if intervalQuote leaf then inInterval before → after.head? ≠ some '\''
  else if inInterval before then '\'' ∉ leaf.getText.toList
  else (modeAt (chars before) (leaf.getText.toList ++ after)).isOutside = true →
    (modeAt (chars before ++ leaf.getText.toList) after).isOutside = true

instance (between : Bool) (text : List Char) : Decidable (RegularToken between text) :=
  inferInstanceAs (Decidable (if between then '\'' ∉ text else Proper text))

instance (before : List (Token ⊕ Tree)) (leaf : Tree) (after : List Char) :
    Decidable (RegularLeaf before leaf after) :=
  inferInstanceAs (Decidable (if intervalQuote leaf then inInterval before → after.head? ≠ some '\''
    else if inInterval before then '\'' ∉ leaf.getText.toList
    else (modeAt (chars before) (leaf.getText.toList ++ after)).isOutside = true →
      (modeAt (chars before ++ leaf.getText.toList) after).isOutside = true))

def Regular (before : List (Token ⊕ Tree)) (piece : Token ⊕ Tree) (after : List Char) : Prop :=
  match piece with
  | .inl token => RegularToken (inInterval before) token.text.toList
  | .inr leaf => RegularLeaf before leaf after

instance (before : List (Token ⊕ Tree)) (piece : Token ⊕ Tree) (after : List Char) :
    Decidable (Regular before piece after) :=
  match piece with
  | .inl token => inferInstanceAs (Decidable (RegularToken (inInterval before) token.text.toList))
  | .inr leaf => inferInstanceAs (Decidable (RegularLeaf before leaf after))

/-! ## Leaves that are regular -/

section RegularLeaves

variable {before : List (Token ⊕ Tree)} {leaf : Tree} {after : List Char}

private theorem regularLeaf_of_scan (notQuote : leaf.getText ≠ "'")
    (outsideIntervals : inInterval before = false)
    (whole : (modeAt (chars before) (leaf.getText.toList ++ after)).isOutside = true →
      (scan (modeAt (chars before) (leaf.getText.toList ++ after)) leaf.getText.toList
        after.head?).isOutside = true) : RegularLeaf before leaf after := by
  have other : intervalQuote leaf = false := by simp [intervalQuote, notQuote]
  rw [RegularLeaf, other, outsideIntervals, if_neg Bool.false_ne_true, if_neg Bool.false_ne_true,
    modeAt_append]
  exact whole

/-- Keywords, plain names, numbers and most punctuation. -/
theorem regularLeaf_of_plain (outsideIntervals : inInterval before = false)
    (opens : ∀ c ∈ leaf.getText.toList, plain c = true) (noQuote : after.head? ≠ some '\'') :
    RegularLeaf before leaf after := by
  refine regularLeaf_of_scan ?_ outsideIntervals fun outside => scan_plain outside opens noQuote
  intro quote
  have plainQuote := opens '\'' (by rw [quote]; decide)
  contradiction

/-- String literals with escapes on. -/
theorem regularLeaf_of_escapeString {body : List Char} (outsideIntervals : inInterval before = false)
    (literal : leaf.getText.toList = 'E' :: '\'' :: (body ++ ['\''])) (escaped : EscapeBody body)
    (apart : modeAt (chars before) (leaf.getText.toList ++ after) = .outside false)
    (noQuote : after.head? ≠ some '\'') : RegularLeaf before leaf after := by
  refine regularLeaf_of_scan ?_ outsideIntervals fun _ => ?_
  · intro quote
    rw [quote] at literal
    cases literal
  · rw [apart, literal, scan_escapeString escaped noQuote]
    rfl

/-- Quoted identifiers. -/
theorem regularLeaf_of_quotedIdentifier {body : List Char}
    (outsideIntervals : inInterval before = false)
    (identifier : leaf.getText.toList = '"' :: (body ++ ['"'])) (noInner : '"' ∉ body)
    (noQuote : after.head? ≠ some '"') : RegularLeaf before leaf after := by
  refine regularLeaf_of_scan ?_ outsideIntervals fun outside => ?_
  · intro quote
    rw [quote] at identifier
    cases identifier
  · rw [identifier, scan_quotedIdentifier ?_ noInner noQuote]
    · rfl
    · rwa [identifier] at outside

end RegularLeaves

/-- Where PostgreSQL stands behind regular pieces. -/
def Stands (between : Bool) (mode : Mode) : Prop :=
  if between then mode = .literal false else mode.isOutside = true

@[simp] theorem inInterval_concat_inl (before : List (Token ⊕ Tree)) (token : Token) :
    inInterval (before ++ [.inl token]) = inInterval before := by
  rw [inInterval, rights_append]
  exact congrArg (List.foldl _ _) (List.append_nil _)

@[simp] theorem inInterval_concat_inr (before : List (Token ⊕ Tree)) (leaf : Tree) :
    inInterval (before ++ [.inr leaf]) = (inInterval before ^^ intervalQuote leaf) := by
  rw [inInterval, rights_append]
  exact List.foldl_append

/-- A hidden token of the lexer, at the place where PostgreSQL stands. -/
theorem read_hidden {token : Token} {between : Bool} {mode : Mode} (next : Option Char)
    (lexed : Lexed token) (stands : Stands between mode)
    (regular : RegularToken between token.text.toList) :
    Stands between (scan mode token.text.toList next) ∧
      ∀ kind ∈ kinds mode token.text.toList next,
        if between then kind = .literal else kind = .space ∨ kind = .comment := by
  cases between with
  | true =>
    obtain rfl : mode = .literal false := stands
    exact scan_literal next regular
  | false =>
    obtain ⟨input, lexeme, rest, lexing, -, text⟩ := lexed
    obtain ⟨-, span, matched⟩ := matched_of_nextHiddenToken lexing
    have same : token.text.toList = lexeme.span := by rw [text, span, String.toList_ofList]
    rw [same] at regular ⊢
    obtain ⟨behind, inside⟩ := scan_proper next matched regular stands
    exact ⟨by rw [behind]; rfl, inside⟩

/-- A quote of an interval expression opens a literal or closes it. -/
private theorem stands_quote {between : Bool} {mode : Mode} {next : Option Char}
    (stands : Stands between mode) (closes : between = true → next ≠ some '\'') :
    Stands (!between) (scan mode ['\''] next) := by
  rw [scan, scan, upcoming_nil]
  cases between with
  | true =>
    obtain rfl : mode = .literal false := stands
    rw [step, if_pos rfl, if_neg (closes rfl)]
    rfl
  | false =>
    rw [step_quote stands]
    rfl

/-- A regular leaf takes the scanner from where it stands to where it has to stand. -/
private theorem stands_leaf {before : List (Token ⊕ Tree)} {leaf : Tree} {after : List Char}
    (regular : RegularLeaf before leaf after)
    (stands : Stands (inInterval before) (modeAt (chars before) (leaf.getText.toList ++ after))) :
    Stands (inInterval before ^^ intervalQuote leaf)
      (modeAt (chars before ++ leaf.getText.toList) after) := by
  rw [RegularLeaf, modeAt_append] at regular
  rw [modeAt_append]
  cases quote : intervalQuote leaf with
  | true =>
    rw [quote, if_pos rfl] at regular
    rw [getText_of_intervalQuote quote] at stands ⊢
    rw [Bool.xor_true]
    exact stands_quote stands regular
  | false =>
    rw [quote, if_neg Bool.false_ne_true] at regular
    rw [Bool.xor_false]
    cases between : inInterval before with
    | true =>
      rw [between] at stands regular
      rw [show modeAt _ _ = .literal false from stands]
      exact (scan_literal after.head? regular).1
    | false =>
      rw [between] at stands regular
      exact regular stands

/-- One regular piece takes the scanner from where it stands to where it has to stand. -/
theorem stands_step {before : List (Token ⊕ Tree)} {piece : Token ⊕ Tree} {after : List Char}
    (lexed : ∀ token, piece = .inl token → Lexed token) (regular : Regular before piece after)
    (stands : Stands (inInterval before)
      (modeAt (chars before) ((pieceText piece).toList ++ after))) :
    Stands (inInterval (before ++ [piece]))
      (modeAt (chars before ++ (pieceText piece).toList) after) := by
  cases piece with
  | inl token =>
    rw [inInterval_concat_inl, modeAt_append]
    exact (read_hidden after.head? (lexed token rfl) stands regular).1
  | inr leaf =>
    rw [inInterval_concat_inr]
    exact stands_leaf regular stands

/-- Behind a run of regular pieces the scanner is outside, or inside the literal of the interval
expression that the run ends in. -/
theorem stands_of_regular {before rest : List (Token ⊕ Tree)}
    (lexed : ∀ token, .inl token ∈ before → Lexed token)
    (regular : ∀ front piece back, before = front ++ piece :: back →
      Regular front piece (chars (back ++ rest))) :
    Stands (inInterval before) (modeAt (chars before) (chars rest)) := by
  induction before using List.reverseRecOn generalizing rest with
  | nil => rfl
  | append_singleton before piece ih =>
    have stands := @ih (piece :: rest)
      (fun token member => lexed token (List.mem_append_left _ member)) (by
        intro front other back split
        have longer := regular front other (back ++ [piece]) (by rw [split]; simp)
        rwa [List.append_assoc] at longer)
    have own := regular before piece [] rfl
    rw [chars_append, chars_cons, chars_nil, List.append_nil]
    refine stands_step (fun token same => lexed token ?_) own stands
    rw [same]
    exact List.mem_append_right _ List.mem_cons_self

private theorem lexed_of_printed (vector : LexedVector) (tree : Option Tree) {token : Token}
    (printed : .inl token ∈ (printTree vector.tokens tree).pieces) : Lexed token := by
  have member : token ∈ lefts (printTree vector.tokens tree).pieces :=
    List.mem_filterMap.mpr ⟨_, printed, rfl⟩
  rw [printTree_pieces, lefts_merge] at member
  obtain ⟨present, isHidden⟩ := List.mem_filter.mp member
  exact vector.lexed token present isHidden

/-- `SELECT INTERVAL 15 DAY -- c` and, on the next line, a semicolon. -/
private def intervalTokens : List Token :=
  [⟨.kSelect, "SELECT", .default, 1, 0⟩, ⟨.ws, " ", .hidden, 1, 6⟩,
    ⟨.other 1, "INTERVAL", .default, 1, 7⟩, ⟨.ws, " ", .hidden, 1, 15⟩,
    ⟨.number, "15", .default, 1, 16⟩, ⟨.ws, " ", .hidden, 1, 18⟩,
    ⟨.other 2, "DAY", .default, 1, 19⟩, ⟨.ws, " ", .hidden, 1, 22⟩,
    ⟨.slComment, "-- c\n", .hidden, 1, 23⟩, ⟨.semi, ";", .default, 2, 0⟩,
    ⟨.eof, "<EOF>", .default, 2, 1⟩]

private theorem lexed_blank (line : ℕ) (column : ℤ) : Lexed ⟨.ws, " ", .hidden, line, column⟩ :=
  ⟨[' '], _, [], rfl, rfl, rfl⟩

private theorem lexed_comment (line : ℕ) (column : ℤ) :
    Lexed ⟨.slComment, "-- c\n", .hidden, line, column⟩ :=
  ⟨"-- c\n".toList, _, [], rfl, rfl, rfl⟩

private def intervalVector : LexedVector where
  tokens := intervalTokens
  lexed := by
    simp only [intervalTokens, List.forall_mem_cons]
    simp [Token.isHidden, lexed_blank, lexed_comment]

private def intervalTree : Tree :=
  .node none [
    .node (some (.imaginary .tSelectStatement "T_SELECT_STATEMENT")) [
      .leaf ⟨.kSelect, "SELECT", .default, 1, 0⟩, .leaf ⟨.other 1, "INTERVAL", .default, 1, 7⟩,
      .leaf (.imaginary .tTransform "'"), .leaf ⟨.number, "15", .default, 1, 16⟩,
      .leaf ⟨.other 2, "DAY", .default, 1, 19⟩, .leaf (.imaginary .tTransform "'"),
      .leaf ⟨.semi, ";", .default, 2, 0⟩],
    .leaf ⟨.eof, "<EOF>", .default, 2, 1⟩]

private theorem split_iff {α : Type*} (l : List α) (p : List α → α → List α → Prop) :
    (∀ front piece back, l = front ++ piece :: back → p front piece back) ↔
      ∀ i : Fin l.length, p (l.take i) l[i] (l.drop (i + 1)) := by
  constructor
  · intro every i
    exact every _ _ _ (by rw [Fin.getElem_fin, List.getElem_cons_drop, List.take_append_drop])
  · rintro every front piece back rfl
    have own := every ⟨front.length, by simp⟩
    simpa using own

end Pgify.HiddenText
