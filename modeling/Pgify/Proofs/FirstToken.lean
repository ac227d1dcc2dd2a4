import Pgify.Proofs.Backquotes
import Pgify.Proofs.TokenSpans

/-! # The readers of single kinds of tokens

The readers at a quote, at a backtick and of hidden tokens are rules of the lexer on their own. On
every input they give what a turn of the lexer gives there: its token with the span, the text and
the rest of the input, or nothing where the turn ends in an error.
-/

namespace Pgify.FirstToken

open Pgify.Model SpanLanguage TokenLanguages TokenSpans

variable {rt : Runtime} {options : ℕ} {rule : LexRule} {input span rest tail : List UInt8}

/-- A token in front of a rest, as the readers give it. -/
def found (rt : Runtime) (options : ℕ) (rule : LexRule) (span rest : List UInt8) :
    Lexeme × List Char :=
  (⟨rule.type, span.map charOf, rule.text rt options span⟩, rest.map charOf)

/-- A turn of the lexer matches a rule and leaves a rest. -/
def Turns (input : List UInt8) (rule : LexRule) (rest : List UInt8) : Prop :=
  (lexer.next ⟨.ucase, input, false⟩).error = false ∧
    LexerState.predict ⟨.ucase, input, false⟩ = some rule ∧
    (lexer.next ⟨.ucase, input, false⟩).rest = rest

/-- What is read from an input is the token of the lexer's turn, if its rule is of some kind. -/
def IsNext (rt : Runtime) (options : ℕ) (kind : LexRule → Bool) (input : List UInt8)
    (read : Option (Lexeme × List Char)) : Prop :=
  ∀ result, read = some result ↔
    ∃ rule span rest, input = span ++ rest ∧ Turns input rule rest ∧ kind rule = true ∧
      result = found rt options rule span rest

theorem turns_iff : Turns (span ++ rest) rule rest ↔ IsToken rule span rest := by
  refine (LexicalGrammar.next_eq_iff rfl).trans ⟨?_, fun token => ⟨span, rfl, token⟩⟩
  rintro ⟨other, same, token⟩
  rwa [List.append_cancel_right same]

/-- A turn gives one token at most, so it is enough to read it, and to have one when something is
read. -/
theorem isNext_of {kind : LexRule → Bool} {read : Option (Lexeme × List Char)}
    (reads : ∀ rule span rest, input = span ++ rest → IsToken rule span rest → kind rule = true →
      read = some (found rt options rule span rest))
    (first : read.isSome = true →
      ∃ rule span rest, input = span ++ rest ∧ IsToken rule span rest ∧ kind rule = true) :
    IsNext rt options kind input read := by
  intro result
  constructor
  · intro own
    obtain ⟨rule, span, rest, rfl, token, listed⟩ := first (by rw [own]; rfl)
    rw [reads rule span rest rfl token listed] at own
    exact ⟨rule, span, rest, rfl, turns_iff.mpr token, listed, (Option.some.inj own).symm⟩
  · rintro ⟨rule, span, rest, rfl, turn, listed, rfl⟩
    exact reads rule span rest rfl (turns_iff.mp turn) listed

/-! ## Backticks -/

theorem split_backquotedBody {chars content left : List Char}
    (consumed : backquotedBody chars = some (content, left)) :
    chars = content ++ '`' :: left ∧ '`' ∉ content := by
  induction chars generalizing content with
  | nil => cases consumed
  | cons c chars ih =>
    rw [backquotedBody] at consumed
    split at consumed
    · next backtick =>
      obtain ⟨rfl, rfl⟩ := Prod.mk.inj (Option.some.inj consumed)
      exact ⟨by rw [backtick]; rfl, List.not_mem_nil⟩
    · next other =>
      obtain ⟨⟨inner, behind⟩, matched, same⟩ := Option.map_eq_some_iff.mp consumed
      obtain ⟨rfl, rfl⟩ := Prod.mk.inj same
      obtain ⟨rfl, absent⟩ := ih matched
      refine ⟨rfl, fun member => ?_⟩
      rcases List.mem_cons.mp member with same | inside
      · exact other same.symm
      · exact absent inside

/-- At a backtick: a backquoted name up to the next one, or the last character of the input. -/
theorem nextTokenAtBacktick_isNext (rt : Runtime) (options : ℕ) (tail : List UInt8) :
    IsNext rt options (fun _ => true) ('`'.toUInt8 :: tail)
      (nextTokenAtBacktick rt options (('`'.toUInt8 :: tail).map charOf)) := by
  have start : ('`'.toUInt8 :: tail).map charOf = '`' :: tail.map charOf := rfl
  have decided : predicted ('`'.toUInt8 :: tail) =
      if tail.isEmpty then some (.literal "`" (.other 560)) else some .id := predicted_cons _ _
  rw [start]
  refine isNext_of ?_ ?_
  · intro rule span rest whole token _
    obtain ⟨own, matched⟩ := isToken_iff.mp token
    rw [← whole, decided] at own
    cases tail with
    | nil =>
      obtain rfl : LexRule.literal "`" (.other 560) = rule := Option.some.inj own
      obtain rfl := (literal_iff (by decide)).mp matched
      obtain rfl := (List.cons.inj whole).2
      rfl
    | cons c tail =>
      obtain rfl : LexRule.id = rule := Option.some.inj own
      obtain ⟨content, rfl, absent⟩ :=
        enclosed_iff.mp (identifier_backquoted whole.symm matched)
      have inside : '`' ∉ content.map charOf := mt (mem_map_charOf (by decide)).mp absent
      have chars : '`' :: (c :: tail).map charOf =
          '`' :: content.map charOf ++ '`' :: rest.map charOf := by
        rw [← start, whole]
        simp [charOf_literal]
      have spelled : ('`'.toUInt8 :: (content ++ ['`'.toUInt8])).map charOf =
          '`' :: content.map charOf ++ ['`'] := by simp [charOf_literal]
      have text : LexRule.id.text rt options ('`'.toUInt8 :: (content ++ ['`'.toUInt8])) =
          backquotedText rt options (String.ofList ('`' :: content.map charOf ++ ['`'])) := by
        change nameText rt options .id (spanText _) = _
        rw [nameText, spanText, spelled, if_pos (by simp)]
      rw [chars, Backquotes.nextTokenAtBacktick_content rt options inside, found, spelled, text]
      rfl
  · intro some
    cases tail with
    | nil => exact ⟨_, ['`'.toUInt8], [], rfl, .backtick, rfl⟩
    | cons c tail =>
      obtain ⟨⟨lexeme, left⟩, read⟩ := Option.isSome_iff_exists.mp some
      have long : 1 < ('`' :: (c :: tail).map charOf).length := by
        simp only [List.length_cons, List.map_cons]
        omega
      rw [nextTokenAtBacktick, if_pos long, mBackquotedString, if_pos rfl] at read
      obtain ⟨⟨content, behind⟩, consumed, -⟩ := Option.map_eq_some_iff.mp read
      obtain ⟨split, absent⟩ := split_backquotedBody consumed
      obtain ⟨body, rest, whole, rfl, -⟩ := bytes_of_split (by decide) split
      rw [mem_map_charOf (by decide)] at absent
      refine ⟨.id, '`'.toUInt8 :: (body ++ ['`'.toUInt8]), rest, ?_,
        .backquoted (enclosed_iff.mpr ⟨body, rfl, absent⟩), rfl⟩
      rw [whole]
      simp

/-! ## Quotes -/

theorem split_quotedStringBody {chars taken left : List Char}
    (consumed : quotedStringBody chars = some (taken, left)) :
    ∃ body, chars = body ++ '\'' :: left ∧ taken = body ++ ['\''] := by
  induction chars using quotedStringBody.induct generalizing taken with
  | case1 => cases consumed
  | case2 chars =>
    obtain ⟨rfl, rfl⟩ := Prod.mk.inj (Option.some.inj consumed)
    exact ⟨[], rfl, rfl⟩
  | case3 c chars ih =>
    obtain ⟨⟨inner, behind⟩, matched, same⟩ := Option.map_eq_some_iff.mp consumed
    obtain ⟨rfl, rfl⟩ := Prod.mk.inj same
    obtain ⟨body, split, rfl⟩ := ih matched
    exact ⟨'\\' :: '\'' :: body, by rw [split]; rfl, rfl⟩
  | case4 c chars notQuote notEscaped ih =>
    rw [quotedStringBody.eq_4 _ _ notQuote notEscaped] at consumed
    obtain ⟨⟨inner, behind⟩, matched, same⟩ := Option.map_eq_some_iff.mp consumed
    obtain ⟨rfl, rfl⟩ := Prod.mk.inj same
    obtain ⟨body, rfl, rfl⟩ := ih matched
    exact ⟨c :: body, rfl, rfl⟩

/-- The reader of a string and the loop of the rule end at the same quote. -/
theorem left_quotedStringBody (input : List UInt8) :
    (quotedStringBody (input.map charOf)).map Prod.snd =
      (LexerState.quotedStringLoop .ucase input).head?.map fun _ =>
        (LexerState.quotedStringLoop .ucase input).tail.map charOf := by
  match input with
  | [] => rfl
  | c :: input =>
    by_cases quote : c = '\''.toUInt8
    · subst quote
      rw [loop_quote]
      rfl
    · have notQuote : charOf c ≠ '\'' := mt (charOf_eq_iff (by decide)).mp quote
      by_cases backslash : c = '\\'.toUInt8
      · subst backslash
        match input with
        | [] => rfl
        | d :: input =>
          by_cases escaped : d = '\''.toUInt8
          · subst escaped
            match input with
            | [] => rfl
            | e :: input =>
              rw [loop_escaped, ← left_quotedStringBody (e :: input)]
              change ((quotedStringBody ((e :: input).map charOf)).map _).map Prod.snd = _
              rw [Option.map_map]
              rfl
          · have plain : charOf d ≠ '\'' := mt (charOf_eq_iff (by decide)).mp escaped
            rw [loop_skipped escaped, ← left_quotedStringBody (d :: input), List.map_cons,
              List.map_cons, quotedStringBody.eq_4 _ _ notQuote fun f behind _ same =>
                plain (List.cons.inj same).1, Option.map_map]
            rfl
      · have notBackslash : charOf c ≠ '\\' := mt (charOf_eq_iff (by decide)).mp backslash
        rw [loop_cons quote backslash, ← left_quotedStringBody input, List.map_cons,
          quotedStringBody.eq_4 _ _ notQuote fun f behind same _ => notBackslash same,
          Option.map_map]
        rfl

theorem quotedStringBody_iff (body rest : List UInt8) :
    quotedStringBody ((body ++ '\''.toUInt8 :: rest).map charOf) =
      some ((body ++ ['\''.toUInt8]).map charOf, rest.map charOf) ↔ Closes body rest := by
  have left := left_quotedStringBody (body ++ '\''.toUInt8 :: rest)
  rw [← quotedStringLoop_iff]
  constructor
  · intro consumed
    rw [consumed] at left
    obtain ⟨q, loop, same⟩ : ∃ q behind,
        LexerState.quotedStringLoop .ucase (body ++ '\''.toUInt8 :: rest) = q :: behind := by
      cases loop : LexerState.quotedStringLoop .ucase (body ++ '\''.toUInt8 :: rest) with
      | nil => rw [loop] at left; cases left
      | cons q behind => exact ⟨q, behind, rfl⟩
    rw [same] at left
    have length := congrArg List.length (Option.some.inj left)
    simp only [List.length_map, List.tail_cons] at length
    have suffix := LexerState.suffix_quotedStringLoop .ucase (body ++ '\''.toUInt8 :: rest)
    rw [same] at suffix ⊢
    refine (List.suffix_of_suffix_length_le suffix (List.suffix_append _ _) ?_).eq_of_length ?_
    · simp only [List.length_cons]
      omega
    · simp only [List.length_cons]
      omega
  · intro stops
    rw [stops] at left
    obtain ⟨⟨taken, behind⟩, consumed, same⟩ := Option.map_eq_some_iff.mp left
    obtain rfl : behind = rest.map charOf := same
    obtain ⟨front, split, rfl⟩ := split_quotedStringBody consumed
    rw [List.map_append, List.map_cons, charOf_literal (by decide)] at split
    rw [consumed, List.map_append, List.append_cancel_right split]
    rfl

theorem mQuotedString_found (rt : Runtime) (options : ℕ) {body rest : List UInt8}
    (closes : Closes body rest) :
    Model.mQuotedString options ('\'' :: (body ++ '\''.toUInt8 :: rest).map charOf) =
      some (found rt options .quotedString
        ('\''.toUInt8 :: (body ++ ['\''.toUInt8])) rest) := by
  rw [Model.mQuotedString, (quotedStringBody_iff body rest).mpr closes]
  rfl

/-- What is read as a string closes. -/
theorem closes_of_mQuotedString {found : Lexeme × List Char}
    (read : Model.mQuotedString options ('\'' :: tail.map charOf) = some found) :
    ∃ body rest, tail = body ++ '\''.toUInt8 :: rest ∧ Closes body rest := by
  obtain ⟨⟨taken, left⟩, consumed, -⟩ := Option.map_eq_some_iff.mp read
  obtain ⟨inner, split, rfl⟩ := split_quotedStringBody consumed
  obtain ⟨body, rest, rfl, rfl, rfl⟩ := bytes_of_split (by decide) split
  refine ⟨body, rest, rfl, (quotedStringBody_iff body rest).mp ?_⟩
  rw [consumed, List.map_append]
  rfl

/-- A literal in front of a rest, as characters. -/
theorem zeroDate_bytesOf (type : TokenType) {literal : String}
    (ascii : (bytesOf literal).map charOf = literal.toList) (rest : List UInt8) :
    zeroDate type literal.toList ((bytesOf literal ++ rest).map charOf) =
      some (⟨type, literal.toList, "NULL"⟩, rest.map charOf) := by
  have starts : literal.toList.isPrefixOf (literal.toList ++ rest.map charOf) = true :=
    List.isPrefixOf_iff_prefix.mpr (List.prefix_append _ _)
  rw [zeroDate, dropPrefix?, List.map_append, ascii, if_pos starts, List.drop_left]
  rfl

/-- At a quote: one of the two literals, a string, or the last character of the input. -/
theorem nextTokenAtQuote_isNext (rt : Runtime) (options : ℕ) (tail : List UInt8) :
    IsNext rt options (fun _ => true) ('\''.toUInt8 :: tail)
      (nextTokenAtQuote options (('\''.toUInt8 :: tail).map charOf)) := by
  have start : ('\''.toUInt8 :: tail).map charOf = '\'' :: tail.map charOf := rfl
  refine isNext_of ?_ ?_
  · intro rule span rest whole token _
    obtain ⟨decided, own⟩ := isToken_iff.mp token
    rw [← whole] at decided
    cases tail with
    | nil =>
      obtain rfl : LexRule.literal "'" .quote = rule :=
        Option.some.inj ((predicted_cons _ _).symm.trans decided)
      obtain rfl := (literal_iff (by decide)).mp own
      obtain rfl := (List.cons.inj whole).2
      rfl
    | cons d tail =>
      have choice : predictQuote ((d :: tail).map charOf) = _ :=
        predictQuote_eq .raw (List.cons_ne_nil d tail)
      rw [predicted_quote (List.cons_ne_nil _ _)] at decided
      simp only [nextTokenAtQuote, start, List.drop_one, List.tail_cons, choice]
      by_cases date : dateBehind <+: d :: tail
      · rw [if_pos date] at decided ⊢
        obtain rfl := Option.some.inj decided
        obtain rfl := (literal_iff (by decide)).mp own
        rw [← start, whole]
        exact @zeroDate_bytesOf .stupidMysqlDate "'0000-00-00'" (by decide) rest
      · by_cases timestamp : timestampBehind <+: d :: tail
        · rw [if_neg date, if_pos timestamp] at decided ⊢
          obtain rfl := Option.some.inj decided
          obtain rfl := (literal_iff (by decide)).mp own
          rw [← start, whole]
          exact @zeroDate_bytesOf .stupidMysqlTimestamp "'0000-00-00 00:00:00'" (by decide) rest
        · rw [if_neg date, if_neg timestamp] at decided ⊢
          split at decided
          · cases decided
          · next open_ =>
            obtain rfl := Option.some.inj decided
            obtain ⟨body, rfl, escaped, last⟩ := own
            have behind : d :: tail = body ++ '\''.toUInt8 :: rest := by
              simpa using (List.cons.inj whole).2
            rw [if_neg open_, behind]
            exact mQuotedString_found rt options ⟨escaped, last⟩
  · intro some
    cases tail with
    | nil => exact ⟨_, ['\''.toUInt8], [], rfl, .quote, rfl⟩
    | cons d tail =>
      have choice : predictQuote ((d :: tail).map charOf) = _ :=
        predictQuote_eq .raw (List.cons_ne_nil d tail)
      have decided := predicted_quote (List.cons_ne_nil d tail)
      simp only [nextTokenAtQuote, start, List.drop_one, List.tail_cons, choice] at some
      by_cases date : dateBehind <+: d :: tail
      · obtain ⟨rest, same⟩ := date
        refine ⟨_, _, rest, ?_, .zeroDate (List.mem_cons_self), rfl⟩
        rw [date_eq, ← same, List.cons_append]
      · by_cases timestamp : timestampBehind <+: d :: tail
        · obtain ⟨rest, same⟩ := timestamp
          refine ⟨_, _, rest, ?_,
            .zeroDate (List.mem_cons_of_mem _ List.mem_cons_self), rfl⟩
          rw [timestamp_eq, ← same, List.cons_append]
        · rw [if_neg date, if_neg timestamp] at some decided
          split at some
          · cases some
          · next open_ =>
            rw [if_neg open_] at decided
            obtain ⟨result, read⟩ := Option.isSome_iff_exists.mp some
            obtain ⟨body, rest, behind, escaped, last⟩ := closes_of_mQuotedString read
            have whole : '\''.toUInt8 :: d :: tail =
                '\''.toUInt8 :: (body ++ ['\''.toUInt8]) ++ rest := by
              rw [behind]
              simp
            rw [whole] at decided
            exact ⟨_, _, rest, whole,
              isToken_of_predicted decided ⟨body, rfl, escaped, last⟩, rfl⟩

/-! ## Blanks and comments -/

theorem lineBody_of_line {body : List Char} (line : HiddenText.Line body) (left : List Char) :
    lineBody (body ++ left) = some (body, left) := by
  obtain ⟨text, ending, rfl, ends, oneLine⟩ := line
  induction text with
  | nil => rcases ends with rfl | rfl <;> rfl
  | cons c text ih =>
    obtain ⟨own, oneLine⟩ := List.forall_mem_cons.mp oneLine
    rw [not_or] at own
    rw [List.cons_append, List.cons_append, lineBody, if_neg own.1, if_neg own.2, ih oneLine]
    rfl

theorem mlBody_of_first {inner : List Char} (first : ¬ ['*', '/'] <:+: inner ++ ['*'])
    (left : List Char) :
    mlBody (inner ++ '*' :: '/' :: left) = some (inner ++ ['*', '/'], left) := by
  induction inner with
  | nil => rfl
  | cons c inner ih =>
    rw [List.cons_append, List.infix_cons_iff, not_or] at first
    have goesOn : ¬ (c = '*' ∧ (inner ++ '*' :: '/' :: left).head? = some '/') := by
      rintro ⟨rfl, slash⟩
      cases inner with
      | nil => cases slash
      | cons d inner =>
        obtain rfl : d = '/' := Option.some.inj slash
        exact first.1 ⟨inner ++ ['*'], rfl⟩
    rw [List.cons_append, mlBody, if_neg goesOn, ih first.2]
    rfl

/-- What is not hidden is none of the four tokens. -/
theorem isToken_hidden (token : IsToken rule span rest) (hidden : rule.channel = .hidden) :
    (rule = .ws ∧ single isBlankCh span rest) ∨ (rule = .slComment ∧ Lexical.slComment span rest) ∨
      (rule = .mysqlComment ∧ Lexical.mysqlComment span rest) ∨
      (rule = .mlComment ∧ Lexical.mlComment span rest) := by
  have own := (isToken_iff.mp token).2
  cases rule with
  | literal spelling type => cases hidden
  | id => cases hidden
  | number => cases hidden
  | quotedString => cases hidden
  | qstring => cases hidden
  | ws => exact Or.inl ⟨rfl, own⟩
  | slComment => exact Or.inr (Or.inl ⟨rfl, own⟩)
  | mysqlComment => exact Or.inr (Or.inr (Or.inl ⟨rfl, own⟩))
  | mlComment => exact Or.inr (Or.inr (Or.inr ⟨rfl, own⟩))

/-- Hidden tokens, wherever they stand. -/
theorem nextHiddenToken_isNext (rt : Runtime) (options : ℕ) (input : List UInt8) :
    IsNext rt options (fun rule => decide (rule.channel = .hidden)) input
      (nextHiddenToken (input.map charOf)) := by
  refine isNext_of ?_ ?_
  · rintro rule span rest rfl token hidden
    rw [List.map_append]
    rcases isToken_hidden token (of_decide_eq_true hidden) with
      ⟨rfl, c, rfl, blank⟩ | ⟨rfl, comment⟩ | ⟨rfl, comment⟩ | ⟨rfl, comment⟩
    · simp only [isBlankCh, List.map_cons, List.map_nil, List.contains_cons, List.contains_nil,
        Bool.or_eq_true, beq_iff_eq, Bool.false_eq_true, or_false] at blank
      rcases blank with rfl | rfl | rfl | rfl <;> rfl
    · obtain ⟨_, body, rfl, dashes, line⟩ := comment
      obtain rfl := (reading_iff (by decide)).mp dashes
      have consumed := lineBody_of_line (line_iff.mp line) (rest.map charOf)
      change (lineBody (body.map charOf ++ rest.map charOf)).map _ = _
      rw [consumed, found, List.map_append]
      rfl
    · obtain ⟨_, body, rfl, hash, line⟩ := comment
      obtain rfl := single_isCh_iff.mp hash
      have consumed := lineBody_of_line (line_iff.mp line) (rest.map charOf)
      change (lineBody (body.map charOf ++ rest.map charOf)).map _ = _
      rw [consumed, found, List.map_append]
      rfl
    · obtain ⟨_, body, rfl, opener, closed⟩ := comment
      obtain rfl := (reading_iff (by decide)).mp opener
      obtain ⟨inner, rfl, first⟩ := upTo_iff.mp closed
      have consumed := mlBody_of_first first (rest.map charOf)
      have closing : (inner ++ bytesOf "*/").map charOf = inner.map charOf ++ ['*', '/'] := by
        rw [List.map_append]
        rfl
      change (mlBody ((inner ++ bytesOf "*/").map charOf ++ rest.map charOf)).map _ =
        some (hiddenLexeme .mlComment ('/' :: '*' :: (inner ++ bytesOf "*/").map charOf),
          rest.map charOf)
      rw [closing, List.append_assoc, List.cons_append, List.cons_append, List.nil_append, consumed]
      rfl
  · intro some
    obtain ⟨⟨⟨type, whole, text⟩, left⟩, read⟩ := Option.isSome_iff_exists.mp some
    obtain ⟨split, -, matched⟩ := HiddenText.matched_of_nextHiddenToken read
    obtain ⟨span, rest, rfl, chars, -⟩ := List.map_eq_append_iff.mp split
    change HiddenText.Matched type whole at matched
    change span.map charOf = whole at chars
    cases matched with
    | @ws c blank =>
      refine ⟨.ws, span, rest, rfl, ?_, rfl⟩
      rw [eq_of_map_charOf chars]
      refine .ws ?_
      rcases blank with rfl | rfl | rfl | rfl <;> rfl
    | slComment line =>
      obtain ⟨a, _, rfl, first, own⟩ := List.map_eq_cons_iff.mp chars
      obtain ⟨b, body, rfl, second, rfl⟩ := List.map_eq_cons_iff.mp own
      obtain rfl := (charOf_eq_iff (by decide)).mp first
      obtain rfl := (charOf_eq_iff (by decide)).mp second
      exact ⟨.slComment, _, rest, rfl, .slComment ⟨bytesOf "--", body, rfl,
        (reading_iff (by decide)).mpr rfl, line_iff.mpr line⟩, rfl⟩
    | mysqlComment line =>
      obtain ⟨a, body, rfl, first, rfl⟩ := List.map_eq_cons_iff.mp chars
      obtain rfl := (charOf_eq_iff (by decide)).mp first
      exact ⟨.mysqlComment, _, rest, rfl, .mysqlComment ⟨['#'.toUInt8], body, rfl,
        single_isCh_iff.mpr rfl, line_iff.mpr line⟩, rfl⟩
    | mlComment first =>
      obtain ⟨a, _, rfl, slash, own⟩ := List.map_eq_cons_iff.mp chars
      obtain ⟨b, _, rfl, star, own⟩ := List.map_eq_cons_iff.mp own
      obtain ⟨inner, closer, rfl, rfl, closing⟩ := List.map_eq_append_iff.mp own
      obtain rfl := (charOf_eq_iff (by decide)).mp slash
      obtain rfl := (charOf_eq_iff (by decide)).mp star
      obtain rfl := eq_of_map_charOf closing
      exact ⟨.mlComment, _, rest, rfl, .mlComment ⟨bytesOf "/*", inner ++ bytesOf "*/", rfl,
        (reading_iff (by decide)).mpr rfl, upTo_iff.mpr ⟨inner, rfl, first⟩⟩, rfl⟩

end Pgify.FirstToken
