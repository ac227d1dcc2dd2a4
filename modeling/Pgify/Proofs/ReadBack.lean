import Mathlib.Data.List.Chain
import Pgify.Lib.PostgresScan
import Pgify.Proofs.Backquotes
import Pgify.Proofs.Reproduction
import Pgify.Proofs.TokenSpans

/-! # What is read back

PostgreSQL sorts the characters of the output into white space, comments, literals, quoted
identifiers and code. For tokens that it spells alike, and that do not meet in a word, it reads the
text of every token as what the lexer took the token for: nothing in a string or in a comment of the
input becomes code, and no code becomes part of a string or of a comment.
-/

namespace Pgify.ReadBack

open Pgify.Model PostgresScan SpanLanguage Lexical TokenLanguages TokenSpans

/-! ## Tokens and their texts -/

/-- What a token is. A zero date is code, for the lexer makes it NULL. -/
def kindOf : SpelledToken → Kind
  | (.ws, _) => .space
  | (.slComment, _) | (.mysqlComment, _) | (.mlComment, _) => .comment
  | (.quotedString, _) | (.qstring, _) => .literal
  | (.id, span) =>
    if startsWith (fun c => isCh '"' c || isCh '`' c) span then .identifier else .code
  | (.number, _) | (.literal .., _) => .code

/-- The characters that are printed for a token. -/
def textOf (rt : Runtime) (options : ℕ) (token : SpelledToken) : List Char :=
  (token.1.text rt options token.2).toList

/-- A token that is spelled alike in PostgreSQL: no comment behind `#` and no comment in a comment,
no q-quoted string, no escape in a string unless strings are printed as escape strings, and no other
quote in a quoted name and no `#` in a plain one. -/
def Portable (options : ℕ) : SpelledToken → Prop
  | (.mysqlComment, _) | (.qstring, _) => False
  | (.mlComment, span) => ¬ bytesOf "/*" <:+: span.tail
  | (.quotedString, span) =>
    if pgifyIsEscape options then
      ∃ body, span = '\''.toUInt8 :: (body ++ ['\''.toUInt8]) ∧ EscapeBody (body.map charOf)
    else '\\'.toUInt8 ∉ span
  | (.id, span) =>
    if startsWith (isCh '`') span then '"'.toUInt8 ∉ span
    else startsWith (isCh '"') span ∨ '#'.toUInt8 ∉ span
  | (.literal _ type, span) => type ≠ .quote ∧ type ≠ .other 560 ∧ '#'.toUInt8 ∉ span
  | (.number, _) | (.ws, _) | (.slComment, _) => True

/-- Tokens that do not run into each other: a string is not right behind a text that ends like a
word, nor right behind a string unless strings are printed as escape strings, and quoted names are
apart. -/
structure Apart (rt : Runtime) (options : ℕ) (first second : SpelledToken) : Prop where
  word : second.1 = .quotedString →
    ∃ c, (textOf rt options first).getLast? = some c ∧ identCont c = false
  strings : pgifyIsEscape options = false → first.1 = .quotedString → second.1 ≠ .quotedString
  names : kindOf first = .identifier → kindOf second ≠ .identifier

variable {rt : Runtime} {options : ℕ} {rule : LexRule} {span rest : List UInt8}

/-! ## Bytes and characters -/

theorem forall_byte {p : UInt8 → Prop} (each : ∀ n < 256, p (UInt8.ofNat n)) (c : UInt8) : p c := by
  have own := each c.toNat c.toNat_lt
  rwa [UInt8.ofNat_toNat] at own

theorem identStart_of_letter : ∀ c : UInt8, isLetterCh (toupper c) = true →
    identStart (charOf c) = true :=
  forall_byte (by decide +kernel)

theorem identCont_of_wordCh : ∀ c : UInt8, isWordCh (toupper c) = true ∧ c ≠ '#'.toUInt8 →
    identCont (charOf c) = true :=
  forall_byte (by decide +kernel)

theorem isSpace_of_blank : ∀ c : UInt8, isBlankCh c = true → isSpace (charOf c) = true :=
  forall_byte (by decide +kernel)

/-! ## Texts that an action sets -/

def retexts : List String :=
  "NULL" :: setTexts.map Prod.snd

/-- A text that an action sets is code wherever it stands. -/
theorem reads_retext {text : String} (listed : text ∈ retexts) {inWord : Bool}
    {next : Option Char} : Reads .code inWord text.toList next := by
  have each : ∀ text ∈ retexts, text.toList ≠ [] ∧
      (∀ c ∈ text.toList, c ≠ '\'' ∧ c ≠ '"' ∧ c ≠ '$') ∧ '-' ∉ text.toList ∧ '/' ∉ text.toList ∧
      text.toList.getLast? ≠ some 'E' ∧ text.toList.getLast? ≠ some 'e' := by
    decide
  obtain ⟨filled, opens, dash, slash, upper, lower⟩ := each text listed
  refine reads_code filled opens (not_pair_of_absent dash) (not_pair_of_absent slash) ?_
  exact fun _ c last => ⟨fun same => upper (same ▸ last), fun same => lower (same ▸ last)⟩

theorem textOf_literal {spelling : String} {type : TokenType} (name : type ≠ .id)
    (string : type ≠ .quotedString) :
    (∃ text ∈ retexts, textOf rt options (.literal spelling type, span) = text.toList) ∨
      textOf rt options (.literal spelling type, span) = span.map charOf := by
  have verbatim : (spanText span).toList = span.map charOf := String.toList_ofList
  have named : (∃ text ∈ retexts, (nameText rt options type (spanText span)).toList = text.toList) ∨
      (nameText rt options type (spanText span)).toList = span.map charOf := by
    have own : nameText rt options type (spanText span) =
        (setTexts.lookup type).getD (spanText span) := by
      unfold nameText
      split
      · exact absurd rfl name
      · exact absurd rfl string
      · rfl
    rw [own]
    cases set : setTexts.lookup type with
    | none => exact .inr verbatim
    | some text =>
      obtain ⟨before, after, split, -⟩ := List.lookup_eq_some_iff.mp set
      refine .inl ⟨text, List.mem_cons_of_mem _ ?_, rfl⟩
      rw [split, List.map_append]
      exact List.mem_append_right _ List.mem_cons_self
  rw [textOf, LexRule.text]
  split
  · exact .inl ⟨"NULL", List.mem_cons_self, rfl⟩
  · exact .inl ⟨"NULL", List.mem_cons_self, rfl⟩
  · exact named

/-! ## Words and operators -/

variable {inWord : Bool} {next : Option Char}

theorem reads_spelledWord (word : Lexical.word span rest) (plain : '#'.toUInt8 ∉ span)
    (apart : next = some '\'' → ∀ c ∈ (span.map charOf).getLast?, identCont c = false) :
    Reads .code inWord (span.map charOf) next := by
  obtain ⟨starts, inside, -⟩ := word_iff.mp word
  have cont (c : UInt8) (member : c ∈ span) : identCont (charOf c) = true :=
    identCont_of_wordCh c ⟨inside c member, fun same => plain (same ▸ member)⟩
  have noQuote : next ≠ some '\'' := by
    intro quote
    cases last : span.getLast? with
    | none =>
      obtain rfl := List.getLast?_eq_none_iff.mp last
      cases starts
    | some c =>
      have own := apart quote (charOf c) (by rw [List.getLast?_map, last]; rfl)
      rw [cont c (List.mem_of_getLast? last)] at own
      cases own
  cases span with
  | nil => cases starts
  | cons c more =>
    refine reads_word (identStart_of_letter c starts) (fun d member => ?_) noQuote
    obtain ⟨e, own, rfl⟩ := List.mem_map.mp member
    exact cont e (List.mem_cons_of_mem _ own)

/-- Verbatim code: a pair that opens a comment is not in it, and not at its end together with what
stands behind it. -/
theorem reads_verbatim (filled : span ≠ [])
    (opens : ∀ c ∈ span, c ≠ '\''.toUInt8 ∧ c ≠ '"'.toUInt8 ∧ c ≠ '$'.toUInt8)
    (noDashes : ¬ ['-', '-'] <:+: span.map charOf) (noSlashStar : ¬ ['/', '*'] <:+: span.map charOf)
    (dash : next = some '-' → (span.map charOf).getLast? ≠ some '-')
    (slash : next = some '*' → (span.map charOf).getLast? ≠ some '/')
    (apart : next = some '\'' → ∀ c ∈ (span.map charOf).getLast?, identCont c = false) :
    Reads .code inWord (span.map charOf) next := by
  refine reads_code (by simpa using filled) (fun c member => ?_) (not_pair noDashes dash)
    (not_pair noSlashStar slash) (fun quote c last => ?_)
  · obtain ⟨d, own, rfl⟩ := List.mem_map.mp member
    obtain ⟨single, double, dollar⟩ := opens d own
    rw [ne_eq, ne_eq, ne_eq, charOf_eq_iff (by decide), charOf_eq_iff (by decide),
      charOf_eq_iff (by decide)]
    exact ⟨single, double, dollar⟩
  · have ends := apart quote c last
    constructor <;>
    · rintro rfl
      cases ends

/-- Digits and points, with a digit at the end. -/
structure Mantissa (span : List UInt8) : Prop where
  chars : ∀ c ∈ span, isDigitCh c = true ∨ c = '.'.toUInt8
  last : ∃ c, span.getLast? = some c ∧ isDigitCh c = true

theorem mantissa_digits (digits : Lexical.digits span rest) : Mantissa span := by
  obtain ⟨filled, each, -⟩ := digits_iff.mp digits
  refine ⟨fun c member => .inl (each c member), ?_⟩
  cases last : span.getLast? with
  | none => exact absurd (List.getLast?_eq_none_iff.mp last) filled
  | some c => exact ⟨c, rfl, each c (List.mem_of_getLast? last)⟩

theorem Mantissa.behind {front back : List UInt8}
    (chars : ∀ c ∈ front, isDigitCh c = true ∨ c = '.'.toUInt8) (own : Mantissa back) :
    Mantissa (front ++ back) := by
  obtain ⟨more, c, last, digit⟩ := own
  refine ⟨fun d member => (List.mem_append.mp member).elim (chars d) (more d), c, ?_, digit⟩
  rw [List.getLast?_append, last]
  rfl

theorem mantissa_fraction (fraction : Lexical.fraction span rest) : Mantissa span := by
  obtain ⟨_, back, rfl, point, digits⟩ := fraction
  rw [single_isCh_iff.mp point]
  exact (mantissa_digits digits).behind fun c member => .inr (List.mem_singleton.mp member)

theorem mantissa_of (own : Lexical.mantissa span rest) : Mantissa span := by
  rw [Lexical.mantissa, choice] at own
  split at own
  · exact mantissa_fraction own
  · rw [choice] at own
    split at own
    · obtain ⟨front, back, rfl, digits, fraction⟩ := own
      exact (mantissa_fraction fraction).behind (mantissa_digits digits).chars
    · exact mantissa_digits own

/-- A number has at most one sign, and ends with a digit. -/
theorem number_chars (number : Lexical.number span rest) :
    ∃ front middle back, span = front ++ middle ++ back ∧
      (∀ c ∈ front ++ back, isDigitCh c = true ∨ c = '.'.toUInt8 ∨ isExponentCh c = true) ∧
      (∀ c ∈ middle, isSignCh c = true) ∧ middle.length ≤ 1 ∧
      ∃ c, span.getLast? = some c ∧ isDigitCh c = true := by
  obtain ⟨front, behind, rfl, own, more⟩ := number
  obtain ⟨chars, c, last, digit⟩ := mantissa_of own
  rw [SpanLanguage.optional, choice] at more
  split at more
  · obtain ⟨_, _, rfl, ⟨e, rfl, exponent⟩, sign, back, rfl, signed, digits⟩ := more
    obtain ⟨chars', d, last', digit'⟩ := mantissa_digits digits
    have signs : (∀ c ∈ sign, isSignCh c = true) ∧ sign.length ≤ 1 := by
      rw [SpanLanguage.optional, choice] at signed
      split at signed
      · obtain ⟨s, rfl, isSign⟩ := signed
        exact ⟨fun c member => List.mem_singleton.mp member ▸ isSign, le_rfl⟩
      · obtain rfl : sign = [] := signed
        exact ⟨List.forall_mem_nil _, Nat.zero_le _⟩
    refine ⟨front ++ [e], sign, back, by simp, fun c member => ?_, signs.1, signs.2, d, ?_, digit'⟩
    · simp only [List.mem_append, List.mem_singleton] at member
      rcases member with (member | rfl) | member
      · exact (chars c member).imp_right .inl
      · exact .inr (.inr exponent)
      · exact (chars' c member).imp_right .inl
    · rw [← List.append_assoc, ← List.append_assoc, List.getLast?_append, last']
      rfl
  · obtain rfl : behind = [] := more
    refine ⟨front, [], [], by simp, fun d member => ?_, List.forall_mem_nil _, Nat.zero_le _, c,
      by simpa using last, digit⟩
    rw [List.append_nil] at member
    exact (chars d member).imp_right .inl

theorem numberCh_plain : ∀ c : UInt8,
    isDigitCh c = true ∨ c = '.'.toUInt8 ∨ isExponentCh c = true ∨ isSignCh c = true →
      c ≠ '\''.toUInt8 ∧ c ≠ '"'.toUInt8 ∧ c ≠ '$'.toUInt8 ∧ c ≠ '/'.toUInt8 :=
  forall_byte (by decide +kernel)

theorem numberCh_noDash : ∀ c : UInt8,
    isDigitCh c = true ∨ c = '.'.toUInt8 ∨ isExponentCh c = true → c ≠ '-'.toUInt8 :=
  forall_byte (by decide +kernel)

theorem number_plain (number : Lexical.number span rest) {c : UInt8} (member : c ∈ span) :
    c ≠ '\''.toUInt8 ∧ c ≠ '"'.toUInt8 ∧ c ≠ '$'.toUInt8 ∧ c ≠ '/'.toUInt8 := by
  obtain ⟨front, middle, back, rfl, chars, signs, -⟩ := number_chars number
  refine numberCh_plain c ?_
  simp only [List.mem_append, or_assoc] at member chars
  rcases member with member | member | member
  · rcases chars c (.inl member) with own | own | own
    exacts [.inl own, .inr (.inl own), .inr (.inr (.inl own))]
  · exact .inr (.inr (.inr (signs c member)))
  · rcases chars c (.inr member) with own | own | own
    exacts [.inl own, .inr (.inl own), .inr (.inr (.inl own))]

theorem reads_number (number : Lexical.number span rest)
    (apart : next = some '\'' → ∀ c ∈ (span.map charOf).getLast?, identCont c = false) :
    Reads .code inWord (span.map charOf) next := by
  have plain (d : UInt8) (member : d ∈ span) := number_plain number member
  obtain ⟨front, middle, back, rfl, chars, signs, short, c, last, digit⟩ := number_chars number
  have slash : '/' ∉ (front ++ middle ++ back).map charOf := by
    rw [mem_map_charOf (by decide)]
    exact fun member => (plain _ member).2.2.2 rfl
  have ends : ((front ++ middle ++ back).map charOf).getLast? ≠ some '-' := by
    rw [List.getLast?_map, last, Option.map_some, ne_eq, Option.some.injEq,
      charOf_eq_iff (by decide)]
    exact numberCh_noDash c (.inl digit)
  refine reads_verbatim ?_ (fun d member => ?_) (fun pair => ?_)
    (fun pair => slash (pair.subset List.mem_cons_self)) (fun _ => ends)
    (fun _ last => slash (List.mem_of_getLast? last)) apart
  · rintro empty
    rw [empty] at last
    cases last
  · obtain ⟨single, double, dollar, -⟩ := plain d member
    exact ⟨single, double, dollar⟩
  · -- Two dashes are one too many.
    have twice := pair.sublist.count_le '-'
    have once : ((front ++ middle ++ back).map charOf).count '-' ≤ middle.length := by
      have none (part : List UInt8) (sub : ∀ d ∈ part, d ∈ front ++ back) :
          (part.map charOf).count '-' = 0 := by
        rw [List.count_eq_zero, mem_map_charOf (by decide)]
        exact fun member => numberCh_noDash _ (chars _ (sub _ member)) rfl
      rw [List.map_append, List.map_append, List.count_append, List.count_append,
        none front fun d => List.mem_append_left _, none back fun d => List.mem_append_right _]
      simpa using @List.count_le_length _ _ '-' (middle.map charOf)
    have two : List.count '-' ['-', '-'] = 2 := rfl
    omega

theorem reads_sign {spelling : String} {type : TokenType} {others : List Char}
    (listed : (spelling, type, others) ∈ signs)
    (dash : next = some '-' → '-' ∉ others) (star : next = some '*' → '*' ∉ others)
    (apart : next = some '\'' →
      ∀ c ∈ ((bytesOf spelling).map charOf).getLast?, identCont c = false) :
    Reads .code inWord ((bytesOf spelling).map charOf) next := by
  have each : ∀ sign ∈ signs, bytesOf sign.1 ≠ [] ∧
      (∀ c ∈ bytesOf sign.1, c ≠ '\''.toUInt8 ∧ c ≠ '"'.toUInt8 ∧ c ≠ '$'.toUInt8) ∧
      ¬ ['-', '-'] <:+: (bytesOf sign.1).map charOf ∧
      ¬ ['/', '*'] <:+: (bytesOf sign.1).map charOf ∧
      (((bytesOf sign.1).map charOf).getLast? = some '-' → '-' ∈ sign.2.2) ∧
      (((bytesOf sign.1).map charOf).getLast? = some '/' → '*' ∈ sign.2.2) := by
    decide +kernel
  obtain ⟨filled, opens, noDashes, noSlashStar, dashed, slashed⟩ := each _ listed
  exact reads_verbatim filled opens noDashes noSlashStar (fun same last => dash same (dashed last))
    (fun same last => star same (slashed last)) apart

/-! ## Quoted names and strings -/

/-- The name of a backquoted identifier between double quotes. -/
theorem textOf_backquoted (lowers : Backquotes.LowersNames rt.utf8Strdown) (options : ℕ)
    (content : List UInt8) :
    textOf rt options (.id, '`'.toUInt8 :: (content ++ ['`'.toUInt8])) =
      '"' :: Backquotes.wantedName rt options (content.map charOf) ++ ['"'] := by
  have text : spanText ('`'.toUInt8 :: (content ++ ['`'.toUInt8])) =
      String.ofList ('`' :: content.map charOf ++ ['`']) := by
    rw [spanText, List.map_cons, List.map_append]
    rfl
  change (nameText rt options .id (spanText _)).toList = _
  rw [nameText, text, if_pos (by simp)]
  exact Backquotes.backquotedText_span lowers options _

theorem textOf_id (plain : startsWith (isCh '`') span = false) :
    textOf rt options (.id, span) = span.map charOf := by
  change (nameText rt options .id (spanText span)).toList = _
  rw [nameText, if_neg, spanText, String.toList_ofList]
  rw [spanText, String.toList_ofList, List.head?_map]
  intro quote
  obtain ⟨c, head, same⟩ := Option.map_eq_some_iff.mp quote
  rw [startsWith, head, Option.any_some, isCh, (charOf_eq_iff (by decide)).mp same] at plain
  cases plain

theorem textOf_string : textOf rt options (.quotedString, span) =
    (if pgifyIsEscape options then ['E'] else []) ++ span.map charOf := by
  change (nameText rt options .quotedString (spanText span)).toList = _
  rw [nameText, String.toList_append, spanText, String.toList_ofList]
  split <;> rfl

theorem reads_string (string : Lexical.quotedString span rest)
    (portable : Portable options (.quotedString, span)) (outside : inWord = false)
    (noQuote : next ≠ some '\'') :
    Reads .literal inWord (textOf rt options (.quotedString, span)) next := by
  rw [textOf_string]
  rw [Portable] at portable
  cases escape : pgifyIsEscape options with
  | true =>
    rw [escape, if_pos rfl] at portable
    obtain ⟨body, rfl, escaped⟩ := portable
    rw [outside, if_pos rfl, List.map_cons, List.map_append]
    exact reads_escapeString escaped noQuote
  | false =>
    rw [escape, if_neg Bool.false_ne_true] at portable
    obtain ⟨body, rfl, inside, -⟩ := string
    rw [if_neg Bool.false_ne_true, List.nil_append, List.map_cons, List.map_append]
    refine reads_literal (fun member => ?_) noQuote
    rw [mem_map_charOf (by decide)] at member
    obtain ⟨front, back, rfl⟩ := List.append_of_mem member
    have escaped := List.mem_of_getLast? (inside front back rfl)
    exact portable (by simp [escaped])

/-! ## Comments -/

theorem reads_slComment (comment : Lexical.slComment span rest) :
    Reads .comment inWord (span.map charOf) next := by
  obtain ⟨_, body, rfl, dashes, oneLine⟩ := comment
  obtain rfl := (reading_iff (by decide)).mp dashes
  obtain ⟨line, ending, same, ends, chars⟩ := line_iff.mp oneLine
  have text : (bytesOf "--" ++ body).map charOf = '-' :: '-' :: (line ++ ending) := by
    rw [List.map_append, same]
    rfl
  rw [text]
  exact reads_lineComment chars ends

theorem reads_mlComment (comment : Lexical.mlComment span rest)
    (portable : Portable options (.mlComment, span)) :
    Reads .comment inWord (span.map charOf) next := by
  obtain ⟨_, back, rfl, opener, closed⟩ := comment
  obtain rfl := (reading_iff (by decide)).mp opener
  obtain ⟨body, rfl, first⟩ := upTo_iff.mp closed
  have text : (bytesOf "/*" ++ (body ++ bytesOf "*/")).map charOf =
      '/' :: '*' :: (body.map charOf ++ ['*', '/']) := by
    rw [List.map_append, List.map_append]
    rfl
  have front : body.map charOf ++ ['*'] = (body ++ ['*'.toUInt8]).map charOf := by
    rw [List.map_append]
    rfl
  rw [text]
  refine reads_blockComment first fun inner => ?_
  rw [front, pair_infix_iff (by decide) (by decide)] at inner
  refine portable (inner.trans ⟨['*'.toUInt8], ['/'.toUInt8], ?_⟩)
  change _ = '*'.toUInt8 :: (body ++ (['*'.toUInt8] ++ ['/'.toUInt8]))
  simp

/-! ## One token -/

/-- Where a token stands: the scanner may be in a word in front of it, and `next` is the character
behind its text. -/
structure Fits (rt : Runtime) (options : ℕ) (token : SpelledToken) (rest : List UInt8)
    (inWord : Bool) (next : Option Char) : Prop where
  string : token.1 = .quotedString → inWord = false
  quote : next = some '\'' →
    token.1 ≠ .quotedString ∧ ∀ c ∈ (textOf rt options token).getLast?, identCont c = false
  double : next = some '"' → kindOf token ≠ .identifier
  dash : next = some '-' → rest.head? = some '-'.toUInt8
  star : next = some '*' → rest.head? = some '*'.toUInt8

/-- The token of a word is an identifier or a word of the lexer. -/
theorem word_cases (upper : List UInt8) :
    (wordLiterals.lookup upper).getD .id = .id ∨ ∃ spelling type,
      (wordLiterals.lookup upper).getD .id = .literal spelling type ∧ type ≠ .id ∧
        type ≠ .quotedString := by
  have types : ∀ entry ∈ literals, entry.2 ≠ .id ∧ entry.2 ≠ .quotedString := by decide +kernel
  cases found : wordLiterals.lookup upper with
  | none => exact .inl rfl
  | some rule =>
    obtain ⟨spelling, type, rfl, -, listed⟩ :=
      LexerState.mem_wordLiterals (NestedSwitch.mem_of_lookup found)
    exact .inr ⟨spelling, type, rfl, types _ listed⟩

theorem startsWith_word {set : UInt8 → Bool} (word : Lexical.word span rest)
    (other : ∀ c, isLetterCh (toupper c) = true → set c = false) : startsWith set span = false := by
  have starts := (word_iff.mp word).1
  cases span with
  | nil => rfl
  | cons c more => exact other c starts

theorem letter_apart : ∀ c : UInt8, isLetterCh (toupper c) = true →
    isCh '"' c = false ∧ isCh '`' c = false ∧ isCh '\'' c = false :=
  forall_byte (by decide +kernel)

theorem kindOf_word (word : Lexical.word span rest) : kindOf (.id, span) = .code := by
  have plain : startsWith (fun c => isCh '"' c || isCh '`' c) span = false :=
    startsWith_word word fun c letter => by
      rw [(letter_apart c letter).1, (letter_apart c letter).2.1]
      rfl
  rw [kindOf, plain, if_neg Bool.false_ne_true]

/-- A word without `#` is code under its text. -/
theorem reads_wordToken (word : Lexical.word span rest)
    (portable : Portable options ((wordLiterals.lookup (upper span)).getD .id, span))
    (apart : next = some '\'' →
      ∀ c ∈ (textOf rt options ((wordLiterals.lookup (upper span)).getD .id, span)).getLast?,
        identCont c = false) :
    Reads (kindOf ((wordLiterals.lookup (upper span)).getD .id, span)) inWord
      (textOf rt options ((wordLiterals.lookup (upper span)).getD .id, span)) next := by
  rcases word_cases (upper span) with name | ⟨spelling, type, name, types⟩
  · rw [name] at portable apart ⊢
    have backtick := startsWith_word word fun c letter => (letter_apart c letter).2.1
    have double := startsWith_word word fun c letter => (letter_apart c letter).1
    rw [Portable, backtick, double, if_neg Bool.false_ne_true] at portable
    rw [textOf_id backtick] at apart ⊢
    rw [kindOf_word word]
    exact reads_spelledWord word (portable.resolve_left Bool.false_ne_true) apart
  · rw [name] at portable apart ⊢
    rcases @textOf_literal rt options span spelling type types.1 types.2 with
      ⟨text, listed, set⟩ | verbatim
    · rw [set]
      exact reads_retext listed
    · rw [verbatim] at apart ⊢
      exact reads_spelledWord word portable.2.2 apart

theorem reads_withParser (spelled : upper span = bytesOf "WITH PARSER")
    (apart : next = some '\'' → ∀ c ∈ (span.map charOf).getLast?, identCont c = false) :
    Reads .code inWord (span.map charOf) next := by
  have absent (c : UInt8) (other : toupper c ∉ bytesOf "WITH PARSER") : c ∉ span :=
    fun member => other (spelled ▸ List.mem_map_of_mem member)
  have dash : '-' ∉ span.map charOf := by
    rw [mem_map_charOf (by decide)]
    exact absent _ (by decide)
  have slash : '/' ∉ span.map charOf := by
    rw [mem_map_charOf (by decide)]
    exact absent _ (by decide)
  have filled : span ≠ [] := by
    rintro rfl
    cases spelled
  refine reads_verbatim filled (fun c member => ⟨?_, ?_, ?_⟩)
    (fun pair => dash (pair.subset List.mem_cons_self))
    (fun pair => slash (pair.subset List.mem_cons_self))
    (fun _ last => dash (List.mem_of_getLast? last))
    (fun _ last => slash (List.mem_of_getLast? last)) apart
  all_goals
    rintro rfl
    exact absent _ (by decide) member

/-- A portable token is read as what it is wherever it fits. -/
theorem reads_token (lowers : Backquotes.LowersNames rt.utf8Strdown)
    (token : IsToken rule span rest) (portable : Portable options (rule, span))
    (fits : Fits rt options (rule, span) rest inWord next) :
    Reads (kindOf (rule, span)) inWord (textOf rt options (rule, span)) next := by
  have apart (quote : next = some '\'') := (fits.quote quote).2
  cases token with
  | word word => exact reads_wordToken word portable apart
  | withParser spelled =>
    have verbatim : textOf rt options (.literal "WITH PARSER" (.other 579), span) =
        span.map charOf := String.toList_ofList
    rw [verbatim] at apart ⊢
    exact reads_withParser spelled apart
  | doublequoted quoted =>
    obtain ⟨content, rfl, absent⟩ := enclosed_iff.mp quoted
    rw [textOf_id rfl, List.map_cons, List.map_append]
    exact reads_quotedIdentifier (by rwa [mem_map_charOf (by decide)])
      fun double => fits.double double rfl
  | backquoted quoted =>
    obtain ⟨content, rfl, -⟩ := enclosed_iff.mp quoted
    rw [textOf_backquoted lowers]
    have absent : '"' ∉ content.map charOf := by
      rw [mem_map_charOf (by decide)]
      have outside : '"'.toUInt8 ∉ '`'.toUInt8 :: (content ++ ['`'.toUInt8]) := portable
      exact fun member => outside (by simp [member])
    exact reads_quotedIdentifier (by rwa [Backquotes.quote_mem_wantedName lowers])
      fun double => fits.double double rfl
  | backtick => exact absurd rfl portable.2.1
  | number number =>
    have verbatim : textOf rt options (.number, span) = span.map charOf := String.toList_ofList
    rw [verbatim] at apart ⊢
    exact reads_number number apart
  | quotedString string =>
    exact reads_string string portable (fits.string rfl) fun quote => (fits.quote quote).1 rfl
  | zeroDate date =>
    rw [zeroDates, List.mem_cons, List.mem_singleton] at date
    rcases date with date | date <;> obtain ⟨rfl, rfl⟩ := Prod.mk.inj date <;>
      exact reads_retext List.mem_cons_self
  | quote => exact absurd rfl portable.1
  | qstring => exact portable.elim
  | @ws c _ blank =>
    have verbatim : textOf rt options (.ws, [c]) = [charOf c] := String.toList_ofList
    rw [verbatim]
    exact reads_space (isSpace_of_blank c blank)
  | slComment comment =>
    have verbatim : textOf rt options (.slComment, span) = span.map charOf := String.toList_ofList
    rw [verbatim]
    exact reads_slComment comment
  | mysqlComment => exact portable.elim
  | mlComment comment =>
    have verbatim : textOf rt options (.mlComment, span) = span.map charOf := String.toList_ofList
    rw [verbatim]
    exact reads_mlComment comment portable
  | @sign spelling type others _ listed ends =>
    have plain (c : Char) (behind : next = some c → rest.head? = some c.toUInt8)
        (here : next = some c) : c ∉ others := by
      intro member
      have starts := ends c member
      rw [startsWith, behind here] at starts
      simp [isCh] at starts
    have types : ∀ sign ∈ signs, sign.2.1 ≠ .id ∧ sign.2.1 ≠ .quotedString := by decide +kernel
    rcases @textOf_literal rt options (bytesOf spelling) spelling type (types _ listed).1
      (types _ listed).2 with ⟨text, set, own⟩ | verbatim
    · rw [own]
      exact reads_retext set
    · rw [verbatim] at apart ⊢
      exact reads_sign listed (plain '-' fits.dash) (plain '*' fits.star) apart

/-- What the first character of a portable token's text tells. -/
structure Heads (options : ℕ) (token : SpelledToken) (c : Char) : Prop where
  quote : c = '\'' → token.1 = .quotedString ∧ pgifyIsEscape options = false
  double : c = '"' → kindOf token = .identifier
  dash : c = '-' → token.2.head? = some '-'.toUInt8
  star : c = '*' → token.2.head? = some '*'.toUInt8

theorem heads_of_ne {token : SpelledToken} {c : Char}
    (other : ∀ d ∈ ['\'', '"', '-', '*'], c ≠ d) : Heads options token c :=
  ⟨fun same => absurd same (other _ (by simp)), fun same => absurd same (other _ (by simp)),
    fun same => absurd same (other _ (by simp)), fun same => absurd same (other _ (by simp))⟩

theorem heads_verbatim (filled : span ≠ [])
    (quote : span.head? = some '\''.toUInt8 → rule = .quotedString ∧ pgifyIsEscape options = false)
    (double : span.head? = some '"'.toUInt8 → kindOf (rule, span) = .identifier) :
    ∃ c, (span.map charOf).head? = some c ∧ Heads options (rule, span) c := by
  obtain ⟨d, own⟩ := Option.isSome_iff_exists.mp (List.isSome_head?.mpr filled)
  refine ⟨charOf d, by rw [List.head?_map, own]; rfl, ?_⟩
  constructor
  · exact fun same => quote (by rw [own, (charOf_eq_iff (by decide)).mp same])
  · exact fun same => double (by rw [own, (charOf_eq_iff (by decide)).mp same])
  · exact fun same => by rw [own, (charOf_eq_iff (by decide)).mp same]
  · exact fun same => by rw [own, (charOf_eq_iff (by decide)).mp same]

theorem heads_retext {text : String} (listed : text ∈ retexts) :
    ∃ c, text.toList.head? = some c ∧ Heads options (rule, span) c := by
  have each : ∀ text ∈ retexts, text.toList.head?.isSome = true ∧
      ∀ c ∈ ['\'', '"', '-', '*'], text.toList.head? ≠ some c := by
    decide
  obtain ⟨filled, others⟩ := each text listed
  obtain ⟨c, head⟩ := Option.isSome_iff_exists.mp filled
  exact ⟨c, head, heads_of_ne fun d member same => others d member (same ▸ head)⟩

/-- Code starts with no quote. -/
theorem heads_code (filled : span ≠ []) (quote : span.head? ≠ some '\''.toUInt8)
    (double : span.head? ≠ some '"'.toUInt8) :
    ∃ c, (span.map charOf).head? = some c ∧ Heads options (rule, span) c :=
  heads_verbatim filled (fun same => absurd same quote) fun same => absurd same double

theorem head_token (lowers : Backquotes.LowersNames rt.utf8Strdown)
    (token : IsToken rule span rest) (portable : Portable options (rule, span)) :
    ∃ c, (textOf rt options (rule, span)).head? = some c ∧ Heads options (rule, span) c := by
  have filled := LexicalGrammar.span_ne_nil token
  cases token with
  | word word =>
    have plain (d : Char) (own : ∀ e, isLetterCh (toupper e) = true → isCh d e = false) :
        span.head? ≠ some d.toUInt8 := by
      intro same
      have starts := startsWith_word word own
      rw [startsWith, same] at starts
      simp [isCh] at starts
    have quote := plain '\'' fun e letter => (letter_apart e letter).2.2
    have double := plain '"' fun e letter => (letter_apart e letter).1
    rcases word_cases (upper span) with name | ⟨spelling, type, name, types⟩
    · rw [name, textOf_id (startsWith_word word fun e letter => (letter_apart e letter).2.1)]
      exact heads_code filled quote double
    · rw [name]
      rcases @textOf_literal rt options span spelling type types.1 types.2 with
        ⟨text, listed, set⟩ | verbatim
      · rw [set]
        exact heads_retext listed
      · rw [verbatim]
        exact heads_code filled quote double
  | withParser spelled =>
    have verbatim : textOf rt options (.literal "WITH PARSER" (.other 579), span) =
        span.map charOf := String.toList_ofList
    have plain (d : UInt8) (other : toupper d ∉ bytesOf "WITH PARSER") : span.head? ≠ some d :=
      fun same => other (spelled ▸ List.mem_map_of_mem (List.mem_of_head? same))
    rw [verbatim]
    exact heads_code filled (plain _ (by decide)) (plain _ (by decide))
  | doublequoted quoted =>
    obtain ⟨content, rfl, -⟩ := enclosed_iff.mp quoted
    rw [textOf_id rfl]
    exact heads_verbatim filled (fun same => absurd (Option.some.inj same) (by decide)) fun _ => rfl
  | backquoted quoted =>
    obtain ⟨content, rfl, -⟩ := enclosed_iff.mp quoted
    rw [textOf_backquoted lowers]
    exact ⟨'"', rfl, fun same => absurd same (by decide), fun _ => rfl,
      fun same => absurd same (by decide), fun same => absurd same (by decide)⟩
  | backtick => exact absurd rfl portable.2.1
  | number number =>
    have verbatim : textOf rt options (.number, span) = span.map charOf := String.toList_ofList
    rw [verbatim]
    exact heads_code filled
      (fun same => (number_plain number (List.mem_of_head? same)).1 rfl)
      fun same => (number_plain number (List.mem_of_head? same)).2.1 rfl
  | quotedString string =>
    obtain ⟨body, rfl, -⟩ := string
    rw [textOf_string]
    cases escape : pgifyIsEscape options with
    | true => exact ⟨'E', rfl, heads_of_ne (by decide)⟩
    | false =>
      exact heads_verbatim filled (fun _ => ⟨rfl, escape⟩)
        fun same => absurd (Option.some.inj same) (by decide)
  | zeroDate date =>
    rw [zeroDates, List.mem_cons, List.mem_singleton] at date
    rcases date with date | date <;> obtain ⟨rfl, rfl⟩ := Prod.mk.inj date <;>
      exact heads_retext List.mem_cons_self
  | quote => exact absurd rfl portable.1
  | qstring => exact portable.elim
  | @ws d _ blank =>
    have verbatim : textOf rt options (.ws, [d]) = [d].map charOf := String.toList_ofList
    rw [verbatim]
    refine heads_code filled (fun same => ?_) (fun same => ?_) <;>
    · obtain rfl := Option.some.inj same
      cases blank
  | slComment comment =>
    have verbatim : textOf rt options (.slComment, span) = span.map charOf := String.toList_ofList
    obtain ⟨_, back, rfl, dashes, -⟩ := comment
    obtain rfl := (reading_iff (by decide)).mp dashes
    rw [verbatim]
    exact heads_code filled (fun same => absurd (Option.some.inj same) (by decide))
      fun same => absurd (Option.some.inj same) (by decide)
  | mysqlComment => exact portable.elim
  | mlComment comment =>
    have verbatim : textOf rt options (.mlComment, span) = span.map charOf := String.toList_ofList
    obtain ⟨_, back, rfl, opener, -⟩ := comment
    obtain rfl := (reading_iff (by decide)).mp opener
    rw [verbatim]
    exact heads_code filled (fun same => absurd (Option.some.inj same) (by decide))
      fun same => absurd (Option.some.inj same) (by decide)
  | @sign spelling type others _ listed ends =>
    have each : ∀ sign ∈ signs, sign.2.1 ≠ .id ∧ sign.2.1 ≠ .quotedString ∧
        (bytesOf sign.1).head? ≠ some '\''.toUInt8 ∧ (bytesOf sign.1).head? ≠ some '"'.toUInt8 := by
      decide +kernel
    obtain ⟨name, string, quote, double⟩ := each _ listed
    rcases @textOf_literal rt options (bytesOf spelling) spelling type name string with
      ⟨text, set, own⟩ | verbatim
    · rw [own]
      exact heads_retext set
    · rw [verbatim]
      exact heads_code filled quote double

/-! ## The tokens of an input -/

theorem token_of_split {front back : List SpelledToken} {token : SpelledToken}
    (spelled : Spelled (front ++ token :: back)) :
    IsToken token.1 token.2 (back.flatMap Prod.snd) := by
  induction front with
  | nil => exact spelled.1
  | cons item front ih => exact ih spelled.2

/-- Every token fits where it stands. -/
theorem fits_of_split (lowers : Backquotes.LowersNames rt.utf8Strdown)
    {front back : List SpelledToken} {token : SpelledToken}
    (spelled : Spelled (front ++ token :: back))
    (portable : ∀ item ∈ front ++ token :: back, Portable options item)
    (apart : (front ++ token :: back).IsChain (Apart rt options)) {inWord : Bool}
    (inside : inWord = true →
      (front.flatMap (textOf rt options)).getLast?.any identCont = true) :
    Fits rt options token (back.flatMap Prod.snd) inWord
      (back.flatMap (textOf rt options)).head? := by
  have behind (c : Char) (next : (back.flatMap (textOf rt options)).head? = some c) :
      ∃ item, Apart rt options token item ∧ Heads options item c ∧
        (back.flatMap Prod.snd).head? = item.2.head? := by
    cases back with
    | nil => cases next
    | cons item back =>
      have own : IsToken item.1 item.2 (back.flatMap Prod.snd) := by
        have split : front ++ token :: item :: back = (front ++ [token]) ++ item :: back := by simp
        exact token_of_split (split ▸ spelled)
      obtain ⟨d, head, heads⟩ := head_token lowers own (portable item (by simp))
      change (textOf rt options item).head? = some d at head
      rw [List.flatMap_cons, List.head?_append, head] at next
      obtain rfl := Option.some.inj next
      refine ⟨item, (List.isChain_append_cons_cons.mp apart).2.1, heads, ?_⟩
      obtain ⟨e, first⟩ := Option.isSome_iff_exists.mp
        (List.isSome_head?.mpr (LexicalGrammar.span_ne_nil own))
      rw [List.flatMap_cons, List.head?_append, first]
      rfl
  refine ⟨fun string => ?_, fun next => ?_, fun next => ?_, fun next => ?_, fun next => ?_⟩
  · -- The text in front of a string does not end like a word.
    by_contra word
    have last := inside (Bool.not_eq_false _ ▸ word)
    rcases List.eq_nil_or_concat front with rfl | ⟨before, item, rfl⟩
    · cases last
    · have meets : Apart rt options item token := by
        have split : before.concat item ++ token :: back = before ++ item :: token :: back := by
          simp
        exact (List.isChain_append_cons_cons.mp (split ▸ apart)).2.1
      obtain ⟨c, ends, other⟩ := meets.word string
      rw [List.concat_eq_append, List.flatMap_append, List.flatMap_singleton, List.getLast?_append,
        ends] at last
      rw [Option.some_or, Option.any_some, other] at last
      cases last
  · obtain ⟨item, meets, heads, -⟩ := behind _ next
    obtain ⟨string, escape⟩ := heads.quote rfl
    obtain ⟨c, ends, other⟩ := meets.word string
    refine ⟨fun own => meets.strings escape own string, fun d last => ?_⟩
    obtain rfl := Option.some.inj (ends.symm.trans last)
    exact other
  · obtain ⟨item, meets, heads, -⟩ := behind _ next
    exact fun name => meets.names name (heads.double rfl)
  · obtain ⟨item, -, heads, first⟩ := behind _ next
    rw [first, heads.dash rfl]
  · obtain ⟨item, -, heads, first⟩ := behind _ next
    rw [first, heads.star rfl]

theorem eachReads (lowers : Backquotes.LowersNames rt.utf8Strdown) {items : List SpelledToken}
    (spelled : Spelled items) (portable : ∀ item ∈ items, Portable options item)
    (apart : items.IsChain (Apart rt options)) : EachReads (textOf rt options) kindOf items := by
  rintro front token back rfl inWord inside
  exact reads_token lowers (token_of_split spelled) (portable token (by simp))
    (fits_of_split lowers spelled portable apart inside)

theorem outcomes_told (place : Place) (items : List SpelledToken) :
    (LexicalGrammar.told rt options place items).map Reproduction.outcome =
      items.map fun token => String.ofList (textOf rt options token) := by
  induction items generalizing place with
  | nil => rfl
  | cons item items ih =>
    rw [LexicalGrammar.told, List.map_cons, ih, List.map_cons]
    exact congrArg (· :: _) String.ofList_toList.symm

theorem join_texts (items : List SpelledToken) :
    String.join (items.map fun token => String.ofList (textOf rt options token)) =
      String.ofList (items.flatMap (textOf rt options)) := by
  induction items with
  | nil => rfl
  | cons item items ih =>
    rw [List.map_cons, String.join_cons, ih, List.flatMap_cons, String.ofList_append]

/-- `SELECT 'a\n' -- b` and a semicolon on the next line. -/
private def selectItems : List SpelledToken :=
  [(.literal "SELECT" .kSelect, bytesOf "SELECT"), (.ws, bytesOf " "),
    (.quotedString, bytesOf "'a\\n'"), (.ws, bytesOf " "), (.slComment, bytesOf "-- b\n"),
    (.literal ";" .semi, bytesOf ";")]

private def selectTree : Tree :=
  .node none [
    rooted .tSelectStatement "T_SELECT_STATEMENT"
      [.leaf ⟨.kSelect, "SELECT", .default, 1, 0⟩,
        .leaf ⟨.quotedString, "E'a\\n'", .default, 1, 7⟩],
    .leaf ⟨.semi, ";", .default, 2, 0⟩, .leaf ⟨.eof, "<EOF>", .default, 2, 1⟩]

private theorem spelled_select : Spelled selectItems := by
  have select : (wordLiterals.lookup (upper (bytesOf "SELECT"))).getD .id =
      .literal "SELECT" .kSelect := by decide +kernel
  have word : Lexical.word (bytesOf "SELECT") (bytesOf " 'a\\n' -- b\n;") :=
    word_iff.mpr ⟨by decide, by decide, fun c next => by obtain rfl := Option.some.inj next; rfl⟩
  have keyword := IsToken.word word (by decide) (by decide)
  rw [select] at keyword
  have string : Lexical.quotedString (bytesOf "'a\\n'") (bytesOf " -- b\n;") := by
    refine ⟨bytesOf "a\\n", rfl, fun front back same => ?_, fun _ => by decide⟩
    have member : '\''.toUInt8 ∈ bytesOf "a\\n" := by
      rw [same]
      exact List.mem_append_right _ List.mem_cons_self
    exact absurd member (by decide)
  have comment : Lexical.slComment (bytesOf "-- b\n") (bytesOf ";") := by
    refine ⟨bytesOf "--", bytesOf " b\n", rfl, rfl, bytesOf " b", bytesOf "\n", rfl,
      ⟨by decide, fun c next => by obtain rfl := Option.some.inj next; rfl⟩, [], bytesOf "\n", rfl,
      ?_, single_isCh_iff.mpr rfl⟩
    rw [SpanLanguage.optional, choice, if_neg (by decide)]
    rfl
  exact ⟨keyword, .ws rfl, .quotedString string (by decide), .ws rfl, .slComment comment,
    @IsToken.sign ";" .semi [] [] (by decide) (List.forall_mem_nil _), trivial⟩

private theorem stretches_select :
    lexStretches ⟨asciiLower, 0⟩ pgifyEscape (selectItems.flatMap Prod.snd) =
      [⟨bytesOf "SELECT", some ⟨.kSelect, "SELECT", .default, 1, 0⟩⟩,
        ⟨bytesOf " ", some ⟨.ws, " ", .hidden, 1, 6⟩⟩,
        ⟨bytesOf "'a\\n'", some ⟨.quotedString, "E'a\\n'", .default, 1, 7⟩⟩,
        ⟨bytesOf " ", some ⟨.ws, " ", .hidden, 1, 12⟩⟩,
        ⟨bytesOf "-- b\n", some ⟨.slComment, "-- b\n", .hidden, 1, 13⟩⟩,
        ⟨bytesOf ";", some ⟨.semi, ";", .default, 2, 0⟩⟩] := by
  rw [LexicalGrammar.lexStretches_of_spelled _ _ spelled_select]
  decide +kernel

end Pgify.ReadBack
