import Pgify.Lib.Recognizer
import Pgify.Model.LexerRules

/-! # The lexical grammar

What the tokens of the dialect are, without a lexer: for every alternative of the token rule the
spans that it stands for, and what may stand behind them. Letters count in either case.
-/

namespace Pgify.Model

open SpanLanguage

/-- A span as the stream shows it. -/
def upper (span : List UInt8) : List UInt8 :=
  span.map toupper

namespace Lexical

def isCh (c : Char) (d : UInt8) : Bool :=
  d == c.toUInt8

/-! ## Names and words -/

/-- The longest run of characters of words, from a letter on. -/
def word : SpanLanguage UInt8 :=
  (single fun c => isLetterCh (toupper c)).concat (longest fun c => isWordCh (toupper c))

/-- Anything between two of a kind of quote. -/
def enclosed (quote : Char) : SpanLanguage UInt8 :=
  (single (isCh quote)).concat ((longest fun c => !isCh quote c).concat (single (isCh quote)))

/-! ## Numbers -/

def digits : SpanLanguage UInt8 :=
  (single isDigitCh).concat (longest isDigitCh)

def fraction : SpanLanguage UInt8 :=
  (single (isCh '.')).concat digits

def decimal : SpanLanguage UInt8 :=
  digits.concat fraction

/-- Digits, a point and a digit. -/
def startsDecimal (input : List UInt8) : Bool :=
  startsWith isDigitCh input &&
    match input.dropWhile isDigitCh with
    | point :: behind => isCh '.' point && startsWith isDigitCh behind
    | [] => false

/-- A point without a digit behind it is not part of a number. -/
def mantissa : SpanLanguage UInt8 :=
  fraction.choice (startsWith (isCh '.')) (decimal.choice startsDecimal digits)

def isExponentCh (c : UInt8) : Bool :=
  isCh 'E' (toupper c)

def exponent : SpanLanguage UInt8 :=
  (single isExponentCh).concat ((optional isSignCh (single isSignCh)).concat digits)

/-- An `E` behind the digits is always part of the number. -/
def number : SpanLanguage UInt8 :=
  mantissa.concat (optional isExponentCh exponent)

/-! ## Strings -/

/-- A quote inside stands behind a backslash. A backslash in front of the last quote is only
possible at the end of the input. -/
def quotedString : SpanLanguage UInt8 := fun span rest =>
  ∃ body, span = '\''.toUInt8 :: (body ++ ['\''.toUInt8]) ∧
    (∀ front back, body = front ++ '\''.toUInt8 :: back → front.getLast? = some '\\'.toUInt8) ∧
    (rest ≠ [] → body.getLast? ≠ some '\\'.toUInt8)

def zeroDates : List (String × TokenType) :=
  [("'0000-00-00'", .stupidMysqlDate), ("'0000-00-00 00:00:00'", .stupidMysqlTimestamp)]

/-- `q'[ ... ]'` -/
def bracketed (opening closing : Char) : SpanLanguage UInt8 :=
  (reading toupper (bytesOf "Q'")).concat
    ((single (isCh opening)).concat (upTo [closing.toUInt8, '\''.toUInt8]))

/-- `q'c ... c'` -/
def delimited : SpanLanguage UInt8 := fun span _ =>
  ∃ front c body, span = front ++ c :: body ∧ upper front = bytesOf "Q'" ∧
    LexerState.isQSOtherCh c = true ∧ upTo [c, '\''.toUInt8] body []

def qstring : SpanLanguage UInt8 := fun span rest =>
  bracketed '<' '>' span rest ∨ bracketed '\x7b' '\x7d' span rest ∨ bracketed '[' ']' span rest ∨
    bracketed '(' ')' span rest ∨ delimited span rest

/-! ## Blanks and comments -/

def line : SpanLanguage UInt8 :=
  (longest isLineCh).concat
    ((optional (isCh '\r') (single (isCh '\r'))).concat (single (isCh '\n')))

def slComment : SpanLanguage UInt8 :=
  (reading toupper (bytesOf "--")).concat line

def mysqlComment : SpanLanguage UInt8 :=
  (single (isCh '#')).concat line

def mlComment : SpanLanguage UInt8 :=
  (reading toupper (bytesOf "/*")).concat (upTo (bytesOf "*/"))

/-! ## Operators -/

def digitChs : List Char :=
  ['0', '1', '2', '3', '4', '5', '6', '7', '8', '9']

/-- The operators, with the characters that make another token of them. -/
def signs : List (String × TokenType × List Char) :=
  [(";", .semi, []), (":=", .other 556, []), (":", .other 550, ['=']), ("..", .other 552, []),
    (".", .dot, '.' :: digitChs), (",", .comma, []), ("**", .other 141, []),
    ("*", .other 133, ['*']), ("@", .other 104, []), (")", .rparen, []), ("(", .lparen, []),
    ("]", .other 308, []), ("[", .other 307, []), ("+", .other 135, []),
    ("-", .other 136, ['-']), ("/", .other 138, ['*']), ("=>", .other 557, []),
    ("=", .eq, ['>']), ("%", .other 553, []), ("<<", .other 554, []), ("<>", .other 269, []),
    ("<=", .other 273, []), ("<", .other 272, ['<', '>', '=']), (">>", .other 555, []),
    (">=", .other 271, []), (">", .other 270, ['>', '=']), ("||", .other 137, []),
    ("|", .other 558, ['|']), ("!=", .other 269, []), ("^=", .other 269, [])]

end Lexical

open Lexical

/-- The tokens of the dialect, each in front of what may stand behind it. -/
inductive IsToken : LexRule → List UInt8 → List UInt8 → Prop
  /-- A word of the lexer, or else an identifier. -/
  | word {span rest : List UInt8} (word : Lexical.word span rest)
      (noString : ¬ (upper span = bytesOf "Q" ∧ startsWith (isCh '\'') rest))
      (noParser : ¬ (upper span = bytesOf "WITH" ∧ startsWith (isCh ' ') rest)) :
      IsToken ((wordLiterals.lookup (upper span)).getD .id) span rest
  | withParser {span rest : List UInt8} (spelled : upper span = bytesOf "WITH PARSER") :
      IsToken (.literal "WITH PARSER" (.other 579)) span rest
  | doublequoted {span rest : List UInt8} (quoted : enclosed '"' span rest) : IsToken .id span rest
  | backquoted {span rest : List UInt8} (quoted : enclosed '`' span rest) : IsToken .id span rest
  /-- At the end of the input only. -/
  | backtick : IsToken (.literal "`" (.other 560)) ['`'.toUInt8] []
  | number {span rest : List UInt8} (number : Lexical.number span rest) : IsToken .number span rest
  | quotedString {span rest : List UInt8} (string : Lexical.quotedString span rest)
      (noDate : ∀ date ∈ zeroDates, span ≠ bytesOf date.1) : IsToken .quotedString span rest
  | zeroDate {spelling : String} {type : TokenType} {rest : List UInt8}
      (date : (spelling, type) ∈ zeroDates) :
      IsToken (.literal spelling type) (bytesOf spelling) rest
  /-- At the end of the input only. -/
  | quote : IsToken (.literal "'" .quote) ['\''.toUInt8] []
  | qstring {span rest : List UInt8} (string : Lexical.qstring span rest) :
      IsToken .qstring span rest
  | ws {c : UInt8} {rest : List UInt8} (blank : isBlankCh c = true) : IsToken .ws [c] rest
  | slComment {span rest : List UInt8} (comment : Lexical.slComment span rest) :
      IsToken .slComment span rest
  | mysqlComment {span rest : List UInt8} (comment : Lexical.mysqlComment span rest) :
      IsToken .mysqlComment span rest
  | mlComment {span rest : List UInt8} (comment : Lexical.mlComment span rest) :
      IsToken .mlComment span rest
  | sign {spelling : String} {type : TokenType} {others : List Char} {rest : List UInt8}
      (listed : (spelling, type, others) ∈ signs)
      (ends : ∀ c ∈ others, ¬ startsWith (isCh c) rest) :
      IsToken (.literal spelling type) (bytesOf spelling) rest

/-- A token of the dialect with its span. -/
abbrev SpelledToken := LexRule × List UInt8

/-- Tokens that may stand one behind the other up to the end of an input. -/
def Spelled : List SpelledToken → Prop
  | [] => True
  | (rule, span) :: items => IsToken rule span (items.flatMap Prod.snd) ∧ Spelled items

end Pgify.Model
