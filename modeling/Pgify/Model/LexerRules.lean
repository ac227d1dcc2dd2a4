import Pgify.Lib.NestedSwitch
import Pgify.Model.Literals
import Pgify.Model.Names
import Pgify.Model.QStringLexer

/-! # The token rule

The alternatives of the token rule, on the input stream of the q-quoted strings. A nested switch
picks the rule of the next token from the characters ahead; the rule matches its characters, and its
actions set the text and the channel of the token.
-/

namespace Pgify.Model

/-- The characters of a literal. -/
def bytesOf (word : String) : List UInt8 :=
  word.toList.map Char.toUInt8

/-- Characters of the input as text, one for each byte. -/
def charOf (c : UInt8) : Char :=
  Char.ofNat c.toNat

def spanText (span : List UInt8) : String :=
  String.ofList (span.map charOf)

-- What holds of all bytes or characters of a list is decided along the list.
instance decidableForallBytes (bytes : List UInt8) (p : UInt8 → Prop) [DecidablePred p] :
    Decidable (∀ c ∈ bytes, p c) :=
  List.decidableBAll p bytes

instance decidableForallChars (chars : List Char) (p : Char → Prop) [DecidablePred p] :
    Decidable (∀ c ∈ chars, p c) :=
  List.decidableBAll p chars

/-! ## Sets of characters -/

def isLetterCh (c : UInt8) : Bool :=
  'A'.toUInt8 ≤ c && c ≤ 'Z'.toUInt8

def isDigitCh (c : UInt8) : Bool :=
  '0'.toUInt8 ≤ c && c ≤ '9'.toUInt8

/-- `'A' .. 'Z' | '0' .. '9' | '_' | '$' | '#'` -/
def isWordCh (c : UInt8) : Bool :=
  isLetterCh c || isDigitCh c || (['_', '$', '#'].map Char.toUInt8).contains c

/-- `'E'`'s sign. -/
def isSignCh (c : UInt8) : Bool :=
  (['+', '-'].map Char.toUInt8).contains c

def isBlankCh (c : UInt8) : Bool :=
  ([' ', '\r', '\t', '\n'].map Char.toUInt8).contains c

/-- `~('\n'|'\r')` -/
def isLineCh (c : UInt8) : Bool :=
  !(['\n', '\r'].map Char.toUInt8).contains c

namespace LexerState

/-! ## What the rules are made of -/

/-- `MATCHS` -/
def matchS (s : LexerState) : List UInt8 → LexerState
  | [] => s
  | c :: string => if s.la 1 = some c then s.consume.matchS string else s.constructEx.lrecover

/-- One character of a set. -/
def matchSet (s : LexerState) (set : UInt8 → Bool) : LexerState :=
  if (s.la 1).any set then s.consume else s.constructEx.lrecover

/-- A loop over the characters of a set. -/
def matchSetLoop (s : LexerState) (set : UInt8 → Bool) : LexerState :=
  s.matchWhile fun rest => (s.lookAhead.la rest 1).any set

/-- `( c )?` -/
def matchOptional (s : LexerState) (c : UInt8) : LexerState :=
  if s.la 1 = some c then s.matchC c else s

/-! ## Names -/

def mDoublequotedString (s : LexerState) : LexerState :=
  (s.matchC '"'.toUInt8).andThen fun s =>
    (s.matchSetLoop (· != '"'.toUInt8)).matchC '"'.toUInt8

def mBacktick (s : LexerState) : LexerState :=
  s.matchC '`'.toUInt8

def mBackquotedString (s : LexerState) : LexerState :=
  s.mBacktick.andThen fun s => (s.matchSetLoop (· != '`'.toUInt8)).mBacktick

def mId (s : LexerState) : LexerState :=
  if (s.la 1).any isLetterCh then
    (s.matchSet isLetterCh).andThen fun s => s.matchSetLoop isWordCh
  else if s.la 1 = some '"'.toUInt8 then s.mDoublequotedString
  else if s.la 1 = some '`'.toUInt8 then s.mBackquotedString
  else s.constructEx

/-! ## Numbers -/

def mNum (s : LexerState) : LexerState :=
  (s.matchSet isDigitCh).andThen fun s => s.matchSetLoop isDigitCh

def mPoint (s : LexerState) : LexerState :=
  s.matchC '.'.toUInt8

/-- `NUM POINT NUM` -/
def mDecimal (s : LexerState) : LexerState :=
  s.mNum.andThen fun s => s.mPoint.andThen mNum

/-- The syntactic predicate in front of `NUM POINT NUM`. -/
def synpred1 (s : LexerState) : Bool :=
  !(mDecimal { s with error := false }).error

/-- `'E' ( PLUS | MINUS )? NUM` -/
def mExponent (s : LexerState) : LexerState :=
  (s.matchC 'E'.toUInt8).andThen fun s =>
    (if (s.la 1).any isSignCh then s.matchSet isSignCh else s).andThen mNum

def mNumber (s : LexerState) : LexerState :=
  (if s.la 1 = some '.'.toUInt8 then s.mPoint.andThen mNum
    else if s.synpred1 then s.mDecimal
    else s.mNum).andThen fun s =>
      if s.la 1 = some 'E'.toUInt8 then s.mExponent else s

/-! ## String literals -/

/-- `('\\' ('\'')? | ~('\\' | '\''))*`; the quote behind a backslash is only taken when another
character follows it. -/
def quotedStringLoop (lookAhead : LookAhead) : List UInt8 → List UInt8
  | [] => []
  | c :: rest =>
    if lookAhead.read c = '\''.toUInt8 then c :: rest
    else if lookAhead.read c = '\\'.toUInt8 then
      match rest with
      | quote :: next :: behind =>
        if lookAhead.read quote = '\''.toUInt8 then quotedStringLoop lookAhead (next :: behind)
        else quotedStringLoop lookAhead (quote :: next :: behind)
      | rest => quotedStringLoop lookAhead rest
    else quotedStringLoop lookAhead rest

def mQuotedString (s : LexerState) : LexerState :=
  s.mQuote.andThen fun s =>
    (LexerState.mk s.lookAhead (quotedStringLoop s.lookAhead s.rest) s.error).mQuote

/-! ## Blanks and comments -/

def mWs (s : LexerState) : LexerState :=
  s.matchSet isBlankCh

/-- `~('\n'|'\r')* '\r'? '\n'` -/
def matchLine (s : LexerState) : LexerState :=
  ((s.matchSetLoop isLineCh).matchOptional '\r'.toUInt8).andThen fun s => s.matchC '\n'.toUInt8

def mSlComment (s : LexerState) : LexerState :=
  (s.matchS (bytesOf "--")).andThen matchLine

def mMysqlComment (s : LexerState) : LexerState :=
  (s.matchC '#'.toUInt8).andThen matchLine

/-- The loop goes on at anything but a closer, or a `*` at the end of the input. -/
def mlContinues (lookAhead : LookAhead) (rest : List UInt8) : Bool :=
  if lookAhead.la rest 1 = some '*'.toUInt8 then (lookAhead.la rest 2).any (· != '/'.toUInt8)
  else (lookAhead.la rest 1).isSome

def mMlComment (s : LexerState) : LexerState :=
  (s.matchS (bytesOf "/*")).andThen fun s =>
    (s.matchWhile (mlContinues s.lookAhead)).matchS (bytesOf "*/")

end LexerState

/-! ## The token decision -/

/-- The alternatives of the token rule. A literal is a word or an operator, with its type. -/
inductive LexRule where
  | literal (spelling : String) (type : TokenType)
  | id | number | quotedString | qstring
  | ws | slComment | mysqlComment | mlComment
deriving DecidableEq, Repr

namespace LexRule

def type : LexRule → TokenType
  | literal _ type => type
  | id => .id
  | number => .number
  | quotedString => .quotedString
  | qstring => .other 542
  | ws => .ws
  | slComment => .slComment
  | mysqlComment => .mysqlComment
  | mlComment => .mlComment

def channel : LexRule → Channel
  | ws | slComment | mysqlComment | mlComment => .hidden
  | _ => .default

/-- The text that the actions leave a token of the rule. -/
def text (rt : Runtime) (options : ℕ) (rule : LexRule) (span : List UInt8) : String :=
  match rule.type with
  | .stupidMysqlDate | .stupidMysqlTimestamp => "NULL"
  | type => nameText rt options type (spanText span)

def run : LexRule → LexerState → LexerState
  | literal spelling _, s => s.matchS (bytesOf spelling)
  | id, s => s.mId
  | number, s => s.mNumber
  | quotedString, s => s.mQuotedString
  | qstring, s => s.mQString
  | ws, s => s.mWs
  | slComment, s => s.mSlComment
  | mysqlComment, s => s.mMysqlComment
  | mlComment, s => s.mMlComment

end LexRule

def QuoteRule.lexRule : QuoteRule → LexRule
  | stupidMysqlDate => .literal "'0000-00-00'" .stupidMysqlDate
  | stupidMysqlTimestamp => .literal "'0000-00-00 00:00:00'" .stupidMysqlTimestamp
  | quotedString => .quotedString
  | quote => .literal "'" .quote

/-- The literals that the nested switches over letters choose from. -/
def wordLiterals : List (List UInt8 × LexRule) :=
  literals.map fun (word, type) => (bytesOf word, .literal word type)

/-- The switches over the characters that are not letters, quotes or backticks. -/
def predictSign (c : Char) (next : Option Char) : Option LexRule :=
  match c, next with
  | ';', _ => some (.literal ";" .semi)
  | ':', some '=' => some (.literal ":=" (.other 556))
  | ':', _ => some (.literal ":" (.other 550))
  | '.', some '.' => some (.literal ".." (.other 552))
  | '.', d => if d.any (isDigitCh ·.toUInt8) then some .number else some (.literal "." .dot)
  | ',', _ => some (.literal "," .comma)
  | '*', some '*' => some (.literal "**" (.other 141))
  | '*', _ => some (.literal "*" (.other 133))
  | '@', _ => some (.literal "@" (.other 104))
  | ')', _ => some (.literal ")" .rparen)
  | '(', _ => some (.literal "(" .lparen)
  | ']', _ => some (.literal "]" (.other 308))
  | '[', _ => some (.literal "[" (.other 307))
  | '+', _ => some (.literal "+" (.other 135))
  | '-', some '-' => some .slComment
  | '-', _ => some (.literal "-" (.other 136))
  | '/', some '*' => some .mlComment
  | '/', _ => some (.literal "/" (.other 138))
  | '=', some '>' => some (.literal "=>" (.other 557))
  | '=', _ => some (.literal "=" .eq)
  | '%', _ => some (.literal "%" (.other 553))
  | '<', some '<' => some (.literal "<<" (.other 554))
  | '<', some '>' => some (.literal "<>" (.other 269))
  | '<', some '=' => some (.literal "<=" (.other 273))
  | '<', _ => some (.literal "<" (.other 272))
  | '>', some '>' => some (.literal ">>" (.other 555))
  | '>', some '=' => some (.literal ">=" (.other 271))
  | '>', _ => some (.literal ">" (.other 270))
  | '|', some '|' => some (.literal "||" (.other 137))
  | '|', _ => some (.literal "|" (.other 558))
  -- `!` and `^` start nothing else, so the second character is left to the rule.
  | '!', _ => some (.literal "!=" (.other 269))
  | '^', _ => some (.literal "^=" (.other 269))
  | '#', _ => some .mysqlComment
  | _, _ => none

namespace LexerState

/-- The characters ahead. -/
def ahead (s : LexerState) : List UInt8 :=
  s.rest.map s.lookAhead.read

/-- The decision of the token rule; no result is no viable alternative. -/
def predict (s : LexerState) : Option LexRule :=
  match s.ahead with
  | [] => none
  | c :: behind =>
    if isLetterCh c then
      if c = 'Q'.toUInt8 ∧ behind.head? = some '\''.toUInt8 then some .qstring
      else some ((NestedSwitch.decision isWordCh (c :: behind) wordLiterals).getD .id)
    else if c = 'q'.toUInt8 then some .qstring
    else if c = '\''.toUInt8 then (predictQuote (behind.map charOf)).map QuoteRule.lexRule
    else if c = '"'.toUInt8 then some .id
    else if c = '`'.toUInt8 then
      if behind.isEmpty then some (.literal "`" (.other 560)) else some .id
    else if isDigitCh c then some .number
    else if isBlankCh c then some .ws
    else predictSign (charOf c) (behind.head?.map charOf)

end LexerState

/-- All rules but that of the q-quoted strings. -/
def lexerRules : OtherRules := fun lookAhead rest =>
  let s := LexerState.mk lookAhead rest false
  match s.predict with
  | some rule => ((rule.run s).rest, (rule.run s).error)
  | none => (rest, true)

end Pgify.Model
