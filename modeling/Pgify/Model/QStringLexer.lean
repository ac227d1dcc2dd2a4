import Mathlib.Data.Nat.Notation
import Pgify.Lib.SuffixScan

/-! # Lexing q-quoted strings

The lexer on an 8-bit input stream. `pgify` has the stream look ahead in upper case, and the rule
for q-quoted strings with a delimiter of their own reads the characters as they are while it
matches. The other rules are a parameter: none of them touches the look-ahead function.
-/

namespace Pgify.Model

open SuffixScan

/-- The functions that `_LA` of a stream may designate. -/
inductive LookAhead where
  | raw | ucase
deriving DecidableEq, Repr

/-- `toupper` in the C locale. -/
def toupper (c : UInt8) : UInt8 :=
  if 'a'.toUInt8 ≤ c ∧ c ≤ 'z'.toUInt8 then c - 32 else c

def LookAhead.read : LookAhead → UInt8 → UInt8
  | .raw, c => c
  | .ucase, c => toupper c

/-- `LA(i)`, for positive `i`; EOF is no result, and in no range of characters. -/
def LookAhead.la (lookAhead : LookAhead) (rest : List UInt8) (i : ℕ) : Option UInt8 :=
  rest[i - 1]?.map lookAhead.read

/-- The stream from the next character on with its look-ahead function, and whether the rule that
is matched has raised an exception. -/
structure LexerState where
  lookAhead : LookAhead
  rest : List UInt8
  error : Bool
deriving DecidableEq, Repr

/-! ## What the rules are made of -/

namespace LexerState

def la (s : LexerState) (i : ℕ) : Option UInt8 :=
  s.lookAhead.la s.rest i

def setUcaseLA (s : LexerState) (flag : Bool) : LexerState :=
  { s with lookAhead := if flag then .ucase else .raw }

/-- At the end of the input there is nothing to consume. -/
def consume (s : LexerState) : LexerState :=
  { s with rest := s.rest.tail }

def constructEx (s : LexerState) : LexerState :=
  { s with error := true }

/-- The recovery from an exception: one character is consumed. -/
def lrecover (s : LexerState) : LexerState :=
  s.consume

/-- Any character is a match, also behind an exception. -/
def matchAny (s : LexerState) : LexerState :=
  s.consume

def matchC (s : LexerState) (c : UInt8) : LexerState :=
  if s.la 1 = some c then s.consume else s.constructEx.lrecover

/-- What comes next in a rule, unless there is an exception. -/
def andThen (s : LexerState) (next : LexerState → LexerState) : LexerState :=
  if s.error then s else next s

/-- A loop of `MATCHANY` that a test of the look-ahead keeps going. -/
def matchWhile (s : LexerState) (continues : List UInt8 → Bool) : LexerState :=
  { s with rest := dropWhileRest continues s.rest }

def mQuote (s : LexerState) : LexerState :=
  s.matchC '\''.toUInt8

/-! ## The strings between brackets -/

/-- The loop of the four bracket rules goes on at anything but a closing bracket with a quote, or
the end of the input, behind it. -/
def bracketContinues (lookAhead : LookAhead) (closing : UInt8) (rest : List UInt8) : Bool :=
  if lookAhead.la rest 1 = some closing then (lookAhead.la rest 2).any (· != '\''.toUInt8)
  else (lookAhead.la rest 1).isSome

/-- `QUOTE opening ( options {greedy=false;} : . )* closing QUOTE` -/
def mQSBracketed (opening closing : UInt8) (s : LexerState) : LexerState :=
  s.mQuote.andThen fun s => (s.matchC opening).andThen fun s =>
    ((s.matchWhile (bracketContinues s.lookAhead closing)).matchC closing).andThen mQuote

def mQSAngle : LexerState → LexerState :=
  mQSBracketed '<'.toUInt8 '>'.toUInt8

def mQSBrace : LexerState → LexerState :=
  mQSBracketed '\x7b'.toUInt8 '\x7d'.toUInt8

def mQSBrack : LexerState → LexerState :=
  mQSBracketed '['.toUInt8 ']'.toUInt8

def mQSParen : LexerState → LexerState :=
  mQSBracketed '('.toUInt8 ')'.toUInt8

/-! ## The strings with a delimiter of their own -/

/-- `~('<'|'\x7b'|'['|'('|' '|'\t'|'\n'|'\r')` -/
def isQSOtherCh (c : UInt8) : Bool :=
  !(['<', '\x7b', '[', '(', ' ', '\t', '\n', '\r'].map Char.toUInt8).contains c

def mQSOtherCh (s : LexerState) : LexerState :=
  if (s.la 1).any isQSOtherCh then s.consume else s.constructEx.lrecover

/-- The predicate of the loop. -/
def qsOtherInside (lookAhead : LookAhead) (delimiter : UInt8) (rest : List UInt8) : Bool :=
  lookAhead.la rest 1 != some delimiter || lookAhead.la rest 2 != some '\''.toUInt8

/-- The predicate of the closing delimiter. -/
def qsOtherCloses (lookAhead : LookAhead) (delimiter : UInt8) (rest : List UInt8) : Bool :=
  lookAhead.la rest 1 == some delimiter && lookAhead.la rest 2 == some '\''.toUInt8

/-- The decision of the loop, from three characters. -/
def qsOtherContinues (lookAhead : LookAhead) (delimiter : UInt8) (rest : List UInt8) : Bool :=
  let inside := qsOtherInside lookAhead delimiter rest
  let viable := inside || qsOtherCloses lookAhead delimiter rest
  (lookAhead.la rest 1).isSome && viable &&
    if lookAhead.la rest 2 = some '\''.toUInt8 ∧ viable then
      (lookAhead.la rest 3).isSome && inside
    else (lookAhead.la rest 2).any (· != '\''.toUInt8) && inside

/-- The look-ahead function is put back behind the closing quote only. A failing predicate of the
closing delimiter still consumes a character before the rule is left. -/
def mQSOther (s : LexerState) : LexerState :=
  let oldLA := s.lookAhead
  (s.setUcaseLA false).mQuote.andThen fun s =>
    -- The text of the delimiter is taken from the input, not from the look-ahead.
    let delimiter := s.rest.headD 0
    s.mQSOtherCh.andThen fun s =>
      let s := s.matchWhile (qsOtherContinues s.lookAhead delimiter)
      let s := if qsOtherCloses s.lookAhead delimiter s.rest then s else s.constructEx
      s.matchAny.andThen fun s => s.mQuote.andThen fun s => { s with lookAhead := oldLA }

/-! ## Tokens -/

/-- The alternatives of a q-quoted string. -/
inductive QStringRule where
  | angle | brace | brack | paren | other
deriving DecidableEq, Repr

def predictQString (s : LexerState) : Option QStringRule :=
  if s.la 1 = some '\''.toUInt8 then
    (s.la 2).bind fun c =>
      if c = '['.toUInt8 then some .brack
      else if c = '<'.toUInt8 then some .angle
      else if c = '\x7b'.toUInt8 then some .brace
      else if isQSOtherCh c then some .other
      else if c = '('.toUInt8 then some .paren
      else none
  else none

def mQString (s : LexerState) : LexerState :=
  if s.la 1 = some 'Q'.toUInt8 ∨ s.la 1 = some 'q'.toUInt8 then
    let s := s.consume
    match s.predictQString with
    | some .angle => s.mQSAngle
    | some .brace => s.mQSBrace
    | some .brack => s.mQSBrack
    | some .paren => s.mQSParen
    | some .other => s.mQSOther
    | none => s.constructEx
  else s.constructEx.lrecover

end LexerState

/-- What the other rules make of an input under a look-ahead function: the rest, and whether there
was an exception. -/
abbrev OtherRules : Type :=
  LookAhead → List UInt8 → List UInt8 × Bool

namespace LexerState

variable (others : OtherRules)

/-- The token decision as far as it leads to a q-quoted string. -/
def mTokens (s : LexerState) : LexerState :=
  if s.la 1 = some 'Q'.toUInt8 ∧ s.la 2 = some '\''.toUInt8 ∨ s.la 1 = some 'q'.toUInt8 then
    s.mQString
  else
    let outcome := others s.lookAhead s.rest
    { s with rest := outcome.1, error := outcome.2 }

/-- One token; behind a failed one the lexer consumes a character. -/
def nextToken (s : LexerState) : LexerState :=
  let s := mTokens others { s with error := false }
  if s.error then s.lrecover else s

/-- From the start of one token, which is not at the end of the input, to the start of the next. -/
def TokenStep (s t : LexerState) : Prop :=
  s.rest ≠ [] ∧ nextToken others s = t

end LexerState

/-- The lexer that `pgify` makes for a stream. -/
def pgifyLexer (lookAhead : LookAhead) (bytes : List UInt8) : LexerState :=
  (LexerState.mk lookAhead bytes false).setUcaseLA true

end Pgify.Model
