import Pgify.Model.StringLexer

/-! # Lexing blanks and comments

The four rules that put their token on the hidden channel, and the part of the token decision that
picks them. None of them changes the text of its token.
-/

namespace Pgify.Model

/-- The rules with the action that hides the token. -/
inductive HiddenRule where
  | ws | slComment | mysqlComment | mlComment
deriving DecidableEq, Repr

/-- The token decision as far as it leads to a hidden token. -/
def predictHidden : List Char → Option HiddenRule
  | ' ' :: _ | '\r' :: _ | '\t' :: _ | '\n' :: _ => some .ws
  | '-' :: '-' :: _ => some .slComment
  | '#' :: _ => some .mysqlComment
  | '/' :: '*' :: _ => some .mlComment
  | _ => none

/-- `~('\n'|'\r')* '\r'? '\n'`: what is consumed, and the input behind it. -/
def lineBody : List Char → Option (List Char × List Char)
  | [] => none
  | c :: input =>
    if c = '\n' then some (['\n'], input)
    else if c = '\r' then
      if input.head? = some '\n' then some (['\r', '\n'], input.drop 1) else none
    else (lineBody input).map fun (body, rest) => (c :: body, rest)

/-- `( options {greedy=false;} : . )* '*/'`: the loop ends at the first closer. -/
def mlBody : List Char → Option (List Char × List Char)
  | [] => none
  | c :: input =>
    if c = '*' ∧ input.head? = some '/' then some (['*', '/'], input.drop 1)
    else (mlBody input).map fun (body, rest) => (c :: body, rest)

/-- A token whose text is the stretch it was matched on. -/
def hiddenLexeme (type : TokenType) (span : List Char) : Lexeme :=
  ⟨type, span, String.ofList span⟩

def mWs (input : List Char) : Option (Lexeme × List Char) :=
  input.head?.map fun c => (hiddenLexeme .ws [c], input.drop 1)

def mSlComment (input : List Char) : Option (Lexeme × List Char) :=
  (lineBody (input.drop 2)).map fun (body, rest) =>
    (hiddenLexeme .slComment ('-' :: '-' :: body), rest)

def mMysqlComment (input : List Char) : Option (Lexeme × List Char) :=
  (lineBody (input.drop 1)).map fun (body, rest) =>
    (hiddenLexeme .mysqlComment ('#' :: body), rest)

def mMlComment (input : List Char) : Option (Lexeme × List Char) :=
  (mlBody (input.drop 2)).map fun (body, rest) =>
    (hiddenLexeme .mlComment ('/' :: '*' :: body), rest)

/-- The next token if it is a hidden one; no result is a token on the default channel or a lexer
error. -/
def nextHiddenToken (input : List Char) : Option (Lexeme × List Char) := do
  match ← predictHidden input with
  | .ws => mWs input
  | .slComment => mSlComment input
  | .mysqlComment => mMysqlComment input
  | .mlComment => mMlComment input

end Pgify.Model
