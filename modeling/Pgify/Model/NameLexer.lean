import Pgify.Model.StringLexer

/-! # Lexing at a backtick

What the lexer does when the next character is a backtick: unless the input ends there, it matches
an identifier up to the next backtick and puts double quotes in place of the backticks, in lower
case when PGIFY_LOWERID is on.
-/

namespace Pgify.Model

/-- The characters from the first index up to the second. -/
def subString (string : String) (startIndex endIndex : ℕ) : String :=
  String.ofList ((string.toList.take endIndex).drop startIndex)

/-- The action of BACKQUOTED_STRING on the text of its token. -/
def backquotedText (rt : Runtime) (options : ℕ) (getText : String) : String :=
  let str := "\"" ++ subString getText 1 (getText.length - 1) ++ "\""
  if pgifyIsLowerid options then rt.utf8Strdown str else str

/-- ``( ~('`') )* BACKTICK``: what stands in front of the backtick, and the input behind it. -/
def backquotedBody : List Char → Option (List Char × List Char)
  | [] => none
  | c :: input =>
    if c = '`' then some ([], input)
    else (backquotedBody input).map fun (content, rest) => (c :: content, rest)

/-- The third alternative of ID. -/
def mBackquotedString (rt : Runtime) (options : ℕ) : List Char → Option (Lexeme × List Char)
  | [] => none
  | c :: input =>
    if c = '`' then
      (backquotedBody input).map fun (content, rest) =>
        let span := '`' :: content ++ ['`']
        (⟨.id, span, backquotedText rt options (String.ofList span)⟩, rest)
    else none

/-- A backtick at the very end of the input is a token of its own, BACKTICK. -/
def mBacktick : List Char → Option (Lexeme × List Char)
  | [] => none
  | c :: input => if c = '`' then some (⟨.other 560, ['`'], "`"⟩, input) else none

/-- The next token of an input that starts with a backtick; no result is a lexer error. -/
def nextTokenAtBacktick (rt : Runtime) (options : ℕ) (input : List Char) :
    Option (Lexeme × List Char) :=
  if 1 < input.length then mBackquotedString rt options input else mBacktick input

end Pgify.Model
