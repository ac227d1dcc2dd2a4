import Pgify.Model.Walker

/-! # Lexing at a quote

What the lexer does when the next character is a single quote: it looks ahead for the two zero
dates, and otherwise matches a quoted string, whose text gets an `E` in front when escapes are on.
The input is the list of characters from the current one on; its end is LA = EOF.
-/

namespace Pgify.Model

/-- The rules that the token decision picks from at a quote. -/
inductive QuoteRule where
  | stupidMysqlDate | stupidMysqlTimestamp | quotedString | quote
deriving DecidableEq, Repr

/-- The decision from the character behind `0000-00-00 ` on. -/
def predictTimestamp : (expected input : List Char) → Option QuoteRule
  | [], '\'' :: _ => some .stupidMysqlTimestamp
  | [], _ :: _ => some .quotedString
  | e :: expected, c :: input =>
    if c = e then predictTimestamp expected input else some .quotedString
  | _, [] => none

/-- The decision from the character behind the quote on; running into the end is no viable
alternative. -/
def predictDate : (expected input : List Char) → Option QuoteRule
  | [], '\'' :: _ => some .stupidMysqlDate
  | [], ' ' :: input => predictTimestamp ['0', '0', ':', '0', '0', ':', '0', '0'] input
  | [], _ :: _ => some .quotedString
  | e :: expected, c :: input => if c = e then predictDate expected input else some .quotedString
  | _, [] => none

/-- The token decision behind a quote; at the very end of the input the quote stands alone. -/
def predictQuote : List Char → Option QuoteRule
  | [] => some .quote
  | input => predictDate ['0', '0', '0', '0', '-', '0', '0', '-', '0', '0'] input

/-- `('\\' ('\'')? | ~('\\' | '\''))* '\''`: what is consumed, and the input behind it. The quote
behind a backslash is only taken when another character follows it. -/
def quotedStringBody : List Char → Option (List Char × List Char)
  | [] => none
  | '\'' :: input => some (['\''], input)
  | '\\' :: '\'' :: c :: input =>
    (quotedStringBody (c :: input)).map fun (body, input) => ('\\' :: '\'' :: body, input)
  | c :: input => (quotedStringBody input).map fun (body, input) => (c :: body, input)

/-- A token with the stretch of the input it was matched on. -/
structure Lexeme where
  type : TokenType
  span : List Char
  text : String
deriving DecidableEq, Repr

/-- The rest of the input behind a literal that starts the input. -/
def dropPrefix? (literal input : List Char) : Option (List Char) :=
  if literal.isPrefixOf input then some (input.drop literal.length) else none

/-- A rule that matches one literal and sets the text to NULL. -/
def zeroDate (type : TokenType) (literal input : List Char) : Option (Lexeme × List Char) :=
  (dropPrefix? literal input).map fun rest => (⟨type, literal, "NULL"⟩, rest)

def mStupidMysqlDate : List Char → Option (Lexeme × List Char) :=
  zeroDate .stupidMysqlDate "'0000-00-00'".toList

def mStupidMysqlTimestamp : List Char → Option (Lexeme × List Char) :=
  zeroDate .stupidMysqlTimestamp "'0000-00-00 00:00:00'".toList

def mQuotedString (options : ℕ) : List Char → Option (Lexeme × List Char)
  | '\'' :: input => (quotedStringBody input).map fun (body, rest) =>
    let span := '\'' :: body
    (⟨.quotedString, span, (if pgifyIsEscape options then "E" else "") ++ String.ofList span⟩, rest)
  | _ => none

def mQuote : List Char → Option (Lexeme × List Char)
  | '\'' :: input => some (⟨.quote, ['\''], "'"⟩, input)
  | _ => none

/-- The next token of an input that starts with a quote; no result is a lexer error. -/
def nextTokenAtQuote (options : ℕ) (input : List Char) : Option (Lexeme × List Char) := do
  match ← predictQuote (input.drop 1) with
  | .stupidMysqlDate => mStupidMysqlDate input
  | .stupidMysqlTimestamp => mStupidMysqlTimestamp input
  | .quotedString => mQuotedString options input
  | .quote => mQuote input

example : nextTokenAtQuote pgifyEscape "'16\\'',5".toList =
    some (⟨.quotedString, "'16\\''".toList, "E'16\\''"⟩, ",5".toList) := by decide

/-- A quoted string is matched from a quote on; its text is what was matched, with the `E`. -/
theorem quotedString_token {options : ℕ} {input span rest : List Char} {text : String}
    (token : nextTokenAtQuote options input = some (⟨.quotedString, span, text⟩, rest)) :
    ∃ behind body, input = '\'' :: behind ∧ quotedStringBody behind = some (body, rest) ∧
      span = '\'' :: body ∧
      text = (if pgifyIsEscape options then "E" else "") ++ String.ofList span := by
  simp only [nextTokenAtQuote, Option.bind_eq_bind, Option.bind_eq_some_iff] at token
  obtain ⟨rule, -, run⟩ := token
  cases rule with
  | quotedString =>
    cases input with
    | nil => cases run
    | cons c behind =>
      by_cases quote : c = '\''
      · subst quote
        obtain ⟨⟨body, rest⟩, consumed, token⟩ := Option.map_eq_some_iff.mp run
        cases token
        exact ⟨behind, body, rfl, consumed, rfl, rfl⟩
      · rw [mQuotedString.eq_2 options _ fun _ equal => quote (List.cons.inj equal).1] at run
        cases run
  | stupidMysqlDate =>
    obtain ⟨behind, -, token⟩ := Option.map_eq_some_iff.mp run
    cases token
  | stupidMysqlTimestamp =>
    obtain ⟨behind, -, token⟩ := Option.map_eq_some_iff.mp run
    cases token
  | quote =>
    change mQuote input = _ at run
    rw [mQuote.eq_def] at run
    split at run <;> cases run

end Pgify.Model
