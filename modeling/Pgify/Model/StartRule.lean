import Pgify.Model.Tree

/-! # The statement loop of the parser

`start_rule` is a loop over the alternatives of its block. Its decisions look at token types only:
the loop is entered on the first token, the alternative is picked on up to three tokens, and leaving
the loop is no error. What a statement rule matches behind that is a parameter, `StatementRules`.
-/

namespace Pgify.Model

/-- The statement rules of the block. -/
inductive StatementRule where
  | selectStatement | updateStatement | insertStatement | mergeStatement | deleteStatement
  | dropStatement | createTableStatement | createDatabaseStatement | useDatabaseStatement
  | showDatabasesStatement | showTablesStatement | showColumnsStatement | lockTablesStatement
  | unlockTablesStatement
deriving DecidableEq, Repr

/-- An alternative of the block: a statement rule or a semicolon of its own. -/
inductive Alternative where
  | rule (rule : StatementRule)
  | semi
deriving DecidableEq, Repr

/-- The decision of the loop on its next token. -/
def startsStatement : TokenType → Bool
  | .kSelect | .kWith | .kUpdate | .kInsert | .kMerge | .kDelete | .kDrop | .kCreate | .kUse
  | .kShow | .kLock | .unlock | .semi => true
  | _ => false

/-- The decision of the block; no result is no viable alternative. -/
def predictAlternative : List TokenType → Option Alternative
  | .kSelect :: _ | .kWith :: _ => some (.rule .selectStatement)
  | .kUpdate :: _ => some (.rule .updateStatement)
  | .kInsert :: _ => some (.rule .insertStatement)
  | .kMerge :: _ => some (.rule .mergeStatement)
  | .kDelete :: _ => some (.rule .deleteStatement)
  | .kDrop :: _ => some (.rule .dropStatement)
  | .kCreate :: .kTable :: _ | .kCreate :: .kTemporary :: _ => some (.rule .createTableStatement)
  | .kCreate :: .kDatabase :: _ => some (.rule .createDatabaseStatement)
  | .kUse :: _ => some (.rule .useDatabaseStatement)
  | .kShow :: .databases :: _ => some (.rule .showDatabasesStatement)
  | .kShow :: .kTables :: _ | .kShow :: .kFull :: .kTables :: _ =>
    some (.rule .showTablesStatement)
  | .kShow :: .columns :: _ | .kShow :: .fields :: _ | .kShow :: .kFull :: .columns :: _
  | .kShow :: .kFull :: .fields :: _ => some (.rule .showColumnsStatement)
  | .kLock :: _ => some (.rule .lockTablesStatement)
  | .unlock :: _ => some (.rule .unlockTablesStatement)
  | .semi :: _ => some .semi
  | _ => none

/-- What one statement rule does: how many tokens it consumes and how many errors it reports. -/
structure Outcome where
  consumed : ℕ
  errors : ℕ
deriving DecidableEq, Repr

/-- The statement rules. Each starts with the token that its decision was made on. -/
structure StatementRules where
  run : StatementRule → List Token → Outcome
  progress : ∀ rule tokens, predictAlternative (tokens.map Token.type) = some (.rule rule) →
    0 < (run rule tokens).consumed

def StatementRules.matchAlternative (rules : StatementRules) (tokens : List Token) :
    Alternative → Outcome
  | .rule rule => rules.run rule tokens
  | .semi => ⟨1, 0⟩

/-- What the loop has done: the alternatives it ran with the tokens each consumed, the tokens that
none of them consumed, and the number of reported errors. -/
structure LoopResult where
  statements : List (Alternative × List Token)
  unconsumed : List Token
  errors : ℕ
deriving DecidableEq, Repr

theorem StatementRules.matchAlternative_progress (rules : StatementRules) {tokens : List Token}
    {alternative : Alternative}
    (predicted : predictAlternative (tokens.map Token.type) = some alternative) :
    0 < (rules.matchAlternative tokens alternative).consumed := by
  cases alternative with
  | rule rule => exact rules.progress rule tokens predicted
  | semi => exact Nat.one_pos

/-- The loop over the default-channel tokens. At the end of the input `EOF?` matches and the loop is
left; a decision without viable alternative reports an error and ends the rule. -/
def startRule (rules : StatementRules) (tokens : List Token) : LoopResult :=
  match tokens with
  | [] => ⟨[], [], 0⟩
  | token :: rest =>
    if startsStatement token.type then
      match _ : predictAlternative ((token :: rest).map Token.type) with
      | none => ⟨[], token :: rest, 1⟩
      | some alternative =>
        let outcome := rules.matchAlternative (token :: rest) alternative
        let behind := startRule rules ((token :: rest).drop outcome.consumed)
        ⟨(alternative, (token :: rest).take outcome.consumed) :: behind.statements,
          behind.unconsumed, outcome.errors + behind.errors⟩
    else ⟨[], token :: rest, 0⟩
termination_by tokens.length
decreasing_by
  have progress := rules.matchAlternative_progress ‹_›
  simp only [List.length_drop, List.length_cons]
  omega

/-- The lexer's token vector and the number of errors it reported. -/
structure Lexed where
  tokens : List Token
  errors : ℕ
deriving DecidableEq, Repr

/-- The tokens that the parser sees, up to EOF. -/
def Lexed.parsed (lexed : Lexed) : List Token :=
  (lexed.tokens.filter fun token => !token.isHidden).takeWhile fun token => token.type != .eof

/-- `error_count` of the tree that `pgify` returns. -/
def errorCount (rules : StatementRules) (lexed : Lexed) : ℕ :=
  (startRule rules lexed.parsed).errors + lexed.errors

end Pgify.Model
