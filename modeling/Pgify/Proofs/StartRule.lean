import Pgify.Model.StartRule

/-! # What the statement loop leaves unconsumed

Every token is consumed by an alternative or left behind. The loop leaves tokens behind without an
error exactly when statements without errors are followed by a token that starts no statement:
nothing behind the loop asks for EOF.
-/

namespace Pgify.StartRule

open Model

/-- Every parsed token of an input without errors was consumed by the loop. -/
def NoSilentTruncation (rules : StatementRules) (lexed : Lexed) : Prop :=
  errorCount rules lexed = 0 →
    (startRule rules lexed.parsed).statements.flatMap Prod.snd = lexed.parsed

/-- The tokens start with statements that the rules match without an error, and `rest` is what is
behind them. -/
inductive Accepted (rules : StatementRules) : List Token → List Token → Prop
  | done (rest : List Token) : Accepted rules rest rest
  | next {tokens rest : List Token} {alternative : Alternative}
      (predicted : predictAlternative (tokens.map Token.type) = some alternative)
      (clean : (rules.matchAlternative tokens alternative).errors = 0)
      (behind : Accepted rules
        (tokens.drop (rules.matchAlternative tokens alternative).consumed) rest) :
      Accepted rules tokens rest

/-- The first token starts no statement, or there is none. -/
def Stops (tokens : List Token) : Prop :=
  ∀ token ∈ tokens.head?, startsStatement token.type = false

variable {rules : StatementRules}

/-! ## The turns of the loop -/

theorem predictAlternative_starts {types : List TokenType} {alternative : Alternative}
    (predicted : predictAlternative types = some alternative) :
    ∃ type rest, types = type :: rest ∧ startsStatement type = true := by
  cases types with
  | nil => cases predicted
  | cons type rest =>
    refine ⟨type, rest, rfl, ?_⟩
    cases type with
    | kSelect | kWith | kUpdate | kInsert | kMerge | kDelete | kDrop | kCreate | kUse | kShow
    | kLock | unlock | semi => rfl
    | _ => cases predicted

theorem startRule_stops {tokens : List Token} (stops : Stops tokens) :
    startRule rules tokens = ⟨[], tokens, 0⟩ := by
  cases tokens with
  | nil => rw [startRule]
  | cons token rest =>
    have other : startsStatement token.type = false := stops token rfl
    rw [startRule, if_neg (by simp [other])]

theorem startRule_next {tokens : List Token} {alternative : Alternative}
    (predicted : predictAlternative (tokens.map Token.type) = some alternative) :
    startRule rules tokens =
      let outcome := rules.matchAlternative tokens alternative
      let behind := startRule rules (tokens.drop outcome.consumed)
      ⟨(alternative, tokens.take outcome.consumed) :: behind.statements, behind.unconsumed,
        outcome.errors + behind.errors⟩ := by
  obtain ⟨type, types, split, starts⟩ := predictAlternative_starts predicted
  cases tokens with
  | nil => cases split
  | cons token rest =>
    obtain ⟨rfl, -⟩ := List.cons.inj split
    rw [startRule, if_pos starts]
    split
    · next missing =>
      rw [predicted] at missing
      cases missing
    · next found =>
      obtain rfl := Option.some.inj (predicted.symm.trans found)
      rfl

theorem startRule_noViable {tokens : List Token} (starts : ¬ Stops tokens)
    (missing : predictAlternative (tokens.map Token.type) = none) :
    startRule rules tokens = ⟨[], tokens, 1⟩ := by
  cases tokens with
  | nil => exact (starts (by simp [Stops])).elim
  | cons token rest =>
    have enters : startsStatement token.type = true := by simpa [Stops] using starts
    rw [startRule, if_pos enters]
    split
    · rfl
    · next found =>
      rw [missing] at found
      cases found

/-- A turn of the loop: it stops, it finds no viable alternative, or it runs one and goes on with
fewer tokens. -/
theorem startRule_induction (rules : StatementRules) {motive : List Token → Prop}
    (stop : ∀ tokens, Stops tokens → motive tokens)
    (noViable : ∀ tokens, ¬ Stops tokens →
      predictAlternative (tokens.map Token.type) = none → motive tokens)
    (next : ∀ tokens alternative, predictAlternative (tokens.map Token.type) = some alternative →
      motive (tokens.drop (rules.matchAlternative tokens alternative).consumed) → motive tokens)
    (tokens : List Token) : motive tokens := by
  by_cases stops : Stops tokens
  · exact stop tokens stops
  · cases predicted : predictAlternative (tokens.map Token.type) with
    | none => exact noViable tokens stops predicted
    | some alternative =>
      have progress := rules.matchAlternative_progress predicted
      have nonempty : tokens ≠ [] := by
        rintro rfl
        cases predicted
      have positive := List.length_pos_iff.mpr nonempty
      exact next tokens alternative predicted (startRule_induction rules stop noViable next _)
termination_by tokens.length
decreasing_by
  simp only [List.length_drop]
  omega

/-! ## The whole loop -/

/-- The consumed tokens and those left behind are the input. -/
theorem startRule_conserves (rules : StatementRules) (tokens : List Token) :
    (startRule rules tokens).statements.flatMap Prod.snd ++ (startRule rules tokens).unconsumed =
      tokens := by
  induction tokens using startRule_induction rules with
  | stop tokens stops => rw [startRule_stops stops]; rfl
  | noViable tokens starts missing => rw [startRule_noViable starts missing]; rfl
  | next tokens alternative predicted ih =>
    rw [startRule_next predicted]
    simp only [List.flatMap_cons, List.append_assoc, ih, List.take_append_drop]

/-- A loop without errors has accepted what is in front of the tokens that it left behind. -/
theorem accepted_unconsumed {tokens : List Token} (clean : (startRule rules tokens).errors = 0) :
    Accepted rules tokens (startRule rules tokens).unconsumed ∧
      Stops (startRule rules tokens).unconsumed := by
  induction tokens using startRule_induction rules with
  | stop tokens stops =>
    rw [startRule_stops stops]
    exact ⟨.done tokens, stops⟩
  | noViable tokens starts missing =>
    rw [startRule_noViable starts missing] at clean
    cases clean
  | next tokens alternative predicted ih =>
    rw [startRule_next predicted] at clean ⊢
    obtain ⟨own, behind⟩ := Nat.add_eq_zero_iff.mp clean
    obtain ⟨accepted, stops⟩ := ih behind
    exact ⟨.next predicted own accepted, stops⟩

/-- Accepted statements in front of a stop are all that the loop runs. -/
theorem Accepted.startRule_eq {tokens rest : List Token} (accepted : Accepted rules tokens rest)
    (stops : Stops rest) :
    (startRule rules tokens).errors = 0 ∧ (startRule rules tokens).unconsumed = rest := by
  induction accepted with
  | done rest =>
    rw [startRule_stops stops]
    exact ⟨rfl, rfl⟩
  | next predicted clean _ ih =>
    obtain ⟨errors, unconsumed⟩ := ih stops
    rw [startRule_next predicted]
    exact ⟨Nat.add_eq_zero_iff.mpr ⟨clean, errors⟩, unconsumed⟩

theorem consumed_all_iff (rules : StatementRules) (tokens : List Token) :
    (startRule rules tokens).statements.flatMap Prod.snd = tokens ↔
      (startRule rules tokens).unconsumed = [] := by
  have conserved := startRule_conserves rules tokens
  constructor
  · intro all
    rw [all] at conserved
    exact List.append_right_eq_self.mp conserved
  · intro none
    rwa [none, List.append_nil] at conserved

/-- Nothing is dropped silently unless a lexed input without errors has statements without errors in
front of a token that starts no statement. -/
theorem noSilentTruncation_iff (rules : StatementRules) (lexed : Lexed) :
    NoSilentTruncation rules lexed ↔
      ¬ (lexed.errors = 0 ∧ ∃ token rest, Accepted rules lexed.parsed (token :: rest) ∧
        startsStatement token.type = false) := by
  rw [NoSilentTruncation, errorCount, Nat.add_eq_zero_iff, consumed_all_iff]
  constructor
  · rintro conserves ⟨lexer, token, rest, accepted, other⟩
    have stops : Stops (token :: rest) := by simpa [Stops] using other
    obtain ⟨errors, unconsumed⟩ := accepted.startRule_eq stops
    have all := conserves ⟨errors, lexer⟩
    rw [unconsumed] at all
    cases all
  · rintro none ⟨parser, lexer⟩
    obtain ⟨accepted, stops⟩ := accepted_unconsumed parser
    cases left : (startRule rules lexed.parsed).unconsumed with
    | nil => rfl
    | cons token rest =>
      rw [left] at accepted stops
      exact (none ⟨lexer, token, rest, accepted, stops token rfl⟩).elim

/-! ## An input that is cut off -/

/-- `K_USE identifier SEMI?` -/
def useDatabaseStatement : List Token → Outcome
  | _ :: identifier :: rest =>
    if identifier.type = .id then
      if rest.head?.any (fun token => token.type == .semi) then ⟨3, 0⟩ else ⟨2, 0⟩
    else ⟨1, 1⟩
  | _ => ⟨1, 1⟩

/-- A grammar that matches USE and refuses every other statement. -/
def useRules : StatementRules where
  run
    | .useDatabaseStatement, tokens => useDatabaseStatement tokens
    | _, _ => ⟨1, 1⟩
  progress rule tokens _ := by
    cases rule with
    | useDatabaseStatement =>
      simp only [useDatabaseStatement]
      split <;> (try split) <;> (try split) <;> exact Nat.succ_pos _
    | _ => exact Nat.one_pos

/-- `USE wp; SET NAMES utf8;` -/
def useThenSet : Lexed where
  tokens := [⟨.kUse, "USE", .default, 1, 0⟩, ⟨.ws, " ", .hidden, 1, 3⟩, ⟨.id, "wp", .default, 1, 4⟩,
    ⟨.semi, ";", .default, 1, 6⟩, ⟨.ws, " ", .hidden, 1, 7⟩, ⟨.kSet, "SET", .default, 1, 8⟩,
    ⟨.ws, " ", .hidden, 1, 11⟩, ⟨.id, "NAMES", .default, 1, 12⟩, ⟨.ws, " ", .hidden, 1, 17⟩,
    ⟨.id, "utf8", .default, 1, 18⟩, ⟨.semi, ";", .default, 1, 22⟩]
  errors := 0

/-- The second statement is dropped, and no error is counted. -/
theorem not_noSilentTruncation_set :
    errorCount useRules useThenSet = 0 ∧ ¬ NoSilentTruncation useRules useThenSet := by
  have accepted : Accepted useRules useThenSet.parsed (useThenSet.parsed.drop 3) :=
    @Accepted.next useRules _ _ (.rule .useDatabaseStatement) rfl rfl (.done _)
  have stops : Stops (useThenSet.parsed.drop 3) := by
    intro token head
    obtain rfl := Option.some.inj head
    rfl
  obtain ⟨errors, unconsumed⟩ := accepted.startRule_eq stops
  have count : errorCount useRules useThenSet = 0 := by
    rw [errorCount, errors]
    rfl
  refine ⟨count, fun conserves => ?_⟩
  have all := (consumed_all_iff useRules useThenSet.parsed).mp (conserves count)
  rw [unconsumed] at all
  cases all

end Pgify.StartRule
