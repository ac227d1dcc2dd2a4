import Pgify.Proofs.TokenDecision
import Pgify.Proofs.TokenPlaces

/-! # The lexer and the lexical grammar

The lexer reports no error exactly on the inputs that are spelled by the lexical grammar. Such an
input is spelled in one way only, and its tokens are the tokens that the lexer delivers.
-/

namespace Pgify.LexicalGrammar

open Pgify.Model TokenLanguages LexerState

/-! ## One turn -/

variable {rule : LexRule} {s : LexerState} {span rest : List UInt8}

theorem span_ne_nil (token : IsToken rule span rest) : span ≠ [] := by
  rintro rfl
  obtain ⟨decided, own⟩ := isToken_iff.mp token
  have progresses : Progresses rule.run := by
    refine progresses_run ?_
    rintro spelling type rfl
    exact predict_filled decided
  have took : accepts rule.run rest = some rest :=
    (accepts_run rule).recognizes.some_iff.mpr own
  obtain ⟨clear, left⟩ := accepts_eq_some.mp took
  have shorter := (progresses ⟨.ucase, rest, false⟩).2 clear
  rw [left] at shorter
  exact Nat.lt_irrefl _ shorter

/-- On a stream that folds case, a turn without an error is a token of the grammar. -/
theorem next_eq_iff (folds : s.lookAhead = .ucase) :
    ((lexer.next s).error = false ∧ s.predict = some rule ∧ (lexer.next s).rest = rest) ↔
      ∃ span, s.rest = span ++ rest ∧ IsToken rule span rest := by
  obtain ⟨lookAhead, input, error⟩ := s
  obtain rfl : lookAhead = .ucase := folds
  have turn := nextToken_eq ⟨.ucase, input, error⟩
  change ((lexer.next ⟨.ucase, input, error⟩).rest, (lexer.next ⟨.ucase, input, error⟩).error) = _
    at turn
  have decision : predict ⟨.ucase, input, error⟩ = predicted input := rfl
  rw [decision] at turn ⊢
  have recognized : (∃ span, input = span ++ rest ∧ IsToken rule span rest) ↔
      predicted input = some rule ∧ accepts rule.run input = some rest := by
    rw [(accepts_run rule).recognizes input rest]
    constructor
    · rintro ⟨span, rfl, token⟩
      obtain ⟨decided, own⟩ := isToken_iff.mp token
      exact ⟨decided, span, rfl, own⟩
    · rintro ⟨decided, span, rfl, own⟩
      exact ⟨span, rfl, isToken_iff.mpr ⟨decided, own⟩⟩
  rw [recognized, accepts_eq_some]
  cases decided : predicted input with
  | none =>
    rw [decided] at turn
    simp [(Prod.mk.inj turn).2]
  | some other =>
    rw [decided] at turn
    change _ = if (other.run ⟨.ucase, input, false⟩).error = true then _ else _ at turn
    cases failed : (other.run ⟨.ucase, input, false⟩).error with
    | true =>
      rw [failed, if_pos rfl] at turn
      rw [(Prod.mk.inj turn).2]
      refine iff_of_false (fun both => Bool.noConfusion both.1) ?_
      rintro ⟨same, clear, -⟩
      obtain rfl := Option.some.inj same
      rw [failed] at clear
      cases clear
    | false =>
      rw [failed, if_neg Bool.false_ne_true] at turn
      rw [(Prod.mk.inj turn).1, (Prod.mk.inj turn).2]
      constructor
      · rintro ⟨-, same, left⟩
        obtain rfl := Option.some.inj same
        exact ⟨rfl, failed, left⟩
      · rintro ⟨same, -, left⟩
        obtain rfl := Option.some.inj same
        exact ⟨rfl, rfl, left⟩

theorem isToken_unique {other : LexRule} {span' rest' : List UInt8} (first : IsToken rule span rest)
    (second : IsToken other span' rest') (same : span ++ rest = span' ++ rest') :
    rule = other ∧ span = span' ∧ rest = rest' := by
  obtain ⟨decided, own⟩ := isToken_iff.mp first
  obtain ⟨decided', own'⟩ := isToken_iff.mp second
  rw [same, decided'] at decided
  obtain rfl := Option.some.inj decided
  exact ⟨rfl, (accepts_run other).recognizes.unique own own' same⟩

/-! ## Whole inputs -/

/-- An input is spelled in one way at most. -/
theorem spelled_unique {first second : List SpelledToken} (spelled : Spelled first)
    (spelled' : Spelled second) (same : first.flatMap Prod.snd = second.flatMap Prod.snd) :
    first = second := by
  induction first generalizing second with
  | nil =>
    cases second with
    | nil => rfl
    | cons item second =>
      have filled := span_ne_nil spelled'.1
      rw [List.flatMap_nil, List.flatMap_cons] at same
      exact absurd (List.append_eq_nil_iff.mp same.symm).1 filled
  | cons item first ih =>
    obtain ⟨rule, span⟩ := item
    cases second with
    | nil =>
      have filled := span_ne_nil spelled.1
      rw [List.flatMap_nil, List.flatMap_cons] at same
      exact absurd (List.append_eq_nil_iff.mp same).1 filled
    | cons item second =>
      obtain ⟨other, span'⟩ := item
      obtain ⟨rfl, rfl, rest⟩ := isToken_unique spelled.1 spelled'.1 same
      rw [ih spelled.2 spelled'.2 rest]

/-- The turns of the lexer on spelled tokens. -/
def told (rt : Runtime) (options : ℕ) : Place → List SpelledToken → List Stretch
  | _, [] => []
  | place, (rule, span) :: items =>
    ⟨span, some (rule.token rt options place span)⟩ ::
      told rt options (span.foldl Place.advance place) items

variable (rt : Runtime) (options : ℕ)

/-- The lexer takes the tokens of a spelled input one by one. -/
theorem visits_of_spelled {items : List SpelledToken} (spelled : Spelled items) {fuel : ℕ}
    {place : Place} (whole : s.rest = items.flatMap Prod.snd) (folding : s.Folding)
    (enough : s.rest.length ≤ fuel) :
    (lexer.visits Place.advance fuel place s).map (fun (place, s) => stretchAt rt options place s) =
      told rt options place items := by
  induction items generalizing fuel place s with
  | nil =>
    have ended : lexer.rest s = [] := whole
    cases fuel with
    | zero => rfl
    | succ fuel =>
      rw [Scanner.visits, ended]
      rfl
  | cons item items ih =>
    obtain ⟨rule, span⟩ := item
    obtain ⟨token, spelled⟩ := spelled
    have filled := span_ne_nil token
    have left : s.rest ≠ [] := by
      rw [whole]
      exact fun empty => filled (List.append_eq_nil_iff.mp empty).1
    cases fuel with
    | zero => exact absurd (List.length_eq_zero_iff.mp (Nat.le_zero.mp enough)) left
    | succ fuel =>
      have folds := folding left
      obtain ⟨clear, decided, behind⟩ := (next_eq_iff folds).mpr ⟨span, whole, token⟩
      have cut : lexer.rest s = span ++ lexer.rest (lexer.next s) := by
        change s.rest = span ++ (lexer.next s).rest
        rw [whole, behind]
        rfl
      have taken : lexer.span s = span := Scanner.span_of_eq cut
      have here : stretchAt rt options place s = ⟨span, some (rule.token rt options place span)⟩ := by
        rw [stretchAt, taken, clear, decided]
        rfl
      have ongoing : ¬ (lexer.rest s).isEmpty = true := fun empty =>
        left (List.isEmpty_iff.mp empty)
      have shorter : (lexer.next s).rest.length ≤ fuel := by
        have positive := List.length_pos_iff.mpr filled
        have length := congrArg List.length cut
        change s.rest.length = (span ++ (lexer.next s).rest).length at length
        rw [List.length_append] at length
        omega
      rw [Scanner.visits, if_neg ongoing, taken, told, List.map_cons]
      exact congrArg₂ List.cons here
        (ih spelled behind (nextToken_folding lexerRules folds) shorter)

theorem lexStretches_of_spelled {items : List SpelledToken} (spelled : Spelled items) :
    lexStretches rt options (items.flatMap Prod.snd) = told rt options Place.start items :=
  visits_of_spelled rt options spelled rfl (fun _ => rfl) le_rfl

/-- Turns without an error spell the input. -/
theorem spelled_of_clear {fuel : ℕ} {place : Place} (folding : s.Folding)
    (enough : s.rest.length ≤ fuel)
    (clear : ∀ visit ∈ lexer.visits Place.advance fuel place s,
      (stretchAt rt options visit.1 visit.2).token.isSome = true) :
    ∃ items, Spelled items ∧ items.flatMap Prod.snd = s.rest := by
  induction fuel generalizing place s with
  | zero =>
    have ended := List.length_eq_zero_iff.mp (Nat.le_zero.mp enough)
    exact ⟨[], trivial, ended.symm⟩
  | succ fuel ih =>
    by_cases left : s.rest = []
    · exact ⟨[], trivial, left.symm⟩
    · have folds := folding left
      have ongoing : ¬ (lexer.rest s).isEmpty = true := fun empty =>
        left (List.isEmpty_iff.mp empty)
      rw [Scanner.visits, if_neg ongoing] at clear
      have own := clear _ List.mem_cons_self
      rw [stretchAt] at own
      dsimp only at own
      split at own
      · cases own
      · next fine =>
        rw [Option.isSome_map] at own
        obtain ⟨rule, decided⟩ := Option.isSome_iff_exists.mp own
        obtain ⟨span, whole, token⟩ := (next_eq_iff folds).mp
          ⟨Bool.eq_false_iff.mpr fine, decided, rfl⟩
        have positive := List.length_pos_iff.mpr (span_ne_nil token)
        have length := congrArg List.length whole
        rw [List.length_append] at length
        obtain ⟨items, spelled, rest⟩ := ih (nextToken_folding lexerRules folds)
          (by change (lexer.next s).rest.length ≤ fuel; omega)
          fun visit member => clear visit (List.mem_cons_of_mem _ member)
        refine ⟨(rule, span) :: items, ⟨?_, spelled⟩, ?_⟩
        · rw [rest]
          exact token
        · rw [List.flatMap_cons, rest]
          exact whole.symm

/-- The lexer reports no error exactly on what the grammar spells, which it spells in one way, and
there it delivers the tokens of the grammar, each at its place. -/
theorem lex_iff_spelled (bytes : List UInt8) :
    ((lex rt options bytes).errors = 0 ↔
      ∃! items, Spelled items ∧ items.flatMap Prod.snd = bytes) ∧
    ∀ items, Spelled items ∧ items.flatMap Prod.snd = bytes →
      lexStretches rt options bytes = told rt options Place.start items := by
  have folding : (pgifyLexer .raw bytes).Folding := fun _ => rfl
  have deliver (items : List SpelledToken) (own : Spelled items ∧ items.flatMap Prod.snd = bytes) :
      lexStretches rt options bytes = told rt options Place.start items :=
    own.2 ▸ lexStretches_of_spelled rt options own.1
  have delivered (place : Place) (items : List SpelledToken) :
      (told rt options place items).countP (fun stretch => stretch.token.isNone) = 0 := by
    induction items generalizing place with
    | nil => rfl
    | cons item items ih => exact ih _
  refine ⟨⟨fun clear => ?_, ?_⟩, deliver⟩
  · have clears (visit : Place × LexerState) (member : visit ∈ lexer.visits Place.advance
        bytes.length Place.start (pgifyLexer .raw bytes)) :
        (stretchAt rt options visit.1 visit.2).token.isSome = true := by
      have none := List.countP_eq_zero.mp clear _ (List.mem_map_of_mem member)
      rw [Option.isNone_iff_eq_none] at none
      exact Option.isSome_iff_ne_none.mpr none
    obtain ⟨items, spelled, whole⟩ := spelled_of_clear rt options folding le_rfl clears
    refine ⟨items, ⟨spelled, whole⟩, fun others own => ?_⟩
    exact spelled_unique own.1 spelled (own.2.trans whole.symm)
  · rintro ⟨items, own, -⟩
    rw [lex, deliver items own]
    exact delivered Place.start items

/-- `select 1` -/
private def selectItems : List SpelledToken :=
  [(.literal "SELECT" .kSelect, bytesOf "select"), (.ws, bytesOf " "), (.number, bytesOf "1")]

private theorem spelled_select : Spelled selectItems := by
  have select : (wordLiterals.lookup (upper (bytesOf "select"))).getD .id =
      .literal "SELECT" .kSelect := by decide +kernel
  have word : Lexical.word (bytesOf "select") (bytesOf " 1") :=
    word_iff.mpr ⟨by decide, by decide, fun c next => by obtain rfl := Option.some.inj next; rfl⟩
  have token := IsToken.word word (by decide) (by decide)
  rw [select] at token
  have digits : Lexical.digits (bytesOf "1") [] := digits_iff.mpr ⟨by decide, by decide, nofun⟩
  have number : Lexical.number (bytesOf "1") [] :=
    ⟨bytesOf "1", [], rfl, digits, rfl⟩
  exact ⟨token, .ws rfl, .number number, trivial⟩

theorem lex_iff_spelled_select :
    (lexStretches ⟨id, 0⟩ 0 (bytesOf "select 1")).map Stretch.token =
      [some ⟨.kSelect, "select", .default, 1, 0⟩, some ⟨.ws, " ", .hidden, 1, 6⟩,
        some ⟨.number, "1", .default, 1, 7⟩] := by
  rw [(lex_iff_spelled ⟨id, 0⟩ 0 (bytesOf "select 1")).2 selectItems ⟨spelled_select, by decide⟩]
  decide +kernel

end Pgify.LexicalGrammar
