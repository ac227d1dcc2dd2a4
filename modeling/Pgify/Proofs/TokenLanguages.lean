import Mathlib.Data.List.TakeWhile
import Pgify.Model.Lexer
import Pgify.Model.LexicalGrammar
import Pgify.Proofs.CaseFolding

/-! # What the lexer rules match

On a stream that folds case every rule of the lexer recognizes the spans that the lexical grammar
has for it: it succeeds on an input exactly when one of them stands in front, and takes it.
-/

namespace Pgify.TokenLanguages

open Pgify.Model SpanLanguage Recognizer

/-- An operation on a stream that folds case. -/
def accepts (operation : LexerState → LexerState) : Recognizer UInt8 := fun input =>
  let s := operation ⟨.ucase, input, false⟩
  if s.error then none else some s.rest

/-- The operation takes the spans of the language, and where it does case folding stays on. -/
structure Accepts (operation : LexerState → LexerState) (language : SpanLanguage UInt8) : Prop where
  recognizes : Recognizes (accepts operation) language
  folds : ∀ input, (operation ⟨.ucase, input, false⟩).error = false →
    (operation ⟨.ucase, input, false⟩).lookAhead = .ucase

variable {operation next : LexerState → LexerState} {L M : SpanLanguage UInt8}

theorem accepts_eq_some {input rest : List UInt8} :
    accepts operation input = some rest ↔ (operation ⟨.ucase, input, false⟩).error = false ∧
      (operation ⟨.ucase, input, false⟩).rest = rest := by
  rw [accepts]
  cases (operation ⟨.ucase, input, false⟩).error <;> simp

theorem Accepts.congr (own : Accepts operation L) (same : ∀ span rest, M span rest ↔ L span rest) :
    Accepts operation M :=
  ⟨own.recognizes.congr same, own.folds⟩

/-- What an operation leaves where it takes something. -/
theorem Accepts.left (own : Accepts operation L) {input : List UInt8}
    (clear : (operation ⟨.ucase, input, false⟩).error = false) :
    operation ⟨.ucase, input, false⟩ = ⟨.ucase, (operation ⟨.ucase, input, false⟩).rest, false⟩ := by
  have folds := own.folds input clear
  generalize operation ⟨.ucase, input, false⟩ = s at clear folds
  obtain ⟨lookAhead, rest, error⟩ := s
  obtain rfl : error = false := clear
  obtain rfl : lookAhead = .ucase := folds
  rfl

theorem andThen_of_error {s : LexerState} (failed : s.error = true) : s.andThen next = s :=
  if_pos failed

theorem andThen_of_clear {s : LexerState} (clear : s.error = false) : s.andThen next = next s :=
  if_neg (Bool.eq_false_iff.mp clear)

theorem Accepts.andThen (first : Accepts operation L) (second : Accepts next M) :
    Accepts (fun s => (operation s).andThen next) (L.concat M) := by
  have step (input : List UInt8) :
      accepts (fun s => (operation s).andThen next) input =
        (accepts operation input).bind (accepts next) := by
    rw [accepts, accepts]
    cases own : (operation ⟨.ucase, input, false⟩).error with
    | true => simp only [andThen_of_error own, own, if_true, Option.bind_none]
    | false =>
      rw [andThen_of_clear own, first.left own]
      rfl
  refine ⟨?_, fun input clear => ?_⟩
  · rw [funext step]
    exact first.recognizes.bind second.recognizes
  · cases own : (operation ⟨.ucase, input, false⟩).error with
    | true =>
      rw [andThen_of_error own, own] at clear
      cases clear
    | false =>
      rw [andThen_of_clear own, first.left own] at clear ⊢
      exact second.folds _ clear

/-- Only what an operation does on a clear stream that folds case counts. -/
theorem Accepts.of_eq (own : Accepts operation L)
    (same : ∀ input, next ⟨.ucase, input, false⟩ = operation ⟨.ucase, input, false⟩) :
    Accepts next L := by
  refine ⟨fun input rest => ?_, fun input => ?_⟩
  · rw [← own.recognizes input rest, accepts_eq_some, accepts_eq_some, same]
  · rw [same]
    exact own.folds input

/-- Behind an operation that raises no exception. -/
theorem Accepts.behind (first : Accepts operation L)
    (clear : ∀ input, (operation ⟨.ucase, input, false⟩).error = false) (second : Accepts next M) :
    Accepts (fun s => next (operation s)) (L.concat M) :=
  (first.andThen second).of_eq fun input => (andThen_of_clear (clear input)).symm

theorem accepts_loop (continues : LookAhead → List UInt8 → Bool) :
    Accepts (fun s => s.matchWhile (continues s.lookAhead)) (loop (continues .ucase)) :=
  ⟨recognizes_loop (continues .ucase), fun _ _ => rfl⟩

theorem Accepts.ite {condition : LexerState → Prop} [DecidablePred condition]
    {test : List UInt8 → Bool}
    (same : ∀ input, condition ⟨.ucase, input, false⟩ ↔ test input = true)
    (first : Accepts operation L) (second : Accepts next M) :
    Accepts (fun s => if condition s then operation s else next s) (L.choice test M) := by
  have step (input : List UInt8) :
      accepts (fun s => if condition s then operation s else next s) input =
        if test input then accepts operation input else accepts next input := by
    rw [accepts]
    by_cases holds : test input = true
    · simp only [(same input).mpr holds, holds, if_true]
      rfl
    · simp only [mt (same input).mp holds, holds, if_false]
      rfl
  refine ⟨?_, fun input clear => ?_⟩
  · rw [funext step]
    exact first.recognizes.ite test second.recognizes
  · by_cases holds : condition ⟨.ucase, input, false⟩
    · rw [if_pos holds] at clear ⊢
      exact first.folds input clear
    · rw [if_neg holds] at clear ⊢
      exact second.folds input clear

theorem accepts_skip : Accepts (fun s => s) empty :=
  ⟨recognizes_empty, fun _ _ => rfl⟩

/-! ## Characters -/

/-- A set that does not tell the cases apart. -/
def Caseless (set : UInt8 → Bool) : Prop :=
  ∀ c, set (toupper c) = set c

theorem la_one (input : List UInt8) :
    LexerState.la ⟨.ucase, input, false⟩ 1 = input.head?.map toupper := by
  cases input <;> rfl

theorem any_la_one (set : UInt8 → Bool) (input : List UInt8) :
    (LexerState.la ⟨.ucase, input, false⟩ 1).any set =
      startsWith (fun c => set (toupper c)) input := by
  rw [la_one, Option.any_map]
  rfl

theorem caseless_isCh {c : Char} (other : isLetter c.toUInt8 = false) :
    Caseless (Lexical.isCh c) := by
  intro d
  rw [Lexical.isCh, Lexical.isCh, Bool.eq_iff_iff, beq_iff_eq, beq_iff_eq]
  exact toupper_eq_iff other

theorem caseless_contains {others : List UInt8} (noLetter : others.any isLetter = false) :
    Caseless others.contains := by
  intro c
  rw [Bool.eq_iff_iff, List.contains_iff_mem, List.contains_iff_mem]
  exact LookAhead.ucase.read_mem_iff noLetter

theorem caseless_isDigitCh : Caseless isDigitCh := by
  intro c
  have digits : '0'.toUInt8 = 48 ∧ '9'.toUInt8 = 57 := by decide
  have lower : 'a'.toUInt8 = 97 ∧ 'z'.toUInt8 = 122 := by decide
  rw [isDigitCh, isDigitCh, toupper]
  split
  · grind
  · rfl

theorem matchSet_eq (set : UInt8 → Bool) (input : List UInt8) :
    LexerState.matchSet ⟨.ucase, input, false⟩ set =
      ⟨.ucase, input.tail, !startsWith (fun c => set (toupper c)) input⟩ := by
  rw [LexerState.matchSet, any_la_one]
  cases startsWith (fun c => set (toupper c)) input <;> rfl

theorem accepts_matchSet (set : UInt8 → Bool) :
    Accepts (fun s => s.matchSet set) (single fun c => set (toupper c)) := by
  have step (input : List UInt8) : accepts (fun s => s.matchSet set) input =
      if startsWith (fun c => set (toupper c)) input then some input.tail else none := by
    simp only [accepts, matchSet_eq]
    cases startsWith (fun c => set (toupper c)) input <;> rfl
  refine ⟨?_, fun input clear => by rw [matchSet_eq]⟩
  rw [funext step]
  exact recognizes_single _

theorem matchC_eq (c : UInt8) : (fun s => LexerState.matchC s c) = fun s => s.matchSet (· == c) := by
  funext s
  rw [LexerState.matchC, LexerState.matchSet]
  cases s.la 1 <;> simp

theorem accepts_matchC {c : Char} (other : isLetter c.toUInt8 = false) :
    Accepts (fun s => s.matchC c.toUInt8) (single (Lexical.isCh c)) := by
  have own := accepts_matchSet (Lexical.isCh c)
  rw [funext (caseless_isCh other)] at own
  rw [matchC_eq]
  exact own

theorem accepts_caseless {set : UInt8 → Bool} (caseless : Caseless set) :
    Accepts (fun s => s.matchSet set) (single set) := by
  have own := accepts_matchSet set
  rwa [funext caseless] at own

/-- A loop over a set is a longest match. -/
theorem accepts_matchSetLoop (set : UInt8 → Bool) :
    Accepts (fun s => s.matchSetLoop set) (longest fun c => set (toupper c)) := by
  have own := accepts_loop fun lookAhead rest => (lookAhead.la rest 1).any set
  have test : (fun rest => (LookAhead.ucase.la rest 1).any set) =
      fun rest : List UInt8 => rest.head?.any fun c => set (toupper c) := by
    funext rest
    exact any_la_one set rest
  rw [test] at own
  exact own.congr fun span rest => loop_head_iff.symm

theorem matchS_eq (string input : List UInt8) :
    LexerState.matchS ⟨.ucase, input, false⟩ string =
      match matchReading toupper string input with
      | some rest => ⟨.ucase, rest, false⟩
      | none => ⟨.ucase, (LexerState.matchS ⟨.ucase, input, false⟩ string).rest, true⟩ := by
  induction string generalizing input with
  | nil => rfl
  | cons c string ih =>
    rw [LexerState.matchS, matchReading, la_one]
    split
    · exact ih input.tail
    · rfl

theorem accepts_matchS (string : List UInt8) :
    Accepts (fun s => s.matchS string) (reading toupper string) := by
  refine ⟨fun input rest => ?_, fun input clear => ?_⟩
  · rw [← recognizes_reading toupper string input rest, accepts_eq_some, matchS_eq]
    cases matchReading toupper string input <;> simp
  · rw [matchS_eq] at clear ⊢
    revert clear
    cases matchReading toupper string input with
    | none => exact nofun
    | some rest => exact fun _ => rfl

theorem accepts_longest {set : UInt8 → Bool} (caseless : Caseless set) :
    Accepts (fun s => s.matchSetLoop set) (longest set) := by
  have own := accepts_matchSetLoop set
  rwa [funext caseless] at own

theorem la_eq_iff {c : Char} (other : isLetter c.toUInt8 = false) (input : List UInt8) :
    LexerState.la ⟨.ucase, input, false⟩ 1 = some c.toUInt8 ↔
      startsWith (Lexical.isCh c) input = true := by
  cases input with
  | nil => simp [la_one, startsWith]
  | cons d input =>
    rw [la_one, startsWith, List.head?_cons, Option.map_some, Option.any_some, Option.some_inj,
      toupper_eq_iff other, Lexical.isCh, beq_iff_eq]

theorem la_eq_iff_upper (c : Char) (input : List UInt8) :
    LexerState.la ⟨.ucase, input, false⟩ 1 = some c.toUInt8 ↔
      startsWith (fun d => Lexical.isCh c (toupper d)) input = true := by
  cases input with
  | nil => simp [la_one, startsWith]
  | cons d input => simp [la_one, startsWith, Lexical.isCh]

/-! ## Names -/

theorem accepts_enclosed {quote : Char} (other : isLetter quote.toUInt8 = false) :
    Accepts (fun s => (s.matchC quote.toUInt8).andThen fun s =>
      (s.matchSetLoop (· != quote.toUInt8)).matchC quote.toUInt8) (Lexical.enclosed quote) := by
  have caseless : Caseless (· != quote.toUInt8) := by
    intro c
    exact congrArg not (caseless_isCh other c)
  exact (accepts_matchC other).andThen
    ((accepts_longest caseless).behind (fun _ => rfl) (accepts_matchC other))

/-- The alternatives of an identifier. -/
def identifier : SpanLanguage UInt8 :=
  Lexical.word.choice (startsWith fun c => isLetterCh (toupper c))
    ((Lexical.enclosed '"').choice (startsWith (Lexical.isCh '"'))
      ((Lexical.enclosed '`').choice (startsWith (Lexical.isCh '`')) fun _ _ => False))

theorem accepts_constructEx : Accepts LexerState.constructEx fun _ _ => False :=
  ⟨fun _ _ => ⟨nofun, fun ⟨_, _, absurd⟩ => absurd.elim⟩, fun _ clear => Bool.noConfusion clear⟩

theorem accepts_mId : Accepts LexerState.mId identifier := by
  refine .ite (fun input => by rw [any_la_one]) ?_ (.ite (la_eq_iff rfl) ?_
    (.ite (la_eq_iff rfl) ?_ accepts_constructEx))
  · exact (accepts_matchSet isLetterCh).andThen (accepts_matchSetLoop isWordCh)
  · exact accepts_enclosed rfl
  · exact accepts_enclosed rfl

/-! ## Numbers -/

theorem accepts_mNum : Accepts LexerState.mNum Lexical.digits :=
  (accepts_caseless caseless_isDigitCh).andThen (accepts_longest caseless_isDigitCh)

theorem accepts_fraction : Accepts (fun s => s.mPoint.andThen LexerState.mNum) Lexical.fraction :=
  (accepts_matchC rfl).andThen accepts_mNum

theorem accepts_mDecimal : Accepts LexerState.mDecimal Lexical.decimal :=
  accepts_mNum.andThen accepts_fraction

theorem digits_iff {span rest : List UInt8} :
    Lexical.digits span rest ↔ span ≠ [] ∧ longest isDigitCh span rest := by
  constructor
  · rintro ⟨_, back, rfl, ⟨c, rfl, digit⟩, digits, ends⟩
    refine ⟨List.cons_ne_nil _ _, fun d member => ?_, ends⟩
    rcases List.mem_cons.mp member with rfl | member
    · exact digit
    · exact digits d member
  · rintro ⟨filled, digits, ends⟩
    cases span with
    | nil => exact absurd rfl filled
    | cons c span =>
      exact ⟨[c], span, rfl, ⟨c, rfl, digits c List.mem_cons_self⟩,
        fun d member => digits d (List.mem_cons_of_mem _ member), ends⟩

theorem dropWhile_of_longest {set : UInt8 → Bool} {span rest : List UInt8}
    (own : longest set span rest) : (span ++ rest).dropWhile set = rest := by
  rw [List.dropWhile_append_of_pos own.1]
  cases rest with
  | nil => rfl
  | cons c rest => rw [List.dropWhile_cons_of_neg (by simp [own.2 c rfl])]

theorem longest_takeWhile (set : UInt8 → Bool) (input : List UInt8) :
    longest set (input.takeWhile set) (input.dropWhile set) :=
  ⟨fun _ member => List.mem_takeWhile_imp member, fun c next => by
    have stopped := List.head?_dropWhile_not set input
    rw [next] at stopped
    simpa using stopped⟩

theorem digits_of_startsWith {input : List UInt8} (starts : startsWith isDigitCh input = true) :
    Lexical.digits (input.takeWhile isDigitCh) (input.dropWhile isDigitCh) := by
  refine digits_iff.mpr ⟨?_, longest_takeWhile isDigitCh input⟩
  cases input with
  | nil => cases starts
  | cons c input =>
    have digit : isDigitCh c = true := starts
    rw [List.takeWhile_cons, if_pos digit]
    exact List.cons_ne_nil _ _

/-- The predicate in front of a decimal number. -/
theorem startsDecimal_iff {input : List UInt8} :
    Lexical.startsDecimal input = true ↔
      ∃ span rest, input = span ++ rest ∧ Lexical.decimal span rest := by
  constructor
  · intro starts
    obtain ⟨digit, point⟩ := Bool.and_eq_true_iff.mp starts
    have whole := digits_of_startsWith digit
    cases behind : input.dropWhile isDigitCh with
    | nil =>
      rw [behind] at point
      cases point
    | cons c tail =>
      rw [behind] at point whole
      obtain ⟨isPoint, next⟩ := Bool.and_eq_true_iff.mp point
      refine ⟨input.takeWhile isDigitCh ++ (c :: tail.takeWhile isDigitCh),
        tail.dropWhile isDigitCh, ?_, _, _, rfl, ?_, [c], _, rfl, ⟨c, rfl, isPoint⟩,
        digits_of_startsWith next⟩
      · rw [List.append_assoc, List.cons_append, List.takeWhile_append_dropWhile, ← behind,
          List.takeWhile_append_dropWhile]
      · rwa [List.cons_append, List.takeWhile_append_dropWhile]
  · rintro ⟨_, rest, rfl, whole, _, rfl, ownWhole, _, back, rfl, ⟨point, rfl, isPoint⟩, ownBack⟩
    obtain ⟨filled, longestWhole⟩ := digits_iff.mp ownWhole
    obtain ⟨filledBack, digitsBack, -⟩ := digits_iff.mp ownBack
    rw [List.append_assoc, Lexical.startsDecimal, dropWhile_of_longest longestWhole,
      Bool.and_eq_true_iff]
    constructor
    · cases whole with
      | nil => exact absurd rfl filled
      | cons c whole => exact longestWhole.1 c List.mem_cons_self
    · change (Lexical.isCh '.' point && startsWith isDigitCh (back ++ rest)) = true
      rw [isPoint, Bool.true_and]
      cases back with
      | nil => exact absurd rfl filledBack
      | cons c back => exact digitsBack c List.mem_cons_self

theorem synpred1_iff (input : List UInt8) :
    LexerState.synpred1 ⟨.ucase, input, false⟩ = true ↔ Lexical.startsDecimal input = true := by
  rw [startsDecimal_iff, LexerState.synpred1, Bool.not_eq_true']
  constructor
  · intro clear
    obtain ⟨span, whole, own⟩ :=
      (accepts_mDecimal.recognizes input _).mp (accepts_eq_some.mpr ⟨clear, rfl⟩)
    exact ⟨span, _, whole, own⟩
  · rintro ⟨span, rest, whole, own⟩
    exact (accepts_eq_some.mp ((accepts_mDecimal.recognizes input rest).mpr ⟨span, whole, own⟩)).1

theorem accepts_exponent : Accepts LexerState.mExponent Lexical.exponent := by
  have sign : Caseless isSignCh := caseless_contains (by decide)
  have letter : Accepts (fun s => s.matchC 'E'.toUInt8) (single Lexical.isExponentCh) := by
    rw [matchC_eq]
    exact accepts_matchSet (Lexical.isCh 'E')
  refine letter.andThen
    (.andThen (.ite (fun input => ?_) (accepts_caseless sign) accepts_skip) accepts_mNum)
  rw [any_la_one, funext sign]

theorem accepts_mNumber : Accepts LexerState.mNumber Lexical.number :=
  .andThen (.ite (la_eq_iff rfl) accepts_fraction
      (.ite synpred1_iff accepts_mDecimal accepts_mNum))
    (.ite (la_eq_iff_upper 'E') accepts_exponent accepts_skip)

/-! ## String literals -/

/-- A quote inside stands behind a backslash, and a backslash at the end only at the end of the
input. -/
def Closes (body rest : List UInt8) : Prop :=
  (∀ front back, body = front ++ '\''.toUInt8 :: back → front.getLast? = some '\\'.toUInt8) ∧
    (rest ≠ [] → body.getLast? ≠ some '\\'.toUInt8)

variable {c : UInt8} {body rest : List UInt8}

theorem closes_nil (rest : List UInt8) : Closes [] rest :=
  ⟨fun _ _ split => by simp at split, fun _ => nofun⟩

theorem not_closes_quote : ¬ Closes ('\''.toUInt8 :: body) rest := by
  intro closes
  cases closes.1 [] body rfl

theorem getLast?_cons_ne (other : c ≠ '\\'.toUInt8) :
    (c :: body).getLast? = some '\\'.toUInt8 ↔ body.getLast? = some '\\'.toUInt8 := by
  cases body with
  | nil => exact iff_of_false (fun same => other (Option.some.inj same)) nofun
  | cons d body => rfl

theorem closes_cons (ordinary : c ≠ '\''.toUInt8) (other : c ≠ '\\'.toUInt8) :
    Closes (c :: body) rest ↔ Closes body rest := by
  refine and_congr ⟨fun escaped front back split => ?_, fun escaped front back split => ?_⟩
    (imp_congr_right fun _ => not_congr (getLast?_cons_ne other))
  · exact (getLast?_cons_ne other).mp (escaped (c :: front) back (by rw [split, List.cons_append]))
  · cases front with
    | nil => exact absurd (List.cons.inj split).1 ordinary
    | cons d front =>
      obtain ⟨rfl, behind⟩ := List.cons.inj split
      exact (getLast?_cons_ne other).mpr (escaped front back behind)

theorem closes_backslash : Closes ['\\'.toUInt8] rest ↔ rest = [] := by
  refine ⟨fun closes => ?_, ?_⟩
  · by_contra filled
    exact closes.2 filled rfl
  · rintro rfl
    refine ⟨fun front back split => ?_, fun filled => absurd rfl filled⟩
    cases front with
    | nil => exact absurd (List.cons.inj split).1 (by decide)
    | cons d front => simp at split

theorem closes_escaped :
    Closes ('\\'.toUInt8 :: '\''.toUInt8 :: body) rest ↔ Closes body rest := by
  have quote : '\''.toUInt8 ≠ '\\'.toUInt8 := by decide
  refine and_congr ⟨fun escaped front back split => ?_, fun escaped front back split => ?_⟩
    (imp_congr_right fun _ => not_congr (getLast?_cons_ne quote))
  · exact (getLast?_cons_ne quote).mp (escaped ('\\'.toUInt8 :: '\''.toUInt8 :: front) back
      (by rw [split, List.cons_append, List.cons_append]))
  · cases front with
    | nil => exact absurd (List.cons.inj split).1 quote.symm
    | cons d front =>
      rw [← (List.cons.inj split).1]
      cases front with
      | nil => rfl
      | cons e front =>
        obtain ⟨rfl, behind⟩ := List.cons.inj (List.cons.inj split).2
        exact (getLast?_cons_ne quote).mpr (escaped front back behind)

theorem closes_skipped (ordinary : c ≠ '\''.toUInt8) :
    Closes ('\\'.toUInt8 :: c :: body) rest ↔ Closes (c :: body) rest := by
  refine and_congr ⟨fun escaped front back split => ?_, fun escaped front back split => ?_⟩ Iff.rfl
  · have own := escaped ('\\'.toUInt8 :: front) back (by rw [split, List.cons_append])
    cases front with
    | nil => exact absurd (List.cons.inj split).1 ordinary
    | cons d front => exact own
  · cases front with
    | nil => exact absurd (List.cons.inj split).1 (by decide)
    | cons d front =>
      obtain ⟨-, split⟩ := List.cons.inj split
      have own := escaped front back split
      cases front with
      | nil => cases own
      | cons e front => exact own

section Loop

open LexerState

theorem loop_quote : quotedStringLoop .ucase ('\''.toUInt8 :: rest) = '\''.toUInt8 :: rest := by
  rw [quotedStringLoop.eq_def]
  rfl

theorem loop_cons (ordinary : c ≠ '\''.toUInt8) (other : c ≠ '\\'.toUInt8) :
    quotedStringLoop .ucase (c :: rest) = quotedStringLoop .ucase rest := by
  have quote : ¬ LookAhead.ucase.read c = '\''.toUInt8 :=
    mt (LookAhead.ucase.read_eq_iff rfl).mp ordinary
  have backslash : ¬ LookAhead.ucase.read c = '\\'.toUInt8 :=
    mt (LookAhead.ucase.read_eq_iff rfl).mp other
  rw [quotedStringLoop.eq_def]
  simp only [quote, backslash, if_false]

theorem loop_escaped : quotedStringLoop .ucase ('\\'.toUInt8 :: '\''.toUInt8 :: c :: rest) =
    quotedStringLoop .ucase (c :: rest) := by
  rw [quotedStringLoop.eq_def]
  rfl

theorem loop_last :
    quotedStringLoop .ucase ['\\'.toUInt8, '\''.toUInt8] = ['\''.toUInt8] := by
  decide

theorem loop_skipped (ordinary : c ≠ '\''.toUInt8) :
    quotedStringLoop .ucase ('\\'.toUInt8 :: c :: rest) = quotedStringLoop .ucase (c :: rest) := by
  have quote : ¬ LookAhead.ucase.read c = '\''.toUInt8 :=
    mt (LookAhead.ucase.read_eq_iff rfl).mp ordinary
  have apart : ¬ '\\'.toUInt8 = '\''.toUInt8 := by decide
  have same : LookAhead.ucase.read '\\'.toUInt8 = '\\'.toUInt8 := rfl
  rw [quotedStringLoop.eq_def]
  simp only [same, apart, if_true, if_false]
  cases rest with
  | nil => rfl
  | cons d rest => simp only [quote, if_false]

/-- A loop that ends in front of a quote ends there because of it. -/
theorem quotedStringLoop_iff (body rest : List UInt8) :
    quotedStringLoop .ucase (body ++ '\''.toUInt8 :: rest) = '\''.toUInt8 :: rest ↔
      Closes body rest := by
  have past {behind : List UInt8} (shorter : behind.length ≤ rest.length) :
      quotedStringLoop .ucase behind ≠ '\''.toUInt8 :: rest := by
    intro same
    have bound := (suffix_quotedStringLoop .ucase behind).length_le
    rw [same, List.length_cons] at bound
    omega
  match body with
  | [] => exact iff_of_true loop_quote (closes_nil rest)
  | [c] =>
    rw [List.cons_append, List.nil_append]
    by_cases quote : c = '\''.toUInt8
    · subst quote
      refine iff_of_false (fun same => ?_) not_closes_quote
      rw [loop_quote] at same
      exact absurd (congrArg List.length same) (by simp)
    · by_cases backslash : c = '\\'.toUInt8
      · subst backslash
        rw [closes_backslash]
        cases rest with
        | nil => exact iff_of_true loop_last rfl
        | cons d rest =>
          rw [loop_escaped]
          exact iff_of_false (past le_rfl) (List.cons_ne_nil _ _)
      · rw [loop_cons quote backslash, closes_cons quote backslash]
        exact iff_of_true loop_quote (closes_nil rest)
  | c :: d :: body =>
    by_cases quote : c = '\''.toUInt8
    · subst quote
      refine iff_of_false (fun same => ?_) not_closes_quote
      rw [List.cons_append, loop_quote] at same
      have length := congrArg List.length same
      simp only [List.length_cons, List.length_append] at length
      omega
    · by_cases backslash : c = '\\'.toUInt8
      · subst backslash
        by_cases escaped : d = '\''.toUInt8
        · subst escaped
          have taken : quotedStringLoop .ucase
              ('\\'.toUInt8 :: '\''.toUInt8 :: (body ++ '\''.toUInt8 :: rest)) =
                quotedStringLoop .ucase (body ++ '\''.toUInt8 :: rest) := by
            cases body <;> exact loop_escaped
          rw [List.cons_append, List.cons_append, taken, closes_escaped]
          exact quotedStringLoop_iff body rest
        · rw [List.cons_append, List.cons_append, loop_skipped escaped, closes_skipped escaped]
          exact quotedStringLoop_iff (d :: body) rest
      · rw [List.cons_append, loop_cons quote backslash, closes_cons quote backslash]
        exact quotedStringLoop_iff (d :: body) rest

end Loop

theorem accepts_mQuote : Accepts LexerState.mQuote (single (Lexical.isCh '\'')) :=
  accepts_matchC rfl

theorem single_isCh_iff {c : Char} {span rest : List UInt8} :
    single (Lexical.isCh c) span rest ↔ span = [c.toUInt8] := by
  constructor
  · rintro ⟨d, rfl, same⟩
    rw [beq_iff_eq.mp same]
  · rintro rfl
    exact ⟨_, rfl, beq_self_eq_true _⟩

theorem accepts_quotedStringLoop :
    Accepts (fun s => LexerState.mk s.lookAhead
        (LexerState.quotedStringLoop s.lookAhead s.rest) s.error)
      fun span rest => LexerState.quotedStringLoop .ucase (span ++ rest) = rest := by
  refine ⟨fun input rest => ?_, fun _ _ => rfl⟩
  change some (LexerState.quotedStringLoop .ucase input) = some rest ↔ _
  rw [Option.some_inj]
  constructor
  · rintro rfl
    obtain ⟨span, whole⟩ := LexerState.suffix_quotedStringLoop .ucase input
    exact ⟨span, whole.symm, by rw [whole]⟩
  · rintro ⟨span, rfl, own⟩
    exact own

theorem accepts_mQuotedString : Accepts LexerState.mQuotedString Lexical.quotedString := by
  refine (accepts_mQuote.andThen (accepts_quotedStringLoop.behind (fun _ => rfl)
    accepts_mQuote)).congr fun span rest => ?_
  constructor
  · rintro ⟨body, rfl, escaped, last⟩
    refine ⟨['\''.toUInt8], _, rfl, single_isCh_iff.mpr rfl, body, _, rfl, ?_,
      single_isCh_iff.mpr rfl⟩
    exact (quotedStringLoop_iff body rest).mpr ⟨escaped, last⟩
  · rintro ⟨_, _, rfl, opening, body, _, rfl, stops, closing⟩
    obtain rfl := single_isCh_iff.mp opening
    obtain rfl := single_isCh_iff.mp closing
    obtain ⟨escaped, last⟩ := (quotedStringLoop_iff body rest).mp stops
    exact ⟨body, rfl, escaped, last⟩

/-! ## Blanks and comments -/

theorem accepts_mWs : Accepts LexerState.mWs (single isBlankCh) :=
  accepts_caseless (caseless_contains (by decide))

theorem caseless_isLineCh : Caseless isLineCh := by
  have ends : Caseless (['\n', '\r'].map Char.toUInt8).contains := caseless_contains (by decide)
  exact fun c => congrArg not (ends c)

theorem accepts_matchLine : Accepts LexerState.matchLine Lexical.line := by
  have carriage : Accepts (fun s => s.matchOptional '\r'.toUInt8)
      (optional (Lexical.isCh '\r') (single (Lexical.isCh '\r'))) :=
    .ite (la_eq_iff rfl) (accepts_matchC rfl) accepts_skip
  have ending := carriage.andThen (accepts_matchC (c := '\n') rfl)
  exact (accepts_longest caseless_isLineCh).behind (fun _ => rfl) ending

theorem accepts_mSlComment : Accepts LexerState.mSlComment Lexical.slComment :=
  (accepts_matchS _).andThen accepts_matchLine

theorem accepts_mMysqlComment : Accepts LexerState.mMysqlComment Lexical.mysqlComment :=
  (accepts_matchC rfl).andThen accepts_matchLine

theorem reading_iff {string span rest : List UInt8} (noLetter : string.any isLetter = false) :
    reading toupper string span rest ↔ span = string := by
  rw [reading]
  induction string generalizing span with
  | nil => exact List.map_eq_nil_iff
  | cons c string ih =>
    rw [List.any_cons, Bool.or_eq_false_iff] at noLetter
    rw [List.map_eq_cons_iff]
    constructor
    · rintro ⟨d, span, rfl, head, tail⟩
      rw [(toupper_eq_iff noLetter.1).mp head, (ih noLetter.2).mp tail]
    · rintro rfl
      exact ⟨c, string, rfl, (toupper_eq_iff noLetter.1).mpr rfl, (ih noLetter.2).mpr rfl⟩

/-- The loops up to two characters go on in front of anything longer that does not start with
them. -/
theorem goesOn_of_not_prefix {first second : UInt8} (noLetter : isLetter first = false)
    (noLetter' : isLetter second = false) {input : List UInt8} (longer : 2 < input.length)
    (early : ¬ [first, second] <+: input) :
    (if LookAhead.ucase.la input 1 = some first then
      (LookAhead.ucase.la input 2).any (· != second)
    else (LookAhead.ucase.la input 1).isSome) = true := by
  match input, longer with
  | c :: d :: e :: input, _ =>
    change (if some (toupper c) = some first then toupper d != second else true) = true
    split
    · next same =>
      obtain rfl := (toupper_eq_iff noLetter).mp (Option.some.inj same)
      rw [bne_iff_ne]
      intro same
      obtain rfl := (toupper_eq_iff noLetter').mp same
      exact early ⟨e :: input, rfl⟩
    · rfl

theorem accepts_mMlComment : Accepts LexerState.mMlComment Lexical.mlComment := by
  have body := (accepts_loop LexerState.mlContinues).behind (fun _ => rfl)
    (accepts_matchS (bytesOf "*/"))
  have goesOn (input : List UInt8) (longer : (bytesOf "*/").length < input.length)
      (early : ¬ bytesOf "*/" <+: input) : LexerState.mlContinues .ucase input = true :=
    goesOn_of_not_prefix rfl rfl longer early
  refine (accepts_matchS (bytesOf "/*")).andThen (body.congr fun span rest => ?_)
  exact (concat_loop_iff (fun span rest => reading_iff (by decide)) (fun rest => rfl) goesOn).symm

/-! ## Q-quoted strings -/

theorem accepts_mQSBracketed {opening closing : Char} (noLetter : isLetter opening.toUInt8 = false)
    (noLetter' : isLetter closing.toUInt8 = false) :
    Accepts (LexerState.mQSBracketed opening.toUInt8 closing.toUInt8)
      ((single (Lexical.isCh '\'')).concat
        ((single (Lexical.isCh opening)).concat (upTo [closing.toUInt8, '\''.toUInt8]))) := by
  have closer := (accepts_matchC noLetter').andThen accepts_mQuote
  have body := (accepts_loop fun lookAhead => LexerState.bracketContinues lookAhead
    closing.toUInt8).behind (fun _ => rfl) closer
  have goesOn (input : List UInt8) (longer : [closing.toUInt8, '\''.toUInt8].length < input.length)
      (early : ¬ [closing.toUInt8, '\''.toUInt8] <+: input) :
      LexerState.bracketContinues .ucase closing.toUInt8 input = true :=
    goesOn_of_not_prefix noLetter' rfl longer early
  refine accepts_mQuote.andThen ((accepts_matchC noLetter).andThen (body.congr fun span rest => ?_))
  refine (concat_loop_iff (fun span rest => ?_) (fun rest => ?_) goesOn).symm
  · constructor
    · rintro ⟨_, _, rfl, first, second⟩
      rw [single_isCh_iff.mp first, single_isCh_iff.mp second]
      rfl
    · rintro rfl
      exact ⟨_, _, rfl, single_isCh_iff.mpr rfl, single_isCh_iff.mpr rfl⟩
  · have same : toupper closing.toUInt8 = closing.toUInt8 := (toupper_eq_iff noLetter').mpr rfl
    change (if some (toupper closing.toUInt8) = some closing.toUInt8 then _ else _) = false
    rw [same, if_pos rfl]
    rfl

section Delimited

open LexerState

/-- The closing delimiter and the quote. -/
def closeDelimited (c : UInt8) : Recognizer UInt8 := fun input =>
  if qsOtherCloses .raw c input then some (input.drop 2) else none

theorem recognizes_closeDelimited (c : UInt8) :
    Recognizes (closeDelimited c) fun span _ => span = [c, '\''.toUInt8] := by
  intro input rest
  rw [closeDelimited]
  constructor
  · intro took
    split at took
    · next closes =>
      obtain ⟨after, rfl⟩ := qsOtherCloses_iff.mp closes
      obtain rfl := Option.some.inj took
      exact ⟨[c, '\''.toUInt8], rfl, rfl⟩
    · cases took
  · rintro ⟨_, rfl, rfl⟩
    exact if_pos (qsOtherCloses_iff.mpr ⟨rest, rfl⟩)

/-- The loop and the closing delimiter take everything up to it. -/
theorem recognizes_delimited (c : UInt8) :
    Recognizes (fun input => (some (SuffixScan.dropWhileRest (qsOtherContinues .raw c) input)).bind
      (closeDelimited c)) (upTo [c, '\''.toUInt8]) := by
  refine ((recognizes_loop _).bind (recognizes_closeDelimited c)).congr fun span rest => ?_
  refine (concat_loop_iff (fun _ _ => Iff.rfl) (fun rest => ?_) fun input longer early => ?_).symm
  · exact qsOtherContinues_of_closes (qsOtherCloses_iff.mpr ⟨rest, rfl⟩)
  · by_contra stops
    have closes : qsOtherCloses .raw c input = false := by
      by_contra closes
      obtain ⟨after, rfl⟩ := qsOtherCloses_iff.mp (Bool.not_eq_false _ ▸ closes)
      exact early ⟨after, rfl⟩
    have short := congrArg List.length (tail_eq_nil_of_stop (Bool.eq_false_iff.mpr stops) closes)
    simp only [List.length_tail, List.length_nil, List.length_cons] at short longer
    omega

theorem mQSOther_cons {c : UInt8} (own : isQSOtherCh c = true) (body : List UInt8) :
    accepts mQSOther ('\''.toUInt8 :: c :: body) =
      (some (SuffixScan.dropWhileRest (qsOtherContinues .raw c) body)).bind (closeDelimited c) := by
  rw [accepts, mQSOther_eq rfl own rfl, Option.bind_some, closeDelimited]
  dsimp only
  split <;> rfl

def runString : QStringRule → LexerState → LexerState
  | .angle => mQSAngle
  | .brace => mQSBrace
  | .brack => mQSBrack
  | .paren => mQSParen
  | .other => mQSOther

/-- What the rule does behind the letter. -/
def behindLetter (s : LexerState) : LexerState :=
  match s.predictQString with
  | some rule => runString rule s
  | none => s.constructEx

theorem mQString_eq (s : LexerState) : s.mQString =
    if s.la 1 = some 'Q'.toUInt8 ∨ s.la 1 = some 'q'.toUInt8 then behindLetter s.consume
    else s.constructEx.lrecover := by
  rw [mQString, behindLetter]
  split
  · dsimp only
    cases s.consume.predictQString with
    | none => rfl
    | some rule => cases rule <;> rfl
  · rfl

/-- The strings between brackets, behind the letter. -/
def bracketedString (opening closing : Char) : SpanLanguage UInt8 :=
  (single (Lexical.isCh '\'')).concat
    ((single (Lexical.isCh opening)).concat (upTo [closing.toUInt8, '\''.toUInt8]))

def delimitedString : SpanLanguage UInt8 := fun span _ =>
  ∃ c body, span = '\''.toUInt8 :: c :: body ∧ isQSOtherCh c = true ∧
    upTo [c, '\''.toUInt8] body []

def stringOf : QStringRule → SpanLanguage UInt8
  | .angle => bracketedString '<' '>'
  | .brace => bracketedString '\x7b' '\x7d'
  | .brack => bracketedString '[' ']'
  | .paren => bracketedString '(' ')'
  | .other => delimitedString

theorem starts_bracketed {opening closing : Char} {span rest : List UInt8}
    (own : bracketedString opening closing span rest) :
    ∃ body, span = '\''.toUInt8 :: opening.toUInt8 :: body := by
  obtain ⟨_, _, rfl, quote, _, body, rfl, bracket, -⟩ := own
  rw [single_isCh_iff.mp quote, single_isCh_iff.mp bracket]
  exact ⟨body, rfl⟩

/-- The decision is for the rule of the string that stands in front. -/
theorem predictQString_of_stringOf {rule : QStringRule} {span rest : List UInt8}
    (own : stringOf rule span rest) :
    predictQString ⟨.ucase, span ++ rest, false⟩ = some rule := by
  cases rule with
  | angle | brace | brack | paren =>
    obtain ⟨body, rfl⟩ := starts_bracketed own
    rfl
  | other =>
    obtain ⟨c, body, rfl, other, -⟩ := own
    have ch : isQSOtherCh (toupper c) = true := (isQSOtherCh_read .ucase c).trans other
    have ne (d : Char) (bad : isQSOtherCh d.toUInt8 = false) : ¬ toupper c = d.toUInt8 := by
      intro same
      rw [same, bad] at ch
      cases ch
    have quote : LookAhead.ucase.la ('\''.toUInt8 :: c :: body ++ rest) 1 = some '\''.toUInt8 := rfl
    have next : LookAhead.ucase.la ('\''.toUInt8 :: c :: body ++ rest) 2 = some (toupper c) := rfl
    rw [predictQString, la, la, quote, next, if_pos rfl, Option.bind_some,
      if_neg (ne '[' (by decide)), if_neg (ne '<' (by decide)), if_neg (ne '\x7b' (by decide)),
      if_pos ch]

theorem accepts_stringOf {rule : QStringRule} {input rest : List UInt8}
    (predicted : predictQString ⟨.ucase, input, false⟩ = some rule) :
    accepts behindLetter input = some rest ↔
      ∃ span, input = span ++ rest ∧ stringOf rule span rest := by
  have step : accepts behindLetter input = accepts (runString rule) input := by
    simp only [accepts, behindLetter, predicted]
  rw [step]
  cases rule with
  | angle => exact (accepts_mQSBracketed rfl rfl).recognizes input rest
  | brace => exact (accepts_mQSBracketed rfl rfl).recognizes input rest
  | brack => exact (accepts_mQSBracketed rfl rfl).recognizes input rest
  | paren => exact (accepts_mQSBracketed rfl rfl).recognizes input rest
  | other =>
    obtain ⟨c, body, whole, own⟩ := predictQString_eq_other predicted
    obtain rfl : input = '\''.toUInt8 :: c :: body := whole
    rw [runString, mQSOther_cons own, recognizes_delimited c body rest]
    constructor
    · rintro ⟨span, rfl, string⟩
      exact ⟨'\''.toUInt8 :: c :: span, rfl, c, span, rfl, own, string⟩
    · rintro ⟨_, whole, d, span, rfl, -, string⟩
      obtain ⟨same, behind⟩ := List.cons.inj (List.cons.inj whole).2
      exact ⟨span, behind, same ▸ string⟩

theorem folds_behindLetter (input : List UInt8)
    (clear : (behindLetter ⟨.ucase, input, false⟩).error = false) :
    (behindLetter ⟨.ucase, input, false⟩).lookAhead = .ucase := by
  rw [behindLetter] at clear ⊢
  cases predicted : predictQString ⟨.ucase, input, false⟩ with
  | none => rfl
  | some rule =>
    rw [predicted] at clear
    cases rule with
    | angle => exact mQSBracketed_lookAhead _ _ _
    | brace => exact mQSBracketed_lookAhead _ _ _
    | brack => exact mQSBracketed_lookAhead _ _ _
    | paren => exact mQSBracketed_lookAhead _ _ _
    | other =>
      by_cases complete : CompleteQString input
      · exact (mQSOther_complete predicted rfl complete).2.1
      · have failed := (mQSOther_incomplete predicted rfl complete).1
        exact absurd (clear.symm.trans failed) Bool.false_ne_true

theorem accepts_behindLetter :
    Accepts behindLetter fun span rest => ∃ rule, stringOf rule span rest := by
  refine ⟨fun input rest => ?_, folds_behindLetter⟩
  constructor
  · intro took
    cases predicted : predictQString ⟨.ucase, input, false⟩ with
    | none =>
      rw [accepts, behindLetter, predicted] at took
      cases took
    | some rule =>
      obtain ⟨span, whole, own⟩ := (accepts_stringOf predicted).mp took
      exact ⟨span, whole, rule, own⟩
  · rintro ⟨span, rfl, rule, own⟩
    exact (accepts_stringOf (predictQString_of_stringOf own)).mpr ⟨span, rfl, own⟩

theorem toupper_ne {c d : UInt8} (lower : 'a'.toUInt8 ≤ d ∧ d ≤ 'z'.toUInt8) : toupper c ≠ d := by
  have bounds : 'a'.toUInt8 = 97 ∧ 'z'.toUInt8 = 122 := by decide
  rw [toupper]
  grind

theorem eq_quote_of_map {span : List UInt8} (reads : span.map toupper = ['\''.toUInt8]) :
    span = ['\''.toUInt8] := by
  obtain ⟨c, rfl, same⟩ := List.map_eq_singleton_iff.mp reads
  rw [(toupper_eq_iff rfl).mp same]

theorem bracketed_iff {opening closing : Char} {span rest : List UInt8} :
    Lexical.bracketed opening closing span rest ↔ ∃ q behind, span = q :: behind ∧
      toupper q = 'Q'.toUInt8 ∧ bracketedString opening closing behind rest := by
  constructor
  · rintro ⟨front, back, rfl, reads, string⟩
    obtain ⟨q, tail, rfl, letter, quote⟩ := List.map_eq_cons_iff.mp reads
    obtain rfl := eq_quote_of_map quote
    exact ⟨q, '\''.toUInt8 :: back, rfl, letter, ['\''.toUInt8], back, rfl,
      single_isCh_iff.mpr rfl, string⟩
  · rintro ⟨q, _, rfl, letter, quote, back, rfl, isQuote, string⟩
    obtain rfl := single_isCh_iff.mp isQuote
    refine ⟨[q, '\''.toUInt8], back, rfl, ?_, string⟩
    change [toupper q, toupper '\''.toUInt8] = _
    rw [letter]
    rfl

theorem delimited_iff {span rest : List UInt8} :
    Lexical.delimited span rest ↔ ∃ q behind, span = q :: behind ∧
      toupper q = 'Q'.toUInt8 ∧ delimitedString behind rest := by
  constructor
  · rintro ⟨front, c, body, rfl, reads, own, string⟩
    obtain ⟨q, tail, rfl, letter, quote⟩ := List.map_eq_cons_iff.mp reads
    obtain rfl := eq_quote_of_map quote
    exact ⟨q, _, rfl, letter, c, body, rfl, own, string⟩
  · rintro ⟨q, _, rfl, letter, c, body, rfl, own, string⟩
    refine ⟨[q, '\''.toUInt8], c, body, rfl, ?_, own, string⟩
    change [toupper q, toupper '\''.toUInt8] = _
    rw [letter]
    rfl

theorem qstring_iff {span rest : List UInt8} :
    Lexical.qstring span rest ↔ ∃ q behind, span = q :: behind ∧
      toupper q = 'Q'.toUInt8 ∧ ∃ rule, stringOf rule behind rest := by
  rw [Lexical.qstring, bracketed_iff, bracketed_iff, bracketed_iff, bracketed_iff, delimited_iff]
  constructor
  · rintro (⟨q, behind, whole, letter, own⟩ | ⟨q, behind, whole, letter, own⟩ |
      ⟨q, behind, whole, letter, own⟩ | ⟨q, behind, whole, letter, own⟩ |
      ⟨q, behind, whole, letter, own⟩)
    · exact ⟨q, behind, whole, letter, .angle, own⟩
    · exact ⟨q, behind, whole, letter, .brace, own⟩
    · exact ⟨q, behind, whole, letter, .brack, own⟩
    · exact ⟨q, behind, whole, letter, .paren, own⟩
    · exact ⟨q, behind, whole, letter, .other, own⟩
  · rintro ⟨q, behind, whole, letter, rule, own⟩
    cases rule with
    | angle => exact .inl ⟨q, behind, whole, letter, own⟩
    | brace => exact .inr (.inl ⟨q, behind, whole, letter, own⟩)
    | brack => exact .inr (.inr (.inl ⟨q, behind, whole, letter, own⟩))
    | paren => exact .inr (.inr (.inr (.inl ⟨q, behind, whole, letter, own⟩)))
    | other => exact .inr (.inr (.inr (.inr ⟨q, behind, whole, letter, own⟩)))

theorem accepts_mQString : Accepts mQString Lexical.qstring := by
  have letter : (fun c => toupper c == 'Q'.toUInt8 || toupper c == 'q'.toUInt8) =
      fun c => toupper c == 'Q'.toUInt8 := by
    funext c
    rw [beq_false_of_ne (toupper_ne (d := 'q'.toUInt8) (by decide)), Bool.or_false]
  have run := (accepts_matchSet fun c => c == 'Q'.toUInt8 || c == 'q'.toUInt8).andThen
    accepts_behindLetter
  rw [letter] at run
  refine (run.of_eq fun input => ?_).congr fun span rest => ?_
  · rw [mQString_eq, matchSet]
    cases input with
    | nil => rfl
    | cons c input =>
      have here : la ⟨.ucase, c :: input, false⟩ 1 = some (toupper c) := rfl
      rw [here]
      by_cases own : some (toupper c) = some 'Q'.toUInt8 ∨ some (toupper c) = some 'q'.toUInt8
      · rw [if_pos own, if_pos (by simpa using own)]
        rfl
      · rw [if_neg own, if_neg (by simpa using own)]
        rfl
  · rw [qstring_iff]
    constructor
    · rintro ⟨q, behind, rfl, upper, own⟩
      exact ⟨[q], behind, rfl, ⟨q, rfl, beq_iff_eq.mpr upper⟩, own⟩
    · rintro ⟨_, behind, rfl, ⟨q, rfl, upper⟩, own⟩
      exact ⟨q, behind, rfl, beq_iff_eq.mp upper, own⟩

end Delimited

/-! ## The rules of the token decision -/

/-- What the rule of an alternative matches. -/
def languageOf : LexRule → SpanLanguage UInt8
  | .literal spelling _ => reading toupper (bytesOf spelling)
  | .id => identifier
  | .number => Lexical.number
  | .quotedString => Lexical.quotedString
  | .qstring => Lexical.qstring
  | .ws => single isBlankCh
  | .slComment => Lexical.slComment
  | .mysqlComment => Lexical.mysqlComment
  | .mlComment => Lexical.mlComment

theorem accepts_run (rule : LexRule) : Accepts rule.run (languageOf rule) := by
  cases rule with
  | literal spelling type => exact accepts_matchS _
  | id => exact accepts_mId
  | number => exact accepts_mNumber
  | quotedString => exact accepts_mQuotedString
  | qstring => exact accepts_mQString
  | ws => exact accepts_mWs
  | slComment => exact accepts_mSlComment
  | mysqlComment => exact accepts_mMysqlComment
  | mlComment => exact accepts_mMlComment

end Pgify.TokenLanguages
