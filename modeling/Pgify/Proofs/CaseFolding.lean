import Mathlib.Logic.Relation
import Pgify.Model.QStringLexer

/-! # Case folding across q-quoted strings

The rule that switches case folding off puts it back on its success path only. Its loop stops at the
closing delimiter or so close to the end of the input that the recovery from the exception consumes
what is left, so every token that is started on a character is started with case folding on.
-/

namespace Pgify.Model

open SuffixScan

/-! ## Folding keeps what is no letter -/

def isLetter (c : UInt8) : Bool :=
  ('A'.toUInt8 ≤ c && c ≤ 'Z'.toUInt8) || ('a'.toUInt8 ≤ c && c ≤ 'z'.toUInt8)

theorem toupper_eq_iff {c d : UInt8} (other : isLetter d = false) : toupper c = d ↔ c = d := by
  have upper : 'A'.toUInt8 = 65 ∧ 'Z'.toUInt8 = 90 := by decide
  have lower : 'a'.toUInt8 = 97 ∧ 'z'.toUInt8 = 122 := by decide
  simp only [isLetter, Bool.or_eq_false_iff, Bool.and_eq_false_iff, decide_eq_false_iff_not]
    at other
  rw [toupper]
  split
  · grind
  · rfl

namespace LookAhead

variable (lookAhead : LookAhead)

theorem read_eq_iff {c d : UInt8} (other : isLetter d = false) :
    lookAhead.read c = d ↔ c = d := by
  cases lookAhead with
  | raw => rfl
  | ucase => exact toupper_eq_iff other

theorem read_mem_iff {c : UInt8} {l : List UInt8} (others : (l.any isLetter) = false) :
    lookAhead.read c ∈ l ↔ c ∈ l := by
  rw [List.any_eq_false] at others
  constructor
  · intro member
    have same := (lookAhead.read_eq_iff (Bool.eq_false_iff.mpr (others _ member))).mp rfl
    rw [same]
    exact member
  · intro member
    rw [(lookAhead.read_eq_iff (Bool.eq_false_iff.mpr (others _ member))).mpr rfl]
    exact member

end LookAhead

namespace LexerState

theorem isQSOtherCh_read (lookAhead : LookAhead) (c : UInt8) :
    isQSOtherCh (lookAhead.read c) = isQSOtherCh c := by
  rw [isQSOtherCh, isQSOtherCh, Bool.eq_iff_iff, Bool.not_eq_true', Bool.not_eq_true',
    ← Bool.not_eq_true, ← Bool.not_eq_true, List.contains_iff_mem, List.contains_iff_mem,
    lookAhead.read_mem_iff (by decide)]

/-- Only in front of a quote and a delimiter of its own is the rule taken. -/
theorem predictQString_eq_other {s : LexerState} (predicted : s.predictQString = some .other) :
    ∃ c body, s.rest = '\''.toUInt8 :: c :: body ∧ isQSOtherCh c = true := by
  obtain ⟨lookAhead, rest, error⟩ := s
  rw [predictQString] at predicted
  split at predicted
  · next quote =>
    obtain ⟨c, second, choice⟩ := Option.bind_eq_some_iff.mp predicted
    cases rest with
    | nil => cases quote
    | cons first rest =>
      cases rest with
      | nil => cases second
      | cons own body =>
        have isQuote : first = '\''.toUInt8 :=
          (lookAhead.read_eq_iff rfl).mp (Option.some.inj quote)
        obtain rfl : lookAhead.read own = c := Option.some.inj second
        refine ⟨own, body, by rw [isQuote], ?_⟩
        by_contra noCh
        simp only [isQSOtherCh_read, noCh, if_false] at choice
        split_ifs at choice <;> cases choice
  · cases predicted

/-! ## The loop -/

theorem qsOtherCloses_iff {c : UInt8} {rest : List UInt8} :
    qsOtherCloses .raw c rest = true ↔ ∃ after, rest = c :: '\''.toUInt8 :: after := by
  cases rest with
  | nil => simp [qsOtherCloses, LookAhead.la]
  | cons first rest =>
    cases rest with
    | nil => simp [qsOtherCloses, LookAhead.la]
    | cons second rest => simp [qsOtherCloses, LookAhead.la, LookAhead.read]

theorem qsOtherInside_eq_not (lookAhead : LookAhead) (c : UInt8) (rest : List UInt8) :
    qsOtherInside lookAhead c rest = !qsOtherCloses lookAhead c rest := by
  rw [qsOtherInside, qsOtherCloses, Bool.not_and]
  rfl

theorem qsOtherContinues_of_closes {c : UInt8} {rest : List UInt8}
    (closes : qsOtherCloses .raw c rest = true) : qsOtherContinues .raw c rest = false := by
  simp [qsOtherContinues, qsOtherInside_eq_not, closes]

/-- Where the loop stops without the closing delimiter, at most two characters are left. -/
theorem tail_eq_nil_of_stop {c : UInt8} {rest : List UInt8}
    (stops : qsOtherContinues .raw c rest = false) (unclosed : qsOtherCloses .raw c rest = false) :
    rest.tail.tail = [] := by
  cases rest with
  | nil => rfl
  | cons first rest =>
    cases rest with
    | nil => rfl
    | cons second rest =>
      cases rest with
      | nil => rfl
      | cons third rest =>
        rw [qsOtherContinues, qsOtherInside_eq_not, unclosed] at stops
        simp [LookAhead.la, LookAhead.read] at stops

/-- Behind the delimiter the rule is its loop: what the loop stops at decides. -/
theorem mQSOther_eq {s : LexerState} {c : UInt8} {body : List UInt8}
    (shape : s.rest = '\''.toUInt8 :: c :: body) (ch : isQSOtherCh c = true)
    (noError : s.error = false) :
    s.mQSOther =
      let stop := dropWhileRest (qsOtherContinues .raw c) body
      if qsOtherCloses .raw c stop then ⟨s.lookAhead, stop.drop 2, false⟩
      else ⟨.raw, stop.tail, true⟩ := by
  obtain ⟨lookAhead, rest, error⟩ := s
  obtain rfl : rest = _ := shape
  obtain rfl : error = false := noError
  have opened : (setUcaseLA ⟨lookAhead, '\''.toUInt8 :: c :: body, false⟩ false).mQuote =
      ⟨.raw, c :: body, false⟩ := rfl
  have delimited : mQSOtherCh ⟨.raw, c :: body, false⟩ = ⟨.raw, body, false⟩ := by
    exact if_pos ch
  simp only [mQSOther, opened, andThen, Bool.false_eq_true, if_false, List.headD_cons, delimited,
    matchWhile]
  cases closes : qsOtherCloses .raw c (dropWhileRest (qsOtherContinues .raw c) body) with
  | true =>
    obtain ⟨after, stop⟩ := qsOtherCloses_iff.mp closes
    rw [stop]
    rfl
  | false => rfl

/-- The loop stops at a closing delimiter exactly when there is one. -/
theorem loop_closes_iff {c : UInt8} {body : List UInt8} :
    qsOtherCloses .raw c (dropWhileRest (qsOtherContinues .raw c) body) = true ↔
      ∃ inner after, body = inner ++ c :: '\''.toUInt8 :: after := by
  constructor
  · intro closes
    obtain ⟨after, stop⟩ := qsOtherCloses_iff.mp closes
    obtain ⟨inner, whole⟩ := dropWhileRest_suffix (p := qsOtherContinues .raw c) body
    exact ⟨inner, after, by rw [← stop, whole]⟩
  · rintro ⟨inner, after, rfl⟩
    have closing : qsOtherCloses .raw c (c :: '\''.toUInt8 :: after) = true :=
      qsOtherCloses_iff.mpr ⟨after, rfl⟩
    have kept := suffix_dropWhileRest inner (qsOtherContinues_of_closes closing)
    have bound := kept.length_le
    by_contra fails
    rw [Bool.not_eq_true] at fails
    rcases dropWhileRest_stops (p := qsOtherContinues .raw c)
      (inner ++ c :: '\''.toUInt8 :: after) with stop | stop
    · rw [stop] at bound
      simp at bound
    · -- At most two characters are left, so they are the closing delimiter and its quote.
      have short := congrArg List.length (tail_eq_nil_of_stop stop fails)
      have whole := kept.eq_of_length_le (by
        simp only [List.length_cons, List.length_tail, List.length_nil] at short bound ⊢
        omega)
      rw [← whole, closing] at fails
      cases fails

/-! ## The exits -/

/-- A literal `'c...c'` in front, without the letter before it. -/
def CompleteQString (rest : List UInt8) : Prop :=
  ∃ c inner after, rest = '\''.toUInt8 :: c :: (inner ++ c :: '\''.toUInt8 :: after)

/-- On a complete literal the rule matches one, and puts the look-ahead function back. -/
theorem mQSOther_complete {s : LexerState} (predicted : s.predictQString = some .other)
    (noError : s.error = false) (complete : CompleteQString s.rest) :
    s.mQSOther.error = false ∧ s.mQSOther.lookAhead = s.lookAhead ∧
      ∃ c inner, s.rest = '\''.toUInt8 :: c :: (inner ++ c :: '\''.toUInt8 :: s.mQSOther.rest) := by
  obtain ⟨c, body, shape, ch⟩ := predictQString_eq_other predicted
  have closes : qsOtherCloses .raw c (dropWhileRest (qsOtherContinues .raw c) body) = true := by
    obtain ⟨c', inner, after, whole⟩ := complete
    rw [shape] at whole
    obtain ⟨rfl, rfl⟩ : c = c' ∧ body = inner ++ c' :: '\''.toUInt8 :: after := by
      simpa using whole
    exact loop_closes_iff.mpr ⟨inner, after, rfl⟩
  obtain ⟨after, stop⟩ := qsOtherCloses_iff.mp closes
  obtain ⟨inner, whole⟩ := dropWhileRest_suffix (p := qsOtherContinues .raw c) body
  rw [mQSOther_eq shape ch noError]
  simp only [closes, if_true, true_and]
  refine ⟨c, inner, ?_⟩
  rw [shape, stop, ← whole, stop]
  rfl

/-- Without one the rule fails in raw mode, and the recovery consumes what is left. -/
theorem mQSOther_incomplete {s : LexerState} (predicted : s.predictQString = some .other)
    (noError : s.error = false) (incomplete : ¬ CompleteQString s.rest) :
    s.mQSOther.error = true ∧ s.mQSOther.lookAhead = .raw ∧ s.mQSOther.lrecover.rest = [] := by
  obtain ⟨c, body, shape, ch⟩ := predictQString_eq_other predicted
  have unclosed : qsOtherCloses .raw c (dropWhileRest (qsOtherContinues .raw c) body) = false := by
    by_contra closes
    rw [Bool.not_eq_false] at closes
    obtain ⟨inner, after, rfl⟩ := loop_closes_iff.mp closes
    apply incomplete
    exact ⟨c, inner, after, shape⟩
  rw [mQSOther_eq shape ch noError]
  simp only [unclosed, Bool.false_eq_true, if_false, true_and]
  rcases dropWhileRest_stops (p := qsOtherContinues .raw c) body with stop | stop
  · rw [stop]
    rfl
  · exact tail_eq_nil_of_stop stop unclosed

/-! ## The other rules -/

theorem matchC_lookAhead (s : LexerState) (c : UInt8) : (s.matchC c).lookAhead = s.lookAhead := by
  rw [matchC]
  split <;> rfl

theorem mQuote_lookAhead (s : LexerState) : s.mQuote.lookAhead = s.lookAhead :=
  matchC_lookAhead s _

theorem andThen_lookAhead {s : LexerState} {next : LexerState → LexerState}
    (keeps : ∀ s, (next s).lookAhead = s.lookAhead) :
    (s.andThen next).lookAhead = s.lookAhead := by
  rw [andThen]
  split
  · rfl
  · exact keeps s

theorem mQSBracketed_lookAhead (opening closing : UInt8) (s : LexerState) :
    (s.mQSBracketed opening closing).lookAhead = s.lookAhead := by
  rw [mQSBracketed, andThen_lookAhead, mQuote_lookAhead]
  intro s
  rw [andThen_lookAhead, matchC_lookAhead]
  intro s
  rw [andThen_lookAhead mQuote_lookAhead, matchC_lookAhead]
  rfl

/-! ## Tokens -/

/-- Case folding is on, unless the input is at its end. -/
def Folding (s : LexerState) : Prop :=
  s.rest ≠ [] → s.lookAhead = .ucase

/-- What every rule does to case folding: it is as before, or off with nothing left behind the
recovery. -/
theorem mQString_folding {s : LexerState} (noError : s.error = false) :
    s.mQString.lookAhead = s.lookAhead ∨
      s.mQString.error = true ∧ s.mQString.lrecover.rest = [] := by
  rw [mQString]
  split
  · have clear : s.consume.error = false := noError
    dsimp only
    cases predicted : s.consume.predictQString with
    | none => exact Or.inl rfl
    | some rule =>
      cases rule with
      | angle => exact Or.inl (mQSBracketed_lookAhead _ _ _)
      | brace => exact Or.inl (mQSBracketed_lookAhead _ _ _)
      | brack => exact Or.inl (mQSBracketed_lookAhead _ _ _)
      | paren => exact Or.inl (mQSBracketed_lookAhead _ _ _)
      | other =>
        by_cases complete : CompleteQString s.consume.rest
        · exact Or.inl (mQSOther_complete predicted clear complete).2.1
        · have failed := mQSOther_incomplete predicted clear complete
          exact Or.inr ⟨failed.1, failed.2.2⟩
  · exact Or.inl rfl

variable (others : OtherRules)

theorem mTokens_folding {s : LexerState} (noError : s.error = false) :
    (mTokens others s).lookAhead = s.lookAhead ∨
      (mTokens others s).error = true ∧ (mTokens others s).lrecover.rest = [] := by
  rw [mTokens]
  split
  · exact mQString_folding noError
  · exact Or.inl rfl

/-- A token that starts with case folding on leaves it on, or the input at its end. -/
theorem nextToken_folding {s : LexerState} (folded : s.lookAhead = .ucase) :
    (nextToken others s).Folding := by
  intro left
  rw [nextToken] at left ⊢
  rcases mTokens_folding others (s := { s with error := false }) rfl with kept | ⟨failed, ended⟩
  · split
    · exact kept.trans folded
    · exact kept.trans folded
  · simp only [failed, if_true] at left
    exact absurd ended left

/-- Every token that is started on a character is started with case folding on. -/
theorem folding_of_reached {lookAhead : LookAhead} {bytes : List UInt8} {s : LexerState}
    (reached : Relation.ReflTransGen (TokenStep others) (pgifyLexer lookAhead bytes) s) :
    s.Folding := by
  induction reached with
  | refl => exact fun _ => rfl
  | tail _ step ih =>
    obtain ⟨left, rfl⟩ := step
    exact nextToken_folding others (ih left)

/-- Whenever a token is started on a character, the stream folds to upper case. The rule that turns
folding off restores what it found on a complete literal; without one it fails, and the recovery
leaves no character for a further token. -/
theorem caseFolding_survives (others : OtherRules) :
    (∀ lookAhead bytes s, Relation.ReflTransGen (TokenStep others) (pgifyLexer lookAhead bytes) s →
      s.rest ≠ [] → s.lookAhead = .ucase) ∧
    ∀ s : LexerState, s.predictQString = some .other → s.error = false →
      (CompleteQString s.rest →
        s.mQSOther.error = false ∧ s.mQSOther.lookAhead = s.lookAhead ∧ ∃ c inner,
          s.rest = '\''.toUInt8 :: c :: (inner ++ c :: '\''.toUInt8 :: s.mQSOther.rest)) ∧
      (¬ CompleteQString s.rest →
        s.mQSOther.error = true ∧ s.mQSOther.lookAhead = .raw ∧ s.mQSOther.lrecover.rest = []) := by
  refine ⟨fun lookAhead bytes s reached => folding_of_reached others reached, ?_⟩
  intro s predicted noError
  constructor
  · exact mQSOther_complete predicted noError
  · exact mQSOther_incomplete predicted noError

/-- Behind `q'!a!'` the blank and the name are read folded. -/
theorem caseFolding_survives_literal :
    (nextToken (fun _ rest => (rest.tail, false))
      (pgifyLexer .raw ("q'!a!' x".toList.map Char.toUInt8))).lookAhead = .ucase :=
  (caseFolding_survives fun _ rest => (rest.tail, false)).1 .raw
    ("q'!a!' x".toList.map Char.toUInt8) _ (.single ⟨by decide, rfl⟩) (by decide)

end LexerState

end Pgify.Model
