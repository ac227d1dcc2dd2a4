import Pgify.Lib.Scanner
import Pgify.Model.LexerRules
import Pgify.Model.StartRule

/-! # The lexer

Every turn of the lexer consumes: a rule takes a character or raises an exception, and behind an
exception the lexer reports an error, consumes one more character and goes on. So the lexer is a
scanner, and its turns are the tokens of the vector and the stretches that were dropped.
-/

namespace Pgify.Model

namespace LexerState

/-- An operation that only takes characters from the front. -/
def Takes (operation : LexerState → LexerState) : Prop :=
  ∀ s, (operation s).rest <:+ s.rest

/-- An operation that takes a character, or raises an exception. -/
def Progresses (operation : LexerState → LexerState) : Prop :=
  ∀ s, (operation s).rest <:+ s.rest ∧
    ((operation s).error = false → (operation s).rest.length < s.rest.length)

theorem takes_consume : Takes consume := fun s => List.tail_suffix s.rest

theorem length_consume_lt {s : LexerState} {c : UInt8} (here : s.la 1 = some c) :
    s.consume.rest.length < s.rest.length := by
  obtain ⟨lookAhead, rest, error⟩ := s
  cases rest with
  | nil => cases here
  | cons d rest => simp [consume]

theorem Progresses.takes {operation : LexerState → LexerState} (progresses : Progresses operation) :
    Takes operation :=
  fun s => (progresses s).1

theorem Takes.comp {first second : LexerState → LexerState} (takesFirst : Takes first)
    (takesSecond : Takes second) : Takes fun s => second (first s) :=
  fun s => (takesSecond (first s)).trans (takesFirst s)

theorem suffix_andThen {s t : LexerState} {next : LexerState → LexerState}
    (front : t.rest <:+ s.rest) (takes : Takes next) : (t.andThen next).rest <:+ s.rest := by
  rw [LexerState.andThen]
  split
  · exact front
  · exact (takes t).trans front

theorem Takes.andThen {first second : LexerState → LexerState} (takesFirst : Takes first)
    (takesSecond : Takes second) : Takes fun s => (first s).andThen second :=
  fun s => suffix_andThen (takesFirst s) takesSecond

theorem takes_id : Takes fun s => s :=
  fun s => List.suffix_refl s.rest

theorem Takes.ite {condition : LexerState → Prop} [DecidablePred condition]
    {first second : LexerState → LexerState} (takesFirst : Takes first)
    (takesSecond : Takes second) : Takes fun s => if condition s then first s else second s := by
  intro s
  by_cases holds : condition s
  · simpa only [holds, if_true] using takesFirst s
  · simpa only [holds, if_false] using takesSecond s

theorem Progresses.ite {condition : LexerState → Prop} [DecidablePred condition]
    {first second : LexerState → LexerState} (progressesFirst : Progresses first)
    (progressesSecond : Progresses second) :
    Progresses fun s => if condition s then first s else second s := by
  intro s
  by_cases holds : condition s
  · simpa only [holds, if_true] using progressesFirst s
  · simpa only [holds, if_false] using progressesSecond s

/-- Once something is taken, it does not matter what comes behind it. -/
theorem Progresses.andThen {first second : LexerState → LexerState}
    (progresses : Progresses first) (takes : Takes second) :
    Progresses fun s => (first s).andThen second := by
  intro s
  refine ⟨progresses.takes.andThen takes s, ?_⟩
  intro clear
  change ((first s).andThen second).error = false at clear
  change ((first s).andThen second).rest.length < s.rest.length
  rw [LexerState.andThen] at clear ⊢
  split at clear
  · next failed => rw [failed] at clear; cases clear
  · next fine =>
    rw [if_neg fine]
    exact (takes (first s)).length_le.trans_lt ((progresses s).2 (Bool.eq_false_iff.mpr fine))

theorem progresses_matchSet (set : UInt8 → Bool) : Progresses fun s => s.matchSet set := by
  intro s
  change (s.matchSet set).rest <:+ _ ∧
    ((s.matchSet set).error = false → (s.matchSet set).rest.length < _)
  rw [matchSet]
  split
  · next inSet =>
    obtain ⟨c, here, -⟩ := (Option.any_eq_true set (s.la 1)).mp inSet
    exact ⟨takes_consume s, fun _ => length_consume_lt here⟩
  · exact ⟨takes_consume s, nofun⟩

theorem progresses_matchC (c : UInt8) : Progresses fun s => s.matchC c := by
  intro s
  change (s.matchC c).rest <:+ _ ∧ ((s.matchC c).error = false → (s.matchC c).rest.length < _)
  rw [matchC]
  split
  · next here => exact ⟨takes_consume s, fun _ => length_consume_lt here⟩
  · exact ⟨takes_consume s, nofun⟩

theorem takes_matchS (string : List UInt8) : Takes fun s => s.matchS string := by
  induction string with
  | nil => exact fun s => List.suffix_refl s.rest
  | cons c string ih =>
    intro s
    change (s.matchS (c :: string)).rest <:+ s.rest
    rw [matchS]
    split
    · exact (ih s.consume).trans (takes_consume s)
    · exact takes_consume s

theorem progresses_matchS {string : List UInt8} (filled : string ≠ []) :
    Progresses fun s => s.matchS string := by
  cases string with
  | nil => exact absurd rfl filled
  | cons c string =>
    intro s
    refine ⟨takes_matchS (c :: string) s, ?_⟩
    change (s.matchS (c :: string)).error = false → (s.matchS (c :: string)).rest.length < _
    rw [matchS]
    split
    · next here =>
      intro _
      exact (takes_matchS string s.consume).length_le.trans_lt (length_consume_lt here)
    · exact nofun

theorem takes_matchWhile (continues : List UInt8 → Bool) : Takes fun s => s.matchWhile continues :=
  fun s => SuffixScan.dropWhileRest_suffix s.rest

theorem takes_matchSetLoop (set : UInt8 → Bool) : Takes fun s => s.matchSetLoop set :=
  fun s => takes_matchWhile _ s

theorem takes_matchOptional (c : UInt8) : Takes fun s => s.matchOptional c :=
  (progresses_matchC c).takes.ite takes_id

theorem suffix_quotedStringLoop (lookAhead : LookAhead) (rest : List UInt8) :
    quotedStringLoop lookAhead rest <:+ rest := by
  induction rest using quotedStringLoop.induct lookAhead with
  | case1 => exact List.suffix_refl _
  | case2 c rest closes =>
    rw [quotedStringLoop.eq_def]
    simp only [if_pos closes]
    exact List.suffix_refl _
  | case3 c ordinary backslash quote next behind taken ih =>
    rw [quotedStringLoop.eq_def]
    simp only [if_neg ordinary, if_pos backslash, if_pos taken]
    exact ih.trans ((List.suffix_cons quote _).trans (List.suffix_cons c _))
  | case4 c ordinary backslash quote next behind other ih =>
    rw [quotedStringLoop.eq_def]
    simp only [if_neg ordinary, if_pos backslash, if_neg other]
    exact ih.trans (List.suffix_cons c _)
  | case5 c ordinary backslash rest short ih =>
    rw [quotedStringLoop.eq_def]
    simp only [if_neg ordinary, if_pos backslash]
    exact ih.trans (List.suffix_cons c _)
  | case6 c rest ordinary other ih =>
    rw [quotedStringLoop.eq_def]
    simp only [if_neg ordinary, if_neg other]
    exact ih.trans (List.suffix_cons c _)

/-! ### The rules -/

theorem takes_mQuote : Takes mQuote :=
  (progresses_matchC _).takes

theorem progresses_mBackquotedString : Progresses mBackquotedString :=
  (progresses_matchC _).andThen ((takes_matchSetLoop _).comp (progresses_matchC _).takes)

theorem progresses_mDoublequotedString : Progresses mDoublequotedString :=
  (progresses_matchC _).andThen ((takes_matchSetLoop _).comp (progresses_matchC _).takes)

theorem progresses_constructEx : Progresses constructEx :=
  fun s => ⟨List.suffix_refl s.rest, nofun⟩

theorem progresses_mId : Progresses mId :=
  ((progresses_matchSet _).andThen (takes_matchSetLoop _)).ite
    (progresses_mDoublequotedString.ite
      (progresses_mBackquotedString.ite progresses_constructEx))

theorem progresses_mNum : Progresses mNum :=
  (progresses_matchSet _).andThen (takes_matchSetLoop _)

theorem progresses_mDecimal : Progresses mDecimal :=
  progresses_mNum.andThen ((progresses_matchC _).takes.andThen progresses_mNum.takes)

theorem takes_mExponent : Takes mExponent :=
  (progresses_matchC _).takes.andThen
    (((progresses_matchSet _).takes.ite takes_id).andThen progresses_mNum.takes)

theorem progresses_mNumber : Progresses mNumber :=
  (((progresses_matchC _).andThen progresses_mNum.takes).ite
    (progresses_mDecimal.ite progresses_mNum)).andThen (takes_mExponent.ite takes_id)

theorem progresses_mQuotedString : Progresses mQuotedString := by
  refine (progresses_matchC _).andThen fun s => ?_
  exact (takes_mQuote _).trans (suffix_quotedStringLoop s.lookAhead s.rest)

theorem takes_matchLine : Takes matchLine :=
  ((takes_matchSetLoop _).comp (takes_matchOptional _)).andThen (progresses_matchC _).takes

theorem progresses_mSlComment : Progresses mSlComment :=
  (progresses_matchS (by decide)).andThen takes_matchLine

theorem progresses_mMysqlComment : Progresses mMysqlComment :=
  (progresses_matchC _).andThen takes_matchLine

theorem progresses_mMlComment : Progresses mMlComment := by
  refine (progresses_matchS (by decide)).andThen fun s => ?_
  exact (takes_matchS _ _).trans (takes_matchWhile (mlContinues s.lookAhead) s)

theorem takes_mQSBracketed (opening closing : UInt8) :
    Takes fun s => s.mQSBracketed opening closing := by
  refine takes_mQuote.andThen
    ((progresses_matchC opening).takes.andThen (Takes.andThen ?_ takes_mQuote))
  intro s
  exact ((progresses_matchC closing).takes _).trans
    (takes_matchWhile (bracketContinues s.lookAhead closing) s)

theorem takes_mQSOtherCh : Takes mQSOtherCh :=
  (progresses_matchSet isQSOtherCh).takes

theorem takes_mQSOther : Takes mQSOther := by
  intro s
  refine suffix_andThen (takes_mQuote (s.setUcaseLA false)) fun t => ?_
  refine suffix_andThen (takes_mQSOtherCh t) fun u => ?_
  let stop := u.matchWhile (qsOtherContinues u.lookAhead (t.rest.headD 0))
  have loop : stop.rest <:+ u.rest := takes_matchWhile _ u
  have closed : (if qsOtherCloses stop.lookAhead (t.rest.headD 0) stop.rest then stop
      else stop.constructEx).rest <:+ u.rest := by
    split
    · exact loop
    · exact loop
  exact suffix_andThen ((takes_consume _).trans closed) fun v =>
    suffix_andThen (takes_mQuote v) takes_id

theorem progresses_mQString : Progresses mQString := by
  intro s
  rw [mQString]
  split
  · next letter =>
    have shorter : s.consume.rest.length < s.rest.length :=
      letter.elim length_consume_lt length_consume_lt
    have behind {operation : LexerState → LexerState} (takes : Takes operation) :
        (operation s.consume).rest <:+ s.rest ∧
          ((operation s.consume).error = false →
            (operation s.consume).rest.length < s.rest.length) :=
      ⟨(takes s.consume).trans (takes_consume s), fun _ =>
        (takes s.consume).length_le.trans_lt shorter⟩
    dsimp only
    split
    · exact behind (takes_mQSBracketed _ _)
    · exact behind (takes_mQSBracketed _ _)
    · exact behind (takes_mQSBracketed _ _)
    · exact behind (takes_mQSBracketed _ _)
    · exact behind takes_mQSOther
    · exact behind progresses_constructEx.takes
  · exact ⟨takes_consume s, nofun⟩

/-! ### The decision -/

theorem mem_wordLiterals {bytes : List UInt8} {rule : LexRule}
    (member : (bytes, rule) ∈ wordLiterals) :
    ∃ word type, rule = .literal word type ∧ bytes = bytesOf word ∧ (word, type) ∈ literals := by
  obtain ⟨⟨word, type⟩, listed, own⟩ := List.mem_map.mp member
  exact ⟨word, type, (Prod.mk.inj own).2.symm, (Prod.mk.inj own).1.symm, listed⟩

theorem predictSign_filled {c : Char} {next : Option Char} {spelling : String} {type : TokenType}
    (predicted : predictSign c next = some (.literal spelling type)) : bytesOf spelling ≠ [] := by
  unfold predictSign at predicted
  split at predicted
  all_goals first
    | (obtain ⟨rfl, rfl⟩ := LexRule.literal.inj (Option.some.inj predicted); decide)
    | (split at predicted <;>
        first
          | (obtain ⟨rfl, rfl⟩ := LexRule.literal.inj (Option.some.inj predicted); decide)
          | cases predicted)
    | cases predicted

theorem isWordCh_of_isLetterCh {c : UInt8} (letter : isLetterCh c = true) : isWordCh c = true := by
  rw [isWordCh, letter, Bool.true_or, Bool.true_or]

theorem decision_filled {c : UInt8} {behind : List UInt8} {spelling : String} {type : TokenType}
    (letter : isLetterCh c = true)
    (decided : (NestedSwitch.decision isWordCh (c :: behind) wordLiterals).getD .id =
      .literal spelling type) : bytesOf spelling ≠ [] := by
  cases own : NestedSwitch.decision isWordCh (c :: behind) wordLiterals with
  | none =>
    rw [own] at decided
    cases decided
  | some rule =>
    rw [own, Option.getD_some] at decided
    obtain ⟨rest, member, -⟩ := NestedSwitch.mem_of_decision own
    obtain ⟨word, type', same, bytes, -⟩ := mem_wordLiterals member
    obtain ⟨rfl, rfl⟩ := LexRule.literal.inj (decided.symm.trans same)
    rw [← bytes, List.takeWhile_cons, if_pos (isWordCh_of_isLetterCh letter)]
    exact List.cons_ne_nil _ _

theorem lexRule_filled {rule : QuoteRule} {spelling : String} {type : TokenType}
    (own : rule.lexRule = .literal spelling type) : bytesOf spelling ≠ [] := by
  cases rule with
  | quotedString => cases own
  | stupidMysqlDate | stupidMysqlTimestamp | quote =>
    obtain ⟨rfl, rfl⟩ := LexRule.literal.inj own
    decide

/-- A literal that is decided for has characters to match. -/
theorem predict_filled {s : LexerState} {spelling : String} {type : TokenType}
    (predicted : s.predict = some (.literal spelling type)) : bytesOf spelling ≠ [] := by
  rw [predict] at predicted
  split at predicted
  · cases predicted
  · next c behind _ =>
    split_ifs at predicted with letter _ _ quote _ _ ended
    · cases predicted
    · exact decision_filled letter (Option.some.inj predicted)
    · cases predicted
    · obtain ⟨rule, -, own⟩ := Option.map_eq_some_iff.mp predicted
      exact lexRule_filled own
    · cases predicted
    · obtain ⟨rfl, rfl⟩ := LexRule.literal.inj (Option.some.inj predicted)
      decide
    · cases predicted
    · cases predicted
    · cases predicted
    · exact predictSign_filled predicted

theorem progresses_run {rule : LexRule}
    (filled : ∀ spelling type, rule = .literal spelling type → bytesOf spelling ≠ []) :
    Progresses rule.run := by
  cases rule with
  | literal spelling type => exact progresses_matchS (filled spelling type rfl)
  | id => exact progresses_mId
  | number => exact progresses_mNumber
  | quotedString => exact progresses_mQuotedString
  | qstring => exact progresses_mQString
  | ws => exact progresses_matchSet isBlankCh
  | slComment => exact progresses_mSlComment
  | mysqlComment => exact progresses_mMysqlComment
  | mlComment => exact progresses_mMlComment

theorem predict_qstring {s : LexerState}
    (quoted : s.la 1 = some 'Q'.toUInt8 ∧ s.la 2 = some '\''.toUInt8 ∨ s.la 1 = some 'q'.toUInt8) :
    s.predict = some .qstring := by
  obtain ⟨lookAhead, rest, error⟩ := s
  cases rest with
  | nil => rcases quoted with ⟨first, -⟩ | first <;> cases first
  | cons c rest =>
    rcases quoted with ⟨first, second⟩ | first
    · cases rest with
      | nil => cases second
      | cons d rest =>
        have upper : lookAhead.read c = 'Q'.toUInt8 := Option.some.inj first
        have quote : lookAhead.read d = '\''.toUInt8 := Option.some.inj second
        simp only [predict, ahead, List.map_cons, upper, quote, List.head?_cons]
        rfl
    · have lower : lookAhead.read c = 'q'.toUInt8 := Option.some.inj first
      simp only [predict, ahead, List.map_cons, lower]
      rfl

/-- What the token rule leaves is what the rule of its decision leaves. -/
theorem mTokens_eq {s : LexerState} (clear : s.error = false) :
    ((mTokens lexerRules s).rest, (mTokens lexerRules s).error) =
      match s.predict with
      | some rule => ((rule.run s).rest, (rule.run s).error)
      | none => (s.rest, true) := by
  obtain ⟨lookAhead, rest, error⟩ := s
  obtain rfl : error = false := clear
  rw [mTokens]
  split
  · next quoted => rw [predict_qstring quoted]; rfl
  · rfl

/-- A turn is the rule of the decision, and the recovery behind an exception. -/
theorem nextToken_eq (s : LexerState) :
    ((nextToken lexerRules s).rest, (nextToken lexerRules s).error) =
      match s.predict with
      | some rule =>
        let t := rule.run { s with error := false }
        if t.error then (t.rest.tail, true) else (t.rest, false)
      | none => (s.rest.tail, true) := by
  have left := mTokens_eq (s := { s with error := false }) rfl
  have same : predict { s with error := false } = s.predict := rfl
  rw [same] at left
  rw [nextToken]
  cases decided : s.predict with
  | none =>
    rw [decided] at left
    obtain ⟨rest, error⟩ := Prod.mk.inj left
    simp only [error, if_true, lrecover, consume, rest]
  | some rule =>
    rw [decided] at left
    obtain ⟨rest, error⟩ := Prod.mk.inj left
    cases failed : (rule.run { s with error := false }).error with
    | true => simp only [error, failed, if_true, lrecover, consume, rest]
    | false => simp only [error, failed, Bool.false_eq_true, if_false, rest]

/-- Every turn consumes a character, on the recovery from an exception if not before. -/
theorem nextToken_shortens (s : LexerState) (left : s.rest ≠ []) :
    ∃ span, span ≠ [] ∧ s.rest = span ++ (nextToken lexerRules s).rest := by
  have turn := congrArg Prod.fst (nextToken_eq s)
  have positive := List.length_pos_iff.mpr left
  have shorter : (nextToken lexerRules s).rest <:+ s.rest ∧
      (nextToken lexerRules s).rest.length < s.rest.length := by
    cases decided : s.predict with
    | none =>
      rw [decided] at turn
      change (nextToken lexerRules s).rest = s.rest.tail at turn
      rw [turn]
      exact ⟨List.tail_suffix _, by rw [List.length_tail]; omega⟩
    | some rule =>
      have filled (spelling : String) (type : TokenType) (own : rule = .literal spelling type) :
          bytesOf spelling ≠ [] := predict_filled (own ▸ decided)
      obtain ⟨suffix, progress⟩ := progresses_run filled { s with error := false }
      rw [decided] at turn
      cases failed : (rule.run { s with error := false }).error with
      | true =>
        simp only [failed, if_true] at turn
        have tail := (List.tail_suffix (rule.run { s with error := false }).rest).trans suffix
        rw [turn]
        refine ⟨tail, ?_⟩
        have bound : (rule.run { s with error := false }).rest.length ≤ s.rest.length :=
          suffix.length_le
        rw [List.length_tail]
        omega
      | false =>
        simp only [failed, Bool.false_eq_true, if_false] at turn
        rw [turn]
        exact ⟨suffix, progress failed⟩
  obtain ⟨⟨span, whole⟩, shorter⟩ := shorter
  refine ⟨span, ?_, whole.symm⟩
  rintro rfl
  rw [List.nil_append] at whole
  rw [whole] at shorter
  exact Nat.lt_irrefl _ shorter

end LexerState

/-! ## The token vector -/

/-- The lexer as a scanner. -/
def lexer : Scanner UInt8 LexerState where
  rest := LexerState.rest
  next := LexerState.nextToken lexerRules
  shortens := LexerState.nextToken_shortens

/-- Where the stream stands: the line, and the characters in front on the line. -/
structure Place where
  line : ℕ
  charPositionInLine : ℕ
deriving DecidableEq, Repr

/-- The start of a stream. -/
def Place.start : Place := ⟨1, 0⟩

/-- `consume` counts lines and columns. -/
def Place.advance (place : Place) (c : UInt8) : Place :=
  if c = '\n'.toUInt8 then ⟨place.line + 1, 0⟩
  else ⟨place.line, place.charPositionInLine + 1⟩

/-- A token of a rule, where the lexer started it. -/
def LexRule.token (rt : Runtime) (options : ℕ) (rule : LexRule) (place : Place)
    (span : List UInt8) : Token :=
  ⟨rule.type, rule.text rt options span, rule.channel, place.line, place.charPositionInLine⟩

/-- One turn of the lexer: what was consumed, and the token unless there was an exception. -/
structure Stretch where
  span : List UInt8
  token : Option Token
deriving DecidableEq, Repr

def stretchAt (rt : Runtime) (options : ℕ) (place : Place) (s : LexerState) : Stretch :=
  let span := lexer.span s
  ⟨span, if (lexer.next s).error then none
    else s.predict.map fun rule => rule.token rt options place span⟩

/-- The turns of the lexer on an input, until it is used up. -/
def lexStretches (rt : Runtime) (options : ℕ) (bytes : List UInt8) : List Stretch :=
  (lexer.visits Place.advance bytes.length Place.start (pgifyLexer .raw bytes)).map
    fun (place, s) => stretchAt rt options place s

/-- `getTokens`, and the errors that the lexer reported. -/
def lex (rt : Runtime) (options : ℕ) (bytes : List UInt8) : Lexed where
  tokens := (lexStretches rt options bytes).filterMap Stretch.token
  errors := (lexStretches rt options bytes).countP fun stretch => stretch.token.isNone

end Pgify.Model
