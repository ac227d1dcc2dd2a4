import Mathlib.Data.List.Forall2
import Pgify.Model.Lexer
import Pgify.Proofs.CaseFolding
import Pgify.Proofs.TokenPlaces

/-! # The lexer and the case of letters

Looking ahead in upper case is looking ahead as it is in the upper-cased input, for every rule but
that of the q-quoted strings, whose delimiter is compared as it is written. So two inputs that differ
in the case of letters only are taken apart at the same places by the same rules, as long as no
q-quoted string is delimited by a letter.
-/

namespace Pgify.LetterCase

open Model LexerState SuffixScan

/-- The stream over the upper-cased input, read as it is. -/
def folded (s : LexerState) : LexerState :=
  ⟨.raw, s.rest.map toupper, s.error⟩

/-- On a stream that looks ahead in upper case, the operation does what it does on the upper-cased
input. -/
def Folds (operation : LexerState → LexerState) : Prop :=
  ∀ s, s.lookAhead = .ucase →
    (operation s).lookAhead = .ucase ∧ folded (operation s) = operation (folded s)

variable {s : LexerState}

theorem la_folded (ucase : s.lookAhead = .ucase) (i : ℕ) : (folded s).la i = s.la i := by
  rw [la, la, ucase, LookAhead.la, LookAhead.la, folded, List.getElem?_map, Option.map_map]
  rfl

/-! ## What the rules are made of -/

theorem folded_consume (s : LexerState) : folded s.consume = (folded s).consume := by
  rw [folded, consume, List.map_tail]
  rfl

theorem folded_constructEx (s : LexerState) : folded s.constructEx = (folded s).constructEx := rfl

theorem folds_consume : Folds consume :=
  fun s ucase => ⟨ucase, folded_consume s⟩

theorem folds_constructEx : Folds constructEx :=
  fun s ucase => ⟨ucase, folded_constructEx s⟩

theorem folds_lrecover : Folds fun s => s.constructEx.lrecover :=
  fun s ucase => ⟨ucase, folded_consume s.constructEx⟩

theorem folds_id : Folds fun s => s :=
  fun _ ucase => ⟨ucase, rfl⟩

theorem Folds.comp {first second : LexerState → LexerState} (foldsFirst : Folds first)
    (foldsSecond : Folds second) : Folds fun s => second (first s) := by
  intro s ucase
  obtain ⟨mode, same⟩ := foldsFirst s ucase
  obtain ⟨mode', same'⟩ := foldsSecond (first s) mode
  exact ⟨mode', by rw [same', same]⟩

theorem Folds.andThen {first second : LexerState → LexerState} (foldsFirst : Folds first)
    (foldsSecond : Folds second) : Folds fun s => (first s).andThen second := by
  intro s ucase
  obtain ⟨mode, same⟩ := foldsFirst s ucase
  obtain ⟨mode', same'⟩ := foldsSecond (first s) mode
  have error : (first (folded s)).error = (first s).error := by rw [← same]; rfl
  simp only [LexerState.andThen, error]
  split
  · exact ⟨mode, same⟩
  · exact ⟨mode', by rw [same', same]⟩

theorem Folds.ite {condition : LexerState → Prop} [DecidablePred condition]
    {first second : LexerState → LexerState}
    (same : ∀ s, s.lookAhead = .ucase → (condition (folded s) ↔ condition s))
    (foldsFirst : Folds first) (foldsSecond : Folds second) :
    Folds fun s => if condition s then first s else second s := by
  intro s ucase
  by_cases holds : condition s
  · simpa only [if_pos holds, if_pos ((same s ucase).mpr holds)] using foldsFirst s ucase
  · simpa only [if_neg holds, if_neg (mt (same s ucase).mp holds)] using foldsSecond s ucase

theorem folds_matchC (c : UInt8) : Folds fun s => s.matchC c :=
  Folds.ite (fun s ucase => by rw [la_folded ucase]) folds_consume folds_lrecover

theorem folds_matchSet (set : UInt8 → Bool) : Folds fun s => s.matchSet set :=
  Folds.ite (fun s ucase => by rw [la_folded ucase]) folds_consume folds_lrecover

theorem folds_matchOptional (c : UInt8) : Folds fun s => s.matchOptional c :=
  Folds.ite (fun s ucase => by rw [la_folded ucase]) (folds_matchC c) folds_id

theorem folds_matchS (string : List UInt8) : Folds fun s => s.matchS string := by
  induction string with
  | nil => exact folds_id
  | cons c string ih =>
    exact Folds.ite (fun s ucase => by rw [la_folded ucase]) (folds_consume.comp ih) folds_lrecover

/-- A loop whose test reads the look-ahead only. -/
theorem folds_matchWhile {continues : LookAhead → List UInt8 → Bool}
    (same : ∀ rest, continues .raw (rest.map toupper) = continues .ucase rest) :
    Folds fun s => s.matchWhile (continues s.lookAhead) := by
  intro s ucase
  refine ⟨ucase, ?_⟩
  have loop := map_dropWhileRest same s.rest
  change LexerState.mk .raw ((dropWhileRest (continues s.lookAhead) s.rest).map toupper) s.error = _
  rw [ucase, loop]
  rfl

theorem la_map (rest : List UInt8) (i : ℕ) :
    LookAhead.raw.la (rest.map toupper) i = LookAhead.ucase.la rest i := by
  rw [LookAhead.la, LookAhead.la, List.getElem?_map, Option.map_map]
  rfl

theorem folds_matchSetLoop (set : UInt8 → Bool) : Folds fun s => s.matchSetLoop set := by
  have same (rest : List UInt8) : (LookAhead.raw.la (rest.map toupper) 1).any set =
      (LookAhead.ucase.la rest 1).any set := by
    rw [la_map]
  exact @folds_matchWhile (fun lookAhead rest => (lookAhead.la rest 1).any set) same

/-! ## The rules -/

theorem folds_mDoublequotedString : Folds mDoublequotedString :=
  (folds_matchC _).andThen ((folds_matchSetLoop _).comp (folds_matchC _))

theorem folds_mBackquotedString : Folds mBackquotedString :=
  (folds_matchC _).andThen ((folds_matchSetLoop _).comp (folds_matchC _))

theorem folds_mId : Folds mId := by
  refine Folds.ite (fun s ucase => by rw [la_folded ucase])
    ((folds_matchSet _).andThen (folds_matchSetLoop _)) ?_
  refine Folds.ite (fun s ucase => by rw [la_folded ucase]) folds_mDoublequotedString ?_
  exact Folds.ite (fun s ucase => by rw [la_folded ucase]) folds_mBackquotedString
    folds_constructEx

theorem folds_mNum : Folds mNum :=
  (folds_matchSet _).andThen (folds_matchSetLoop _)

theorem folds_mDecimal : Folds mDecimal :=
  folds_mNum.andThen ((folds_matchC _).andThen folds_mNum)

theorem synpred1_folded (ucase : s.lookAhead = .ucase) : (folded s).synpred1 = s.synpred1 := by
  obtain ⟨-, same⟩ := folds_mDecimal { s with error := false } ucase
  rw [synpred1, synpred1]
  change (!(mDecimal (folded { s with error := false })).error) = _
  rw [← same]
  rfl

theorem folds_mExponent : Folds mExponent := by
  have sign : Folds fun s => if (s.la 1).any isSignCh then s.matchSet isSignCh else s :=
    Folds.ite (fun s ucase => by rw [la_folded ucase]) (folds_matchSet _) folds_id
  exact (folds_matchC _).andThen (sign.andThen folds_mNum)

theorem folds_mNumber : Folds mNumber := by
  have mantissa : Folds fun s => if s.la 1 = some '.'.toUInt8 then s.mPoint.andThen mNum
      else if s.synpred1 then s.mDecimal else s.mNum := by
    refine Folds.ite (fun s ucase => by rw [la_folded ucase]) ((folds_matchC _).andThen folds_mNum) ?_
    exact Folds.ite (fun s ucase => by rw [synpred1_folded ucase]) folds_mDecimal folds_mNum
  exact mantissa.andThen
    (Folds.ite (fun s ucase => by rw [la_folded ucase]) folds_mExponent folds_id)

theorem map_quotedStringLoop (rest : List UInt8) :
    (quotedStringLoop .ucase rest).map toupper = quotedStringLoop .raw (rest.map toupper) := by
  induction rest using quotedStringLoop.induct .ucase with
  | case1 => rfl
  | case2 c rest closes =>
    have closes' : LookAhead.raw.read (toupper c) = '\''.toUInt8 := closes
    rw [List.map_cons, quotedStringLoop.eq_def, quotedStringLoop.eq_def]
    simp only [if_pos closes, if_pos closes', List.map_cons]
  | case3 c ordinary backslash quote next behind taken ih =>
    have ordinary' : ¬ LookAhead.raw.read (toupper c) = '\''.toUInt8 := ordinary
    have backslash' : LookAhead.raw.read (toupper c) = '\\'.toUInt8 := backslash
    have taken' : LookAhead.raw.read (toupper quote) = '\''.toUInt8 := taken
    rw [List.map_cons, quotedStringLoop.eq_def, quotedStringLoop.eq_def]
    simpa only [if_neg ordinary, if_neg ordinary', if_pos backslash, if_pos backslash',
      if_pos taken, if_pos taken', List.map_cons] using ih
  | case4 c ordinary backslash quote next behind other ih =>
    have ordinary' : ¬ LookAhead.raw.read (toupper c) = '\''.toUInt8 := ordinary
    have backslash' : LookAhead.raw.read (toupper c) = '\\'.toUInt8 := backslash
    have other' : ¬ LookAhead.raw.read (toupper quote) = '\''.toUInt8 := other
    rw [List.map_cons, quotedStringLoop.eq_def, quotedStringLoop.eq_def]
    simpa only [if_neg ordinary, if_neg ordinary', if_pos backslash, if_pos backslash',
      if_neg other, if_neg other', List.map_cons] using ih
  | case5 c ordinary backslash rest short ih =>
    have ordinary' : ¬ LookAhead.raw.read (toupper c) = '\''.toUInt8 := ordinary
    have backslash' : LookAhead.raw.read (toupper c) = '\\'.toUInt8 := backslash
    rw [List.map_cons, quotedStringLoop.eq_def, quotedStringLoop.eq_def]
    simp only [if_neg ordinary, if_neg ordinary', if_pos backslash, if_pos backslash']
    rcases rest with _ | ⟨d, _ | ⟨e, behind⟩⟩
    · rfl
    · exact ih
    · exact absurd rfl (short d e behind)
  | case6 c rest ordinary other ih =>
    have ordinary' : ¬ LookAhead.raw.read (toupper c) = '\''.toUInt8 := ordinary
    have other' : ¬ LookAhead.raw.read (toupper c) = '\\'.toUInt8 := other
    rw [List.map_cons, quotedStringLoop.eq_def, quotedStringLoop.eq_def]
    simpa only [if_neg ordinary, if_neg ordinary', if_neg other, if_neg other'] using ih

theorem folds_mQuotedString : Folds mQuotedString := by
  have loop : Folds fun s => ⟨s.lookAhead, quotedStringLoop s.lookAhead s.rest, s.error⟩ := by
    intro s ucase
    refine ⟨ucase, ?_⟩
    simp only [folded, ucase, map_quotedStringLoop]
  exact (folds_matchC _).andThen (loop.comp (folds_matchC _))

theorem folds_matchLine : Folds matchLine :=
  ((folds_matchSetLoop _).comp (folds_matchOptional _)).andThen (folds_matchC _)

theorem folds_mMlComment : Folds mMlComment := by
  have continues (rest : List UInt8) :
      mlContinues .raw (rest.map toupper) = mlContinues .ucase rest := by
    rw [mlContinues, mlContinues, la_map, la_map]
  exact (folds_matchS _).andThen ((folds_matchWhile continues).comp (folds_matchS _))

theorem folds_mQSBracketed (opening closing : UInt8) :
    Folds fun s => s.mQSBracketed opening closing := by
  have continues (rest : List UInt8) :
      bracketContinues .raw closing (rest.map toupper) = bracketContinues .ucase closing rest := by
    rw [bracketContinues, bracketContinues, la_map, la_map]
  have loop := (@folds_matchWhile (fun lookAhead => bracketContinues lookAhead closing)
    continues).comp (folds_matchC closing)
  exact (folds_matchC _).andThen ((folds_matchC opening).andThen (loop.andThen (folds_matchC _)))

/-! ## Delimiters that are no letters -/

theorem la_eq_some_iff {lookAhead : LookAhead} {rest : List UInt8} {i : ℕ} {c : UInt8}
    (other : isLetter c = false) :
    LookAhead.raw.la (rest.map toupper) i = some c ↔ lookAhead.la rest i = some c := by
  rw [la_map, LookAhead.la, LookAhead.la]
  cases rest[i - 1]? with
  | none => rfl
  | some d =>
    rw [Option.map_some, Option.map_some, Option.some.injEq, Option.some.injEq,
      LookAhead.ucase.read_eq_iff other, lookAhead.read_eq_iff other]

theorem isSome_la {lookAhead : LookAhead} {rest : List UInt8} {i : ℕ} :
    (LookAhead.raw.la (rest.map toupper) i).isSome = (lookAhead.la rest i).isSome := by
  rw [la_map, LookAhead.la, LookAhead.la, Option.isSome_map, Option.isSome_map]

theorem folded_matchC {c : UInt8} (other : isLetter c = false) (s : LexerState) :
    folded (s.matchC c) = (folded s).matchC c := by
  have test : (folded s).la 1 = some c ↔ s.la 1 = some c := la_eq_some_iff other
  rw [matchC, matchC]
  by_cases here : s.la 1 = some c
  · rw [if_pos here, if_pos (test.mpr here), folded_consume]
  · rw [if_neg here, if_neg (mt test.mp here)]
    exact folded_consume s.constructEx

theorem folded_mQuote (s : LexerState) : folded s.mQuote = (folded s).mQuote :=
  folded_matchC (by decide) s

theorem folded_mQSOtherCh (s : LexerState) : folded s.mQSOtherCh = (folded s).mQSOtherCh := by
  have test : ((folded s).la 1).any isQSOtherCh = (s.la 1).any isQSOtherCh := by
    change (LookAhead.raw.la (s.rest.map toupper) 1).any isQSOtherCh = _
    rw [la_map, la, LookAhead.la, LookAhead.la, Option.any_map, Option.any_map]
    congr 1
    funext c
    exact (isQSOtherCh_read .ucase c).trans (isQSOtherCh_read s.lookAhead c).symm
  rw [mQSOtherCh, mQSOtherCh, test]
  split
  · exact folded_consume s
  · exact folded_consume s.constructEx

theorem folded_andThen {first second : LexerState → LexerState} (s : LexerState)
    (same : folded (first s) = second (folded s)) :
    folded (s.andThen first) = (folded s).andThen second := by
  rw [LexerState.andThen, LexerState.andThen]
  change folded (if s.error = true then _ else _) = if s.error = true then _ else _
  split
  · rfl
  · exact same

section Delimiter

variable {lookAhead : LookAhead} {delimiter : UInt8} (other : isLetter delimiter = false)
  (rest : List UInt8)

include other

theorem qsOtherInside_map : qsOtherInside .raw delimiter (rest.map toupper) =
    qsOtherInside lookAhead delimiter rest := by
  rw [qsOtherInside, qsOtherInside, Bool.eq_iff_iff, Bool.or_eq_true, Bool.or_eq_true,
    bne_iff_ne, bne_iff_ne, bne_iff_ne, bne_iff_ne, ne_eq, ne_eq, ne_eq, ne_eq,
    la_eq_some_iff other, @la_eq_some_iff lookAhead _ _ '\''.toUInt8 (by decide)]

theorem qsOtherCloses_map : qsOtherCloses .raw delimiter (rest.map toupper) =
    qsOtherCloses lookAhead delimiter rest := by
  rw [qsOtherCloses, qsOtherCloses, Bool.eq_iff_iff, Bool.and_eq_true, Bool.and_eq_true,
    beq_iff_eq, beq_iff_eq, beq_iff_eq, beq_iff_eq, la_eq_some_iff other,
    @la_eq_some_iff lookAhead _ _ '\''.toUInt8 (by decide)]

theorem qsOtherContinues_map : qsOtherContinues .raw delimiter (rest.map toupper) =
    qsOtherContinues lookAhead delimiter rest := by
  have quote := @la_eq_some_iff lookAhead rest 2 '\''.toUInt8 (by decide)
  have second : (LookAhead.raw.la (rest.map toupper) 2).any (· != '\''.toUInt8) =
      (lookAhead.la rest 2).any (· != '\''.toUInt8) := by
    have split (o : Option UInt8) :
        o.any (· != '\''.toUInt8) = (o.isSome && o != some '\''.toUInt8) := by
      cases o <;> rfl
    rw [split, split, @isSome_la lookAhead, Bool.eq_iff_iff, Bool.and_eq_true, Bool.and_eq_true,
      bne_iff_ne, bne_iff_ne, ne_eq, ne_eq, quote]
  simp only [qsOtherContinues, @qsOtherInside_map lookAhead _ other rest,
    @qsOtherCloses_map lookAhead _ other rest, @isSome_la lookAhead, quote, second]

end Delimiter

theorem rest_mQuote (s : LexerState) : s.mQuote.rest = s.rest.tail := by
  rw [LexerState.mQuote, matchC]
  split <;> rfl

theorem toupper_of_other {c : UInt8} (other : isLetter c = false) : toupper c = c :=
  (toupper_eq_iff other).mpr rfl

/-- The delimiter is read as it is written. -/
theorem folded_mQSOther (s : LexerState) (other : isLetter (s.rest.tail.headD 0) = false) :
    folded s.mQSOther = (folded s).mQSOther := by
  have start : folded (s.setUcaseLA false).mQuote = ((folded s).setUcaseLA false).mQuote :=
    folded_mQuote (s.setUcaseLA false)
  have front : (s.setUcaseLA false).mQuote.rest = s.rest.tail := rest_mQuote _
  rw [mQSOther, mQSOther, ← start]
  generalize (s.setUcaseLA false).mQuote = t at front
  refine folded_andThen t ?_
  have delimiter : (folded t).rest.headD 0 = t.rest.headD 0 := by
    rw [← front] at other
    change (t.rest.map toupper).headD 0 = _
    cases own : t.rest with
    | nil => rfl
    | cons c behind =>
      rw [own] at other
      exact toupper_of_other other
  rw [delimiter]
  rw [← front] at other
  generalize t.rest.headD 0 = d at other
  rw [← folded_mQSOtherCh]
  generalize t.mQSOtherCh = u
  refine folded_andThen u ?_
  have loop : folded (u.matchWhile (qsOtherContinues u.lookAhead d)) =
      (folded u).matchWhile (qsOtherContinues (folded u).lookAhead d) := by
    have same := map_dropWhileRest
      (fun rest => @qsOtherContinues_map u.lookAhead d other rest) u.rest
    rw [folded, matchWhile]
    simp only [same]
    rfl
  simp only [← loop]
  generalize u.matchWhile (qsOtherContinues u.lookAhead d) = v
  have closed : folded (if qsOtherCloses v.lookAhead d v.rest then v else v.constructEx) =
      if qsOtherCloses (folded v).lookAhead d (folded v).rest then folded v
        else (folded v).constructEx := by
    have test : qsOtherCloses (folded v).lookAhead d (folded v).rest =
        qsOtherCloses v.lookAhead d v.rest := qsOtherCloses_map other v.rest
    rw [test]
    split <;> rfl
  rw [← closed, matchAny, matchAny, ← folded_consume]
  refine folded_andThen _ ?_
  rw [← folded_mQuote]
  exact folded_andThen _ rfl

/-! ## One turn -/

/-- The start of a q-quoted string that is delimited by a letter. -/
def letterDelimited : List UInt8 → Bool
  | letter :: quote :: delimiter :: _ =>
    toupper letter == 'Q'.toUInt8 && quote == '\''.toUInt8 && isLetter delimiter
  | _ => false

theorem isLetter_toupper (c : UInt8) : isLetter (toupper c) = isLetter c := by
  cases own : isLetter c with
  | false => rw [toupper_of_other own, own]
  | true =>
    by_contra other
    rw [Bool.not_eq_true] at other
    rw [(toupper_eq_iff other).mp rfl, other] at own
    cases own

theorem toupper_toupper (c : UInt8) : toupper (toupper c) = toupper c := by
  have upper : 'a'.toUInt8 = 97 ∧ 'z'.toUInt8 = 122 := by decide
  simp only [toupper]
  grind

theorem toupper_ne_q (c : UInt8) : toupper c ≠ 'q'.toUInt8 := by
  have lower : 'a'.toUInt8 = 97 ∧ 'z'.toUInt8 = 122 ∧ 'q'.toUInt8 = 113 := by decide
  rw [toupper]
  split
  · grind
  · grind

theorem predictQString_folded (ucase : s.lookAhead = .ucase) :
    (folded s).predictQString = s.predictQString := by
  rw [predictQString, predictQString, la_folded ucase, la_folded ucase]

theorem delimiter_of_plain (ucase : s.lookAhead = .ucase)
    (letter : s.la 1 = some 'Q'.toUInt8 ∨ s.la 1 = some 'q'.toUInt8)
    (predicted : s.consume.predictQString = some .other)
    (plain : letterDelimited s.rest = false) :
    isLetter (s.consume.rest.tail.headD 0) = false := by
  obtain ⟨lookAhead, rest, error⟩ := s
  obtain rfl : lookAhead = .ucase := ucase
  cases rest with
  | nil => rfl
  | cons c rest =>
    cases rest with
    | nil => rfl
    | cons quote rest =>
      cases rest with
      | nil => rfl
      | cons d rest =>
        have upper : toupper c = 'Q'.toUInt8 := by
          rcases letter with letter | letter
          · exact Option.some.inj letter
          · exact absurd (Option.some.inj letter) (toupper_ne_q c)
        have quoted : quote = '\''.toUInt8 := by
          rw [predictQString] at predicted
          split at predicted
          · next here =>
            exact (toupper_eq_iff (by decide)).mp (Option.some.inj here)
          · cases predicted
        rw [letterDelimited, upper, quoted] at plain
        change isLetter d = false
        simpa using plain

theorem folded_mQString (ucase : s.lookAhead = .ucase) (plain : letterDelimited s.rest = false) :
    folded s.mQString = (folded s).mQString := by
  rw [mQString, mQString, la_folded ucase]
  by_cases letter : s.la 1 = some 'Q'.toUInt8 ∨ s.la 1 = some 'q'.toUInt8
  · rw [if_pos letter, if_pos letter, ← folded_consume]
    dsimp only
    rw [predictQString_folded (s := s.consume) ucase]
    cases predicted : s.consume.predictQString with
    | none => exact folded_constructEx s.consume
    | some rule =>
      cases rule with
      | other =>
        exact folded_mQSOther s.consume (delimiter_of_plain ucase letter predicted plain)
      | _ => exact (folds_mQSBracketed _ _ s.consume ucase).2
  · rw [if_neg letter, if_neg letter]
    exact (folds_lrecover s ucase).2

theorem folded_run (rule : LexRule) (ucase : s.lookAhead = .ucase)
    (plain : letterDelimited s.rest = false) : folded (rule.run s) = rule.run (folded s) := by
  cases rule with
  | literal spelling type => exact (folds_matchS _ s ucase).2
  | id => exact (folds_mId s ucase).2
  | number => exact (folds_mNumber s ucase).2
  | quotedString => exact (folds_mQuotedString s ucase).2
  | qstring => exact folded_mQString ucase plain
  | ws => exact (folds_matchSet _ s ucase).2
  | slComment => exact ((folds_matchS _).andThen folds_matchLine s ucase).2
  | mysqlComment => exact ((folds_matchC _).andThen folds_matchLine s ucase).2
  | mlComment => exact (folds_mMlComment s ucase).2

theorem predict_folded (ucase : s.lookAhead = .ucase) : (folded s).predict = s.predict := by
  have ahead : (folded s).ahead = s.ahead := by
    rw [LexerState.ahead, LexerState.ahead, ucase]
    exact List.map_id _
  rw [predict, predict, ahead]

/-- A turn takes as much, and fails alike. -/
theorem nextToken_folded (ucase : s.lookAhead = .ucase) (plain : letterDelimited s.rest = false) :
    ((nextToken lexerRules s).rest.map toupper, (nextToken lexerRules s).error) =
      ((nextToken lexerRules (folded s)).rest, (nextToken lexerRules (folded s)).error) := by
  have turn := nextToken_eq s
  have turn' := nextToken_eq (folded s)
  rw [predict_folded ucase] at turn'
  rw [turn', (Prod.mk.inj turn).1, (Prod.mk.inj turn).2]
  cases decided : s.predict with
  | none => simp [folded, List.map_tail]
  | some rule =>
    have clear : folded { s with error := false } = { folded s with error := false } := rfl
    have same := folded_run (s := { s with error := false }) rule ucase plain
    rw [clear] at same
    dsimp only
    rw [← same]
    change _ = if (rule.run { s with error := false }).error = true then _ else _
    cases (rule.run { s with error := false }).error <;> simp [folded, List.map_tail]

/-! ## Whole inputs -/

/-- Two turns at one place that take the same characters but for their case, and deliver tokens of
one type on one channel, or none. -/
structure Recased (first second : Stretch) : Prop where
  span : first.span.map toupper = second.span.map toupper
  token : first.token.map (fun token =>
      (token.type, token.channel, token.line, token.charPositionInLine)) =
    second.token.map fun token =>
      (token.type, token.channel, token.line, token.charPositionInLine)

/-- What the lexer visits in two inputs that differ in case only. -/
structure Alike (v w : Place × LexerState) : Prop where
  place : v.1 = w.1
  rest : v.2.rest.map toupper = w.2.rest.map toupper
  first : v.2.Folding
  second : w.2.Folding

variable {v w : Place × LexerState}

theorem foldl_advance_toupper (place : Place) (span : List UInt8) :
    (span.map toupper).foldl Place.advance place = span.foldl Place.advance place := by
  rw [List.foldl_map]
  congr 1
  funext place c
  have newline : isLetter '\n'.toUInt8 = false := by decide
  simp only [Place.advance, toupper_eq_iff newline]

theorem Alike.left (alike : Alike v w) : v.2.rest ≠ [] ↔ w.2.rest ≠ [] := by
  rw [ne_eq, ne_eq, ← @List.map_eq_nil_iff _ _ toupper, alike.rest, List.map_eq_nil_iff]

theorem letterDelimited_folded (rest : List UInt8) :
    letterDelimited (rest.map toupper) = letterDelimited rest := by
  match rest with
  | [] | [_] | [_, _] => rfl
  | letter :: quote :: delimiter :: _ =>
    simp only [List.map_cons, letterDelimited, toupper_toupper, isLetter_toupper]
    congr 2
    rw [Bool.eq_iff_iff, beq_iff_eq, beq_iff_eq, toupper_eq_iff (by decide)]

theorem Alike.next (alike : Alike v w) (left : v.2.rest ≠ [])
    (plain : letterDelimited v.2.rest = false) :
    (lexer.next v.2).rest.map toupper = (lexer.next w.2).rest.map toupper ∧
      (lexer.next v.2).error = (lexer.next w.2).error ∧ v.2.predict = w.2.predict := by
  have ucase := alike.first left
  have ucase' := alike.second (alike.left.mp left)
  have plain' : letterDelimited w.2.rest = false := by
    rw [← letterDelimited_folded, ← alike.rest, letterDelimited_folded, plain]
  have same : folded { v.2 with error := false } = folded { w.2 with error := false } := by
    rw [folded, folded, alike.rest]
  have turn := nextToken_folded (s := { v.2 with error := false }) ucase plain
  have turn' := nextToken_folded (s := { w.2 with error := false }) ucase' plain'
  rw [same, ← turn'] at turn
  have decided := predict_folded (s := { v.2 with error := false }) ucase
  rw [same, predict_folded (s := { w.2 with error := false }) ucase'] at decided
  exact ⟨(Prod.mk.inj turn).1, (Prod.mk.inj turn).2, decided.symm⟩

theorem Alike.span (alike : Alike v w) (left : v.2.rest ≠ [])
    (plain : letterDelimited v.2.rest = false) :
    (lexer.span v.2).map toupper = (lexer.span w.2).map toupper := by
  have length := congrArg List.length alike.rest
  have behind := congrArg List.length (alike.next left plain).1
  rw [List.length_map, List.length_map] at length behind
  have front : lexer.span v.2 =
      v.2.rest.take (v.2.rest.length - (lexer.next v.2).rest.length) := rfl
  have front' : lexer.span w.2 =
      w.2.rest.take (w.2.rest.length - (lexer.next w.2).rest.length) := rfl
  rw [front, front', List.map_take, List.map_take, alike.rest, length, behind]

theorem Alike.step (alike : Alike v w) (left : v.2.rest ≠ [])
    (plain : letterDelimited v.2.rest = false) :
    Alike ((lexer.span v.2).foldl Place.advance v.1, lexer.next v.2)
      ((lexer.span w.2).foldl Place.advance w.1, lexer.next w.2) where
  place := by
    rw [← foldl_advance_toupper, alike.span left plain, foldl_advance_toupper, alike.place]
  rest := (alike.next left plain).1
  first := nextToken_folding lexerRules (alike.first left)
  second := nextToken_folding lexerRules (alike.second (alike.left.mp left))

variable (rt : Runtime) (options : ℕ)

theorem Alike.recased (alike : Alike v w) (left : v.2.rest ≠ [])
    (plain : letterDelimited v.2.rest = false) :
    Recased (stretchAt rt options v.1 v.2) (stretchAt rt options w.1 w.2) where
  span := alike.span left plain
  token := by
    obtain ⟨-, error, decided⟩ := alike.next left plain
    rw [stretchAt, stretchAt, error, decided, alike.place]
    dsimp only
    split
    · rfl
    · rw [Option.map_map, Option.map_map]
      rfl

theorem ne_of_isLetter {c d : UInt8} (letter : isLetter c = true) (other : isLetter d = false) :
    c ≠ d := by
  rintro rfl
  rw [letter] at other
  cases other

theorem isQSOtherCh_of_isLetter {c : UInt8} (letter : isLetter c = true) :
    isQSOtherCh c = true := by
  have others : ∀ d ∈ ['<', '\x7b', '[', '(', ' ', '\t', '\n', '\r'].map Char.toUInt8,
      isLetter d = false := by
    decide
  rw [isQSOtherCh, Bool.not_eq_true', ← Bool.not_eq_true, List.contains_iff_mem]
  exact fun member => ne_of_isLetter letter (others c member) rfl

theorem predictQString_of_isLetter {c : UInt8} (letter : isLetter c = true) (body : List UInt8) :
    predictQString ⟨.ucase, '\''.toUInt8 :: c :: body, false⟩ = some .other := by
  have upper : isLetter (toupper c) = true := by rw [isLetter_toupper, letter]
  have first : la ⟨.ucase, '\''.toUInt8 :: c :: body, false⟩ 1 = some '\''.toUInt8 := rfl
  have second : la ⟨.ucase, '\''.toUInt8 :: c :: body, false⟩ 2 = some (toupper c) := rfl
  rw [predictQString, if_pos first, second, Option.bind_some,
    if_neg (ne_of_isLetter upper (by decide)), if_neg (ne_of_isLetter upper (by decide)),
    if_neg (ne_of_isLetter upper (by decide)), if_pos (isQSOtherCh_of_isLetter upper)]

/-- A turn that starts a q-quoted string with a letter for a delimiter takes the delimiter. -/
theorem length_next (ucase : s.lookAhead = .ucase) (delimited : letterDelimited s.rest = true) :
    (lexer.next s).rest.length + 3 ≤ s.rest.length := by
  obtain ⟨lookAhead, rest, error⟩ := s
  obtain rfl : lookAhead = .ucase := ucase
  rcases rest with _ | ⟨letter, _ | ⟨quote, _ | ⟨delimiter, body⟩⟩⟩
  case nil | cons.nil | cons.cons.nil => cases delimited
  case cons.cons.cons =>
    simp only [letterDelimited, Bool.and_eq_true, beq_iff_eq] at delimited
    obtain ⟨⟨upper, rfl⟩, own⟩ := delimited
    have decided : predict ⟨.ucase, letter :: '\''.toUInt8 :: delimiter :: body, error⟩ =
        some .qstring := predict_qstring (.inl ⟨congrArg some upper, rfl⟩)
    have taken : (mQString ⟨.ucase, letter :: '\''.toUInt8 :: delimiter :: body, false⟩).rest <:+
        body := by
      have ch : isQSOtherCh delimiter = true := isQSOtherCh_of_isLetter own
      have other : predictQString ⟨.ucase, '\''.toUInt8 :: delimiter :: body, false⟩ =
          some .other := predictQString_of_isLetter own body
      have consumed : consume ⟨.ucase, letter :: '\''.toUInt8 :: delimiter :: body, false⟩ =
          ⟨.ucase, '\''.toUInt8 :: delimiter :: body, false⟩ := rfl
      rw [mQString, if_pos (.inl (congrArg some upper))]
      simp only [consumed, other]
      rw [mQSOther_eq rfl ch rfl]
      have suffix := @dropWhileRest_suffix _ (qsOtherContinues .raw delimiter) body
      dsimp only
      split
      · exact (List.drop_suffix 2 _).trans suffix
      · exact (List.tail_suffix _).trans suffix
    have turn := congrArg Prod.fst
      (nextToken_eq ⟨.ucase, letter :: '\''.toUInt8 :: delimiter :: body, error⟩)
    rw [decided] at turn
    change (lexer.next _).rest =
      ((if (mQString ⟨.ucase, letter :: '\''.toUInt8 :: delimiter :: body, false⟩).error = true
        then _ else _ : List UInt8 × Bool)).1 at turn
    rw [turn]
    have bound := taken.length_le
    split
    · change (mQString ⟨.ucase, letter :: '\''.toUInt8 :: delimiter :: body, false⟩).rest.tail.length
        + 3 ≤ body.length + 3
      rw [List.length_tail]
      omega
    · exact Nat.add_le_add_right bound 3

theorem plain_of_span (ucase : s.lookAhead = .ucase)
    (plain : letterDelimited (lexer.span s) = false) : letterDelimited s.rest = false := by
  by_contra delimited
  rw [Bool.not_eq_false] at delimited
  have bound := length_next ucase delimited
  have front : lexer.span s = s.rest.take (s.rest.length - (lexer.next s).rest.length) := rfl
  rcases rest : s.rest with _ | ⟨letter, _ | ⟨quote, _ | ⟨delimiter, body⟩⟩⟩
  case nil | cons.nil | cons.cons.nil => rw [rest] at delimited; cases delimited
  case cons.cons.cons =>
    obtain ⟨more, length⟩ : ∃ more, s.rest.length - (lexer.next s).rest.length = more + 3 :=
      ⟨s.rest.length - (lexer.next s).rest.length - 3, by omega⟩
    rw [front, length, rest, List.take_succ_cons, List.take_succ_cons, List.take_succ_cons] at plain
    rw [rest] at delimited
    exact Bool.false_ne_true (plain.symm.trans delimited)

/-! ### What the parser sees -/

theorem types_of_recased {first second : List Stretch}
    (recased : List.Forall₂ Recased first second) :
    (first.filterMap Stretch.token).map Token.type =
      (second.filterMap Stretch.token).map Token.type := by
  induction recased with
  | nil => rfl
  | @cons stretch other _ _ own _ ih =>
    have token := own.token
    rw [List.filterMap_cons, List.filterMap_cons]
    cases here : stretch.token <;> cases there : other.token
    · exact ih
    · simp [here, there] at token
    · simp [here, there] at token
    · rw [here, there, Option.map_some, Option.map_some, Option.some.injEq] at token
      exact congrArg₂ List.cons (Prod.mk.inj token).1 ih

theorem errors_of_recased {first second : List Stretch}
    (recased : List.Forall₂ Recased first second) :
    (first.countP fun stretch => stretch.token.isNone) =
      second.countP fun stretch => stretch.token.isNone := by
  induction recased with
  | nil => rfl
  | cons own _ ih =>
    have token := congrArg Option.isNone own.token
    rw [Option.isNone_map, Option.isNone_map] at token
    rw [List.countP_cons, List.countP_cons, ih, token]

variable {rt options} {first second : List UInt8}

/-- Two inputs that differ in the case of letters only, wherever the letters stand: unless a
q-quoted string of the first one is delimited by a letter, the lexer takes the second one apart at
the same places into tokens of the same types, on the same channels, and reports as many errors. -/
theorem lex_recased (same : first.map toupper = second.map toupper)
    (plain : ∀ stretch ∈ lexStretches rt options first, letterDelimited stretch.span = false) :
    List.Forall₂ Recased (lexStretches rt options first) (lexStretches rt options second) ∧
      (lex rt options first).tokens.map Token.type = (lex rt options second).tokens.map Token.type ∧
      (lex rt options first).errors = (lex rt options second).errors := by
  have length : first.length = second.length := by
    simpa using congrArg List.length same
  have start : Alike (Place.start, pgifyLexer .raw first) (Place.start, pgifyLexer .raw second) :=
    ⟨rfl, same, fun _ => rfl, fun _ => rfl⟩
  have ended (v w : Place × LexerState) (alike : Alike v w) :
      (lexer.rest v.2).isEmpty = (lexer.rest w.2).isEmpty := by
    rw [Bool.eq_iff_iff, List.isEmpty_iff, List.isEmpty_iff]
    exact not_iff_not.mp alike.left
  have visits := @Scanner.visits_forall₂ _ _ _ lexer Place.advance Alike
    (fun s => s.rest ≠ [] ∧ letterDelimited (lexer.span s) = false) ended
    (fun v w alike left own => alike.step left (plain_of_span (alike.first left) own.2))
    first.length _ _ start fun visit member =>
      ⟨Scanner.rest_of_mem_visits visit member, plain _ (List.mem_map_of_mem member)⟩
  have recased : List.Forall₂ Recased (lexStretches rt options first)
      (lexStretches rt options second) := by
    rw [lexStretches, lexStretches, ← length, List.forall₂_map_left_iff, List.forall₂_map_right_iff]
    refine visits.imp ?_
    rintro v w ⟨alike, left, own⟩
    exact alike.recased rt options left (plain_of_span (alike.first left) own)
  exact ⟨recased, types_of_recased recased, errors_of_recased recased⟩

/-- Without a quote no string is delimited. -/
theorem plain_of_quoteless {input : List UInt8} (quoteless : '\''.toUInt8 ∉ input) :
    ∀ stretch ∈ lexStretches rt options input, letterDelimited stretch.span = false := by
  intro stretch member
  have inside (c : UInt8) (own : c ∈ stretch.span) : c ∈ input := by
    rw [← TokenPlaces.flatMap_lexStretches rt options input]
    exact List.mem_flatMap_of_mem member own
  by_contra delimited
  rw [Bool.not_eq_false] at delimited
  rcases own : stretch.span with _ | ⟨letter, _ | ⟨quote, _ | ⟨delimiter, rest⟩⟩⟩ <;>
    rw [own] at delimited
  · cases delimited
  · cases delimited
  · cases delimited
  · simp only [letterDelimited, Bool.and_eq_true, beq_iff_eq] at delimited
    exact quoteless (inside _ (by simp [own, delimited.1.2]))

/-- `Use` and `USE`. -/
theorem lex_recased_use :
    (lex ⟨id, 0⟩ 0 (bytesOf "Use t;")).tokens.map Token.type =
      (lex ⟨id, 0⟩ 0 (bytesOf "USE T;")).tokens.map Token.type :=
  (lex_recased (by decide) (plain_of_quoteless (by decide))).2.1

end Pgify.LetterCase
