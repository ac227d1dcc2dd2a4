import Mathlib.Tactic.IntervalCases
import Pgify.Proofs.TokenLanguages

/-! # What the token decision decides for

The nested switches look ahead only as far as the lexical grammar makes them, with two exceptions
that the grammar has to name: in front of a blank the word WITH is taken for the start of a literal,
and a `q` in front of a quote for the start of a string.
-/

namespace Pgify.TokenLanguages

open Pgify.Model SpanLanguage Recognizer

/-- The decision on a stream that folds case. -/
def predicted (input : List UInt8) : Option LexRule :=
  LexerState.predict ⟨.ucase, input, false⟩

/-! ## Characters -/

theorem charOf_eq_iff {c : UInt8} {d : Char} (ascii : d.toNat < 256) :
    charOf c = d ↔ c = d.toUInt8 := by
  have small := c.toNat_lt
  have valid : c.toNat.isValidChar := Or.inl (by omega)
  have code : (charOf c).toNat = c.toNat := by
    rw [charOf, Char.ofNat, dif_pos valid]
    rfl
  have byte : d.toUInt8.toNat = d.toNat := by
    change d.toNat % 256 = d.toNat
    omega
  rw [← Char.toNat_inj, code, ← UInt8.toNat_inj, byte]

/-- Characters that read as themselves, and as bytes. -/
def Plain (expected : List Char) : Prop :=
  ∀ c ∈ expected, c.toNat < 256 ∧ isLetter c.toUInt8 = false

instance (expected : List Char) : Decidable (Plain expected) :=
  inferInstanceAs (Decidable (∀ c ∈ expected, _))

theorem prefix_chars_iff {expected : List Char} (plain : Plain expected) (lookAhead : LookAhead)
    {input : List UInt8} :
    expected <+: input.map (charOf ∘ lookAhead.read) ↔ expected.map Char.toUInt8 <+: input := by
  induction expected generalizing input with
  | nil => exact iff_of_true List.nil_prefix List.nil_prefix
  | cons c expected ih =>
    cases input with
    | nil => simp
    | cons d input =>
      obtain ⟨ascii, noLetter⟩ := plain c List.mem_cons_self
      rw [List.map_cons, List.map_cons, List.cons_prefix_cons, List.cons_prefix_cons,
        ih fun e member => plain e (List.mem_cons_of_mem _ member), Function.comp_apply, eq_comm,
        charOf_eq_iff ascii, lookAhead.read_eq_iff noLetter, eq_comm]

theorem chars_prefix_iff {expected : List Char} (plain : Plain expected) (lookAhead : LookAhead)
    {input : List UInt8} :
    input.map (charOf ∘ lookAhead.read) <+: expected ↔ input <+: expected.map Char.toUInt8 := by
  induction input generalizing expected with
  | nil => exact iff_of_true List.nil_prefix List.nil_prefix
  | cons d input ih =>
    cases expected with
    | nil => simp
    | cons c expected =>
      obtain ⟨ascii, noLetter⟩ := plain c List.mem_cons_self
      rw [List.map_cons, List.map_cons, List.cons_prefix_cons, List.cons_prefix_cons,
        ih fun e member => plain e (List.mem_cons_of_mem _ member), Function.comp_apply,
        charOf_eq_iff ascii, lookAhead.read_eq_iff noLetter]

/-! ## At a quote -/

theorem predictTimestamp_eq (expected input : List Char) :
    predictTimestamp expected input =
      if expected ++ ['\''] <+: input then some .stupidMysqlTimestamp
      else if input <+: expected then none
      else some .quotedString := by
  induction expected generalizing input with
  | nil =>
    cases input with
    | nil => rfl
    | cons c input =>
      by_cases quote : c = '\''
      · subst quote
        simp [predictTimestamp]
      · have other : ¬ ['\''] <+: c :: input := fun early =>
          quote (List.cons_prefix_cons.mp early).1.symm
        rw [predictTimestamp.eq_2 c input fun same => quote same, List.nil_append, if_neg other,
          if_neg (by simp)]
  | cons e expected ih =>
    cases input with
    | nil => simp [predictTimestamp]
    | cons c input =>
      rw [predictTimestamp, ih]
      simp only [List.cons_append, List.cons_prefix_cons]
      by_cases same : c = e
      · simp [same]
      · simp [same, Ne.symm same]

/-- The time of day of the zero timestamp. -/
def clock : List Char :=
  ['0', '0', ':', '0', '0', ':', '0', '0']

/-- The decision for a date and for a timestamp, and for no string that runs into the end. -/
theorem predictDate_eq (expected input : List Char) :
    predictDate expected input =
      if expected ++ ['\''] <+: input then some .stupidMysqlDate
      else if expected ++ ' ' :: (clock ++ ['\'']) <+: input then some .stupidMysqlTimestamp
      else if input <+: expected ++ ' ' :: clock then none
      else some .quotedString := by
  induction expected generalizing input with
  | nil =>
    match input with
    | [] => rfl
    | c :: input =>
      simp only [List.nil_append, List.cons_prefix_cons]
      by_cases quote : c = '\''
      · subst quote
        simp [predictDate]
      · by_cases blank : c = ' '
        · subst blank
          have time := predictTimestamp_eq clock input
          have apart : '\'' ≠ ' ' := by decide
          simp only [apart, false_and, true_and, if_false]
          exact time
        · rw [predictDate.eq_3 c input (fun same => quote same) fun same => blank same]
          simp only [Ne.symm quote, Ne.symm blank, blank, false_and, if_false]
  | cons e expected ih =>
    cases input with
    | nil => simp [predictDate]
    | cons c input =>
      rw [predictDate, ih]
      simp only [List.cons_append, List.cons_prefix_cons]
      by_cases same : c = e
      · simp only [same, true_and, if_true]
      · simp only [same, Ne.symm same, false_and, if_false]

/-- The zero date. -/
def day : List Char :=
  ['0', '0', '0', '0', '-', '0', '0', '-', '0', '0']

def dateBehind : List UInt8 :=
  (day ++ ['\'']).map Char.toUInt8

def timestampBehind : List UInt8 :=
  (day ++ ' ' :: (clock ++ ['\''])).map Char.toUInt8

/-- The decision behind a quote is the same in either case. -/
theorem predictQuote_eq (lookAhead : LookAhead) {tail : List UInt8} (filled : tail ≠ []) :
    predictQuote (tail.map (charOf ∘ lookAhead.read)) =
      if dateBehind <+: tail then some .stupidMysqlDate
      else if timestampBehind <+: tail then some .stupidMysqlTimestamp
      else if tail <+: (day ++ ' ' :: clock).map Char.toUInt8 then none
      else some .quotedString := by
  have decision : predictQuote (tail.map (charOf ∘ lookAhead.read)) =
      predictDate day (tail.map (charOf ∘ lookAhead.read)) := by
    cases tail with
    | nil => exact absurd rfl filled
    | cons c tail => rfl
  have date : Plain (day ++ ['\'']) := by decide
  have timestamp : Plain (day ++ ' ' :: (clock ++ ['\''])) := by decide
  have open_ : Plain (day ++ ' ' :: clock) := by decide
  rw [decision, predictDate_eq]
  simp only [prefix_chars_iff date, prefix_chars_iff timestamp, chars_prefix_iff open_]
  rfl

section Closed

variable {body rest expected : List UInt8}

/-- Without a quote or a backslash only the whole string can be expected. -/
theorem eq_of_closes (closes : Closes body rest)
    (plain : ∀ c ∈ expected, c ≠ '\''.toUInt8 ∧ c ≠ '\\'.toUInt8)
    (early : expected ++ ['\''.toUInt8] <+: body ++ '\''.toUInt8 :: rest) : body = expected := by
  obtain ⟨behind, whole⟩ := early
  rw [List.append_assoc, List.singleton_append] at whole
  rcases List.append_eq_append_iff.mp whole with ⟨more, rfl, split⟩ | ⟨more, rfl, split⟩
  · cases more with
    | nil => exact List.append_nil _
    | cons c more =>
      rw [← (List.cons.inj split).1] at closes
      have last := closes.1 expected more rfl
      exact absurd rfl (plain _ (List.mem_of_getLast? last)).2
  · cases more with
    | nil => exact (List.append_nil _).symm
    | cons c more =>
      have member : c ∈ body ++ c :: more := by simp
      exact absurd (List.cons.inj split).1.symm (plain c member).1

theorem not_prefix_of_closes (plain : '\''.toUInt8 ∉ expected) :
    ¬ body ++ '\''.toUInt8 :: rest <+: expected := by
  intro early
  exact plain (early.subset (by simp))

end Closed

/-! ## At a letter -/

theorem ascii_of_isWordCh {c : UInt8} (word : isWordCh c = true) : c < 128 := by
  simp only [isWordCh, isLetterCh, isDigitCh, List.map_cons, List.map_nil, List.contains_cons,
    List.contains_nil, Bool.or_eq_true, Bool.and_eq_true, decide_eq_true_eq, beq_iff_eq,
    Bool.false_eq_true, or_false, UInt8.le_iff_toNat_le, ← UInt8.toNat_inj] at word
  rw [UInt8.lt_iff_toNat_lt]
  have codes : 'Z'.toUInt8.toNat = 90 ∧ '9'.toUInt8.toNat = 57 ∧ '_'.toUInt8.toNat = 95 ∧
      '$'.toUInt8.toNat = 36 ∧ '#'.toUInt8.toNat = 35 := by decide
  change c.toNat < 128
  omega

theorem not_lt_of_high (n : ℕ) (high : 128 ≤ n) (byte : n < 256) : ¬ UInt8.ofNat n < 128 := by
  rw [UInt8.lt_iff_toNat_lt, UInt8.toNat_ofNat_of_lt' byte]
  exact not_lt_of_ge high

theorem map_of_ascii {chars : List Char}
    (ascii : ∀ b ∈ chars.flatMap String.utf8EncodeChar, b < 128) :
    chars.map Char.toUInt8 = chars.flatMap String.utf8EncodeChar := by
  induction chars with
  | nil => rfl
  | cons c chars ih =>
    have single : String.utf8EncodeChar c = [c.toUInt8] := by
      by_cases small : c.val.toNat ≤ 127
      · exact if_pos small
      · have lead := fun b inside => ascii b (List.mem_append_left _ inside)
        simp only [String.utf8EncodeChar, if_neg small] at lead
        split at lead
        · exact absurd (lead _ List.mem_cons_self) (not_lt_of_high _ (by omega) (by omega))
        split at lead
        · exact absurd (lead _ List.mem_cons_self) (not_lt_of_high _ (by omega) (by omega))
        · exact absurd (lead _ List.mem_cons_self) (not_lt_of_high _ (by omega) (by omega))
    rw [List.flatMap_cons, single, List.map_cons,
      ih fun b inside => ascii b (List.mem_append_right _ inside)]
    rfl

/-- What is encoded in bytes below 128 has a byte for each character. -/
theorem bytesOf_of_ascii {word : String} (ascii : ∀ b ∈ word.toByteArray.data.toList, b < 128) :
    bytesOf word = word.toByteArray.data.toList := by
  rw [← String.utf8Encode_toList, List.utf8Encode, List.toList_data_toByteArray] at ascii ⊢
  exact map_of_ascii ascii

/-- The literals are made of characters of words, but for one. -/
theorem words_wordLiterals : ∀ entry ∈ wordLiterals,
    entry.1.all isWordCh = true ∨
      entry = (bytesOf "WITH PARSER", .literal "WITH PARSER" (.other 579)) := by
  have encoded : ∀ entry ∈ literals,
      entry.1.toByteArray.data.toList.all isWordCh = true ∨ entry = ("WITH PARSER", .other 579) := by
    decide +kernel
  intro entry member
  obtain ⟨⟨word, type⟩, listed, rfl⟩ := List.mem_map.mp member
  rcases encoded _ listed with words | whole
  · have own : bytesOf word = word.toByteArray.data.toList :=
      bytesOf_of_ascii fun b inside => ascii_of_isWordCh (List.all_eq_true.mp words b inside)
    refine Or.inl ?_
    change (bytesOf word).all isWordCh = true
    rw [own]
    exact words
  · obtain ⟨rfl, rfl⟩ := Prod.mk.inj whole
    exact Or.inr rfl

theorem descend_with : (NestedSwitch.descendAll (bytesOf "WITH ") wordLiterals).head?.map Prod.snd =
    some (.literal "WITH PARSER" (.other 579)) := by
  have listed : ("WITH PARSER", TokenType.other 579) ∈ literals :=
    @List.mem_of_getElem? _ _ 14 _ rfl
  have member : (bytesOf "WITH PARSER", .literal "WITH PARSER" (.other 579)) ∈ wordLiterals :=
    List.mem_map.mpr ⟨_, listed, rfl⟩
  have halves : bytesOf "WITH PARSER" = bytesOf "WITH " ++ bytesOf "PARSER" := by decide
  rw [halves] at member
  have only : ∀ entry ∈ NestedSwitch.descendAll (bytesOf "WITH ") wordLiterals,
      entry.2 = .literal "WITH PARSER" (.other 579) := by
    rintro ⟨rest, rule⟩ below
    rcases words_wordLiterals _ (NestedSwitch.mem_descendAll.mp below) with words | entry
    · have blank : isWordCh ' '.toUInt8 = true :=
        List.all_eq_true.mp words _ (List.mem_append_left _ (by decide))
      cases blank
    · exact (Prod.mk.inj entry).2
  obtain ⟨entry, others, filled⟩ := List.exists_cons_of_ne_nil
    (List.ne_nil_of_mem (NestedSwitch.mem_descendAll.mpr member))
  rw [filled, List.head?_cons, Option.map_some, only entry (filled ▸ List.mem_cons_self)]

theorem word_iff {span rest : List UInt8} : Lexical.word span rest ↔
    startsWith (fun c => isLetterCh (toupper c)) span = true ∧
      longest (fun c => isWordCh (toupper c)) span rest := by
  constructor
  · rintro ⟨_, back, rfl, ⟨c, rfl, letter⟩, inside, ends⟩
    refine ⟨letter, fun d member => ?_, ends⟩
    rcases List.mem_cons.mp member with rfl | member
    · exact LexerState.isWordCh_of_isLetterCh letter
    · exact inside d member
  · rintro ⟨letter, inside, ends⟩
    cases span with
    | nil => cases letter
    | cons c span =>
      exact ⟨[c], span, rfl, ⟨c, rfl, letter⟩, fun d member => inside d (List.mem_cons_of_mem _ member),
        ends⟩

theorem longest_upper {set : UInt8 → Bool} {span rest : List UInt8}
    (own : longest (fun c => set (toupper c)) span rest) :
    longest set (upper span) (upper rest) := by
  refine ⟨fun c member => ?_, fun c next => ?_⟩
  · obtain ⟨d, inside, rfl⟩ := List.mem_map.mp member
    exact own.1 d inside
  · rw [upper, List.head?_map] at next
    obtain ⟨d, here, rfl⟩ := Option.map_eq_some_iff.mp next
    exact own.2 d here

theorem takeWhile_of_longest {set : UInt8 → Bool} {span rest : List UInt8}
    (own : longest set span rest) : (span ++ rest).takeWhile set = span := by
  rw [List.takeWhile_append_of_pos own.1]
  cases rest with
  | nil => exact List.append_nil _
  | cons c rest => rw [List.takeWhile_cons_of_neg (by simp [own.2 c rfl]), List.append_nil]

/-- The switches over letters look up the longest word, unless it is WITH in front of a blank. -/
theorem decision_word {span rest : List UInt8} (own : Lexical.word span rest) :
    NestedSwitch.decision isWordCh (upper (span ++ rest)) wordLiterals =
      if upper span = bytesOf "WITH" ∧ startsWith (Lexical.isCh ' ') rest = true then
        some (.literal "WITH PARSER" (.other 579))
      else wordLiterals.lookup (upper span) := by
  have whole : upper (span ++ rest) = upper span ++ upper rest := List.map_append
  have longest := longest_upper (word_iff.mp own).2
  have taken := takeWhile_of_longest longest
  have dropped := dropWhile_of_longest longest
  rw [whole]
  split
  · next both =>
    obtain ⟨isWith, blank⟩ := both
    cases rest with
    | nil => cases blank
    | cons c rest =>
      obtain rfl : c = ' '.toUInt8 := beq_iff_eq.mp blank
      have next : (upper (' '.toUInt8 :: rest)).head? = some ' '.toUInt8 := rfl
      have spelled : bytesOf "WITH" ++ [' '.toUInt8] = bytesOf "WITH " := by decide
      rw [NestedSwitch.decision_eq, taken, dropped, next, Option.bind_some, isWith, spelled,
        descend_with]
      rfl
  · next other =>
    rw [NestedSwitch.decision_eq_lookup, taken]
    intro c next behind name member
    rw [dropped] at next
    rw [taken] at member
    have ends := longest.2 c next
    rcases words_wordLiterals _ member with words | entry
    · have inside := List.all_eq_true.mp words c (by simp)
      rw [ends] at inside
      cases inside
    · have spelled : upper span ++ c :: behind = bytesOf "WITH PARSER" := (Prod.mk.inj entry).1
      have stops : ¬ isWordCh c = true := by simp [ends]
      have word := congrArg (List.takeWhile isWordCh) spelled
      rw [List.takeWhile_append_of_pos longest.1, List.takeWhile_cons_of_neg stops,
        List.append_nil] at word
      have isWith : upper span = bytesOf "WITH" := word.trans (by decide)
      rw [isWith] at spelled
      have halves : bytesOf "WITH PARSER" = bytesOf "WITH" ++ bytesOf " PARSER" := by decide
      have tail : c :: behind = bytesOf " PARSER" :=
        List.append_cancel_left (spelled.trans halves)
      have blank : c = ' '.toUInt8 := (List.cons.inj tail).1
      refine other ⟨isWith, ?_⟩
      cases rest with
      | nil => cases next
      | cons d rest =>
        obtain rfl : toupper d = c := Option.some.inj next
        exact beq_iff_eq.mpr ((toupper_eq_iff rfl).mp blank)

/-! ## At a sign -/

theorem toUInt8_charOf (c : UInt8) : (charOf c).toUInt8 = c := by
  have small := c.toNat_lt
  have valid : c.toNat.isValidChar := Or.inl (by omega)
  rw [charOf, Char.ofNat, dif_pos valid, ← UInt8.toNat_inj]
  change c.toNat % 256 = c.toNat
  omega

theorem digit_mem {c : UInt8} (digit : isDigitCh c = true) : charOf c ∈ Lexical.digitChs := by
  have bounds : '0'.toUInt8 = 48 ∧ '9'.toUInt8 = 57 := by decide
  rw [isDigitCh, Bool.and_eq_true, decide_eq_true_eq, decide_eq_true_eq, bounds.1, bounds.2,
    UInt8.le_iff_toNat_le, UInt8.le_iff_toNat_le] at digit
  obtain ⟨low, high⟩ := digit
  change 48 ≤ c.toNat at low
  change c.toNat ≤ 57 at high
  rw [charOf]
  generalize c.toNat = n at low high
  interval_cases n <;> decide

/-- An operator that is decided for is listed, and what comes next does not go on with it. -/
theorem listed_of_predictSign {c : Char} {next : Option Char} {spelling : String} {type : TokenType}
    (decided : predictSign c next = some (.literal spelling type)) :
    ∃ others, (spelling, type, others) ∈ Lexical.signs ∧
      (spelling.toList.length = 1 → ∀ d ∈ others, next ≠ some d) := by
  have digits : ∀ e ∈ Lexical.digitChs, isDigitCh e.toUInt8 = true := by decide
  unfold predictSign at decided
  split at decided
  case h_5 =>
    split at decided
    · cases decided
    · next d other digit =>
      obtain ⟨rfl, rfl⟩ := LexRule.literal.inj (Option.some.inj decided)
      refine ⟨'.' :: Lexical.digitChs, by simp [Lexical.signs], ?_⟩
      rintro - e member rfl
      rcases List.mem_cons.mp member with rfl | member
      · exact other rfl
      · exact digit (digits e member)
  all_goals cases decided
  all_goals
    first
    | exact ⟨[], by decide, nofun⟩
    | exact ⟨_, by simp [Lexical.signs]; rfl, by simp_all⟩

theorem predictSign_point {behind : Option UInt8}
    (ends : ∀ d ∈ '.' :: Lexical.digitChs, behind.map charOf ≠ some d) :
    predictSign '.' (behind.map charOf) = some (.literal "." .dot) := by
  cases behind with
  | none => rfl
  | some c =>
    have digit : ¬ isDigitCh (charOf c).toUInt8 = true := by
      rw [toUInt8_charOf]
      exact fun digit => ends _ (List.mem_cons_of_mem _ (digit_mem digit)) rfl
    exact (predictSign.eq_5 (some (charOf c)) (ends '.' List.mem_cons_self)).trans (if_neg digit)

/-- A listed operator is decided for where nothing goes on with it. -/
theorem predictSign_of_listed {spelling : String} {type : TokenType} {others : List Char}
    (listed : (spelling, type, others) ∈ Lexical.signs) {c : Char} {more : List Char}
    (chars : spelling.toList = c :: more) {behind : Option UInt8}
    (ends : ∀ d ∈ others, behind.map charOf ≠ some d) :
    predictSign c (more.head?.or (behind.map charOf)) = some (.literal spelling type) := by
  simp only [Lexical.signs, List.mem_cons, List.not_mem_nil, or_false, Prod.mk.injEq] at listed
  rcases listed with ⟨rfl, rfl, rfl⟩ | ⟨rfl, rfl, rfl⟩ | ⟨rfl, rfl, rfl⟩ | ⟨rfl, rfl, rfl⟩ |
    ⟨rfl, rfl, rfl⟩ | ⟨rfl, rfl, rfl⟩ | ⟨rfl, rfl, rfl⟩ | ⟨rfl, rfl, rfl⟩ | ⟨rfl, rfl, rfl⟩ |
    ⟨rfl, rfl, rfl⟩ | ⟨rfl, rfl, rfl⟩ | ⟨rfl, rfl, rfl⟩ | ⟨rfl, rfl, rfl⟩ | ⟨rfl, rfl, rfl⟩ |
    ⟨rfl, rfl, rfl⟩ | ⟨rfl, rfl, rfl⟩ | ⟨rfl, rfl, rfl⟩ | ⟨rfl, rfl, rfl⟩ | ⟨rfl, rfl, rfl⟩ |
    ⟨rfl, rfl, rfl⟩ | ⟨rfl, rfl, rfl⟩ | ⟨rfl, rfl, rfl⟩ | ⟨rfl, rfl, rfl⟩ | ⟨rfl, rfl, rfl⟩ |
    ⟨rfl, rfl, rfl⟩ | ⟨rfl, rfl, rfl⟩ | ⟨rfl, rfl, rfl⟩ | ⟨rfl, rfl, rfl⟩ | ⟨rfl, rfl, rfl⟩ |
    ⟨rfl, rfl, rfl⟩
  all_goals obtain ⟨rfl, rfl⟩ := List.cons.inj chars
  all_goals first
    | rfl
    | exact predictSign.eq_3 _ (ends '=' (by decide))
    | exact predictSign.eq_8 _ (ends '*' (by decide))
    | exact predictSign.eq_16 _ (ends '-' (by decide))
    | exact predictSign.eq_18 _ (ends '*' (by decide))
    | exact predictSign.eq_20 _ (ends '>' (by decide))
    | exact predictSign.eq_25 _ (ends '<' (by decide)) (ends '>' (by decide))
        (ends '=' (by decide))
    | exact predictSign.eq_28 _ (ends '>' (by decide)) (ends '=' (by decide))
    | exact predictSign.eq_30 _ (ends '|' (by decide))
    | exact predictSign_point ends

/-! ## The decision by the first character -/

theorem toupper_of_not_letter {c : UInt8} (other : isLetterCh (toupper c) = false) :
    toupper c = c := by
  have upper : 'A'.toUInt8 = 65 ∧ 'Z'.toUInt8 = 90 := by decide
  have lower : 'a'.toUInt8 = 97 ∧ 'z'.toUInt8 = 122 := by decide
  rw [isLetterCh, Bool.and_eq_false_iff, decide_eq_false_iff_not, decide_eq_false_iff_not] at other
  rw [toupper] at other ⊢
  split
  · next inside =>
    rw [if_pos inside] at other
    grind
  · rfl

/-- The switch over the first character. -/
theorem predicted_cons (c : UInt8) (tail : List UInt8) : predicted (c :: tail) =
    if isLetterCh (toupper c) then
      if toupper c = 'Q'.toUInt8 ∧ startsWith (Lexical.isCh '\'') tail then some .qstring
      else some ((NestedSwitch.decision isWordCh (upper (c :: tail)) wordLiterals).getD .id)
    else if c = '\''.toUInt8 then
      (predictQuote (tail.map (charOf ∘ toupper))).map QuoteRule.lexRule
    else if c = '"'.toUInt8 then some .id
    else if c = '`'.toUInt8 then
      if tail.isEmpty then some (.literal "`" (.other 560)) else some .id
    else if isDigitCh c then some .number
    else if isBlankCh c then some .ws
    else predictSign (charOf c) ((tail.head?.map toupper).map charOf) := by
  have quote : (tail.map toupper).head? = some '\''.toUInt8 ↔
      startsWith (Lexical.isCh '\'') tail = true := by
    cases tail with
    | nil => simp [startsWith]
    | cons d tail =>
      rw [List.map_cons, List.head?_cons, Option.some_inj, toupper_eq_iff rfl]
      exact beq_iff_eq.symm
  have whole : LexerState.ahead ⟨.ucase, c :: tail, false⟩ = toupper c :: tail.map toupper := rfl
  rw [predicted, LexerState.predict, whole]
  dsimp only
  cases letter : isLetterCh (toupper c) with
  | true =>
    simp only [if_true, quote]
    rfl
  | false =>
    have plain := toupper_of_not_letter letter
    have notLower : ¬ c = 'q'.toUInt8 := plain ▸ toupper_ne (by decide)
    simp only [plain, Bool.false_eq_true, if_false, notLower, List.map_map, List.isEmpty_map,
      List.head?_map]

section Letters

variable {c : UInt8} {behind span rest : List UInt8}

theorem predicted_letter (letter : isLetterCh (toupper c) = true) : predicted (c :: behind) =
    if toupper c = 'Q'.toUInt8 ∧ startsWith (Lexical.isCh '\'') behind then some .qstring
    else some ((NestedSwitch.decision isWordCh (upper (c :: behind)) wordLiterals).getD .id) := by
  rw [predicted_cons, if_pos letter]

theorem upper_eq_singleton {d : Char} : upper span = [d.toUInt8] ↔
    ∃ c, span = [c] ∧ toupper c = d.toUInt8 := by
  rw [upper, List.map_eq_singleton_iff]

/-- A letter in front of a quote is a word of its own. -/
theorem q_quote_iff (own : Lexical.word (c :: span) rest) :
    toupper c = 'Q'.toUInt8 ∧ startsWith (Lexical.isCh '\'') (span ++ rest) = true ↔
      upper (c :: span) = bytesOf "Q" ∧ startsWith (Lexical.isCh '\'') rest = true := by
  have word := (word_iff.mp own).2
  constructor
  · rintro ⟨letter, quote⟩
    cases span with
    | nil => exact ⟨congrArg (fun d => [d]) letter, quote⟩
    | cons d span =>
      obtain rfl : d = '\''.toUInt8 := beq_iff_eq.mp quote
      have inside := word.1 '\''.toUInt8 (by simp)
      cases inside
  · rintro ⟨spelled, quote⟩
    obtain ⟨_, same, letter⟩ := upper_eq_singleton.mp spelled
    obtain ⟨rfl, rfl⟩ := List.cons.inj same
    exact ⟨letter, quote⟩

theorem predicted_word (own : Lexical.word span rest)
    (noString : ¬ (upper span = bytesOf "Q" ∧ startsWith (Lexical.isCh '\'') rest = true)) :
    predicted (span ++ rest) =
      some ((if upper span = bytesOf "WITH" ∧ startsWith (Lexical.isCh ' ') rest = true then
        some (.literal "WITH PARSER" (.other 579))
      else wordLiterals.lookup (upper span)).getD .id) := by
  have decision := decision_word own
  cases span with
  | nil => exact absurd (word_iff.mp own).1 Bool.false_ne_true
  | cons c span =>
    rw [List.cons_append, predicted_letter (word_iff.mp own).1,
      if_neg (mt (q_quote_iff own).mp noString), ← List.cons_append, decision]

/-- A literal that is looked up is spelled as it was looked up. -/
theorem language_lookup {word : List UInt8} (own : Lexical.word span rest)
    (spelled : upper span = word) : languageOf ((wordLiterals.lookup word).getD .id) span rest := by
  cases found : wordLiterals.lookup word with
  | none =>
    cases span with
    | nil => exact absurd (word_iff.mp own).1 Bool.false_ne_true
    | cons c span =>
      change identifier (c :: span) rest
      rw [identifier, choice, if_pos]
      · exact own
      · exact (word_iff.mp own).1
  | some rule =>
    obtain ⟨spelling, type, rfl, bytes, -⟩ :=
      LexerState.mem_wordLiterals (NestedSwitch.mem_of_lookup found)
    exact spelled.trans bytes

/-- The literal with a blank starts with a word. -/
theorem split_withParser (rest : List UInt8) (spelled : upper span = bytesOf "WITH PARSER") :
    ∃ word behind, span = word ++ behind ∧ upper word = bytesOf "WITH" ∧
      startsWith (Lexical.isCh ' ') behind = true ∧ Lexical.word word (behind ++ rest) := by
  have halves : bytesOf "WITH PARSER" = bytesOf "WITH" ++ ' '.toUInt8 :: bytesOf "PARSER" := by
    decide
  rw [halves] at spelled
  obtain ⟨word, _, rfl, isWith, tail⟩ := List.map_eq_append_iff.mp spelled
  obtain ⟨blank, behind, rfl, isBlank, -⟩ := List.map_eq_cons_iff.mp tail
  obtain rfl := (toupper_eq_iff rfl).mp isBlank
  refine ⟨word, _, rfl, isWith, rfl, word_iff.mpr ⟨?_, fun d member => ?_, fun d next => ?_⟩⟩
  · obtain ⟨w, more, rfl, letter, -⟩ := List.map_eq_cons_iff.mp
      (isWith.trans (show bytesOf "WITH" = 'W'.toUInt8 :: bytesOf "ITH" by decide))
    change isLetterCh (toupper w) = true
    rw [letter]
    rfl
  · have inside : toupper d ∈ bytesOf "WITH" := isWith ▸ List.mem_map_of_mem member
    have all : ∀ e ∈ bytesOf "WITH", isWordCh e = true := by decide
    exact all _ inside
  · obtain rfl := Option.some.inj next
    rfl

end Letters

/-! ## Tokens are decided for -/

section Decided

variable {rule : LexRule} {c : UInt8} {span tail rest : List UInt8}

theorem not_letter_of_digit (digit : isDigitCh c = true) : isLetterCh (toupper c) = false := by
  rw [← caseless_isDigitCh c] at digit
  have digits : '0'.toUInt8 = 48 ∧ '9'.toUInt8 = 57 := by decide
  have letters : 'A'.toUInt8 = 65 ∧ 'Z'.toUInt8 = 90 := by decide
  rw [isDigitCh, Bool.and_eq_true, decide_eq_true_eq, decide_eq_true_eq] at digit
  rw [isLetterCh, Bool.and_eq_false_iff, decide_eq_false_iff_not, decide_eq_false_iff_not]
  grind

theorem predicted_digit (digit : isDigitCh c = true) : predicted (c :: tail) = some .number := by
  have ne (d : Char) (other : isDigitCh d.toUInt8 = false) : c ≠ d.toUInt8 := by
    rintro rfl
    rw [other] at digit
    cases digit
  rw [predicted_cons, if_neg (by simp [not_letter_of_digit digit]), if_neg (ne '\'' rfl),
    if_neg (ne '"' rfl), if_neg (ne '`' rfl), if_pos digit]

/-- The characters that only the last switch knows. -/
def isSign (c : UInt8) : Bool :=
  !(isLetterCh (toupper c) || isDigitCh c || isBlankCh c ||
    (['\'', '"', '`'].map Char.toUInt8).contains c)

theorem predicted_sign (sign : isSign c = true) :
    predicted (c :: tail) = predictSign (charOf c) ((tail.head?.map toupper).map charOf) := by
  simp only [isSign, Bool.not_eq_true', Bool.or_eq_false_iff, List.map_cons, List.map_nil,
    List.contains_cons, List.contains_nil, beq_eq_false_iff_ne, Bool.or_false] at sign
  obtain ⟨⟨⟨letter, digit⟩, blank⟩, quote, doublequote, backtick⟩ := sign
  rw [predicted_cons, if_neg (by simp [letter]), if_neg quote, if_neg doublequote, if_neg backtick,
    if_neg (by simp [digit]), if_neg (by simp [blank])]

/-- A number starts with a digit, or with a point and a digit. -/
theorem starts_number (number : Lexical.number span rest) :
    (∃ c behind, span = c :: behind ∧ isDigitCh c = true) ∨
      ∃ c behind, span = '.'.toUInt8 :: c :: behind ∧ isDigitCh c = true := by
  have first {span rest : List UInt8} (digits : Lexical.digits span rest) :
      ∃ c behind, span = c :: behind ∧ isDigitCh c = true := by
    obtain ⟨_, behind, rfl, ⟨c, rfl, digit⟩, -⟩ := digits
    exact ⟨c, behind, rfl, digit⟩
  obtain ⟨mantissa, behind, rfl, own, -⟩ := number
  rw [Lexical.mantissa, choice] at own
  split at own
  · obtain ⟨_, fraction, rfl, point, digits⟩ := own
    obtain ⟨c, more, rfl, digit⟩ := first digits
    rw [single_isCh_iff.mp point]
    exact Or.inr ⟨c, more ++ behind, by simp, digit⟩
  · have digits : ∃ c more, mantissa = c :: more ∧ isDigitCh c = true := by
      rw [choice] at own
      split at own
      · obtain ⟨whole, fraction, rfl, digits, -⟩ := own
        obtain ⟨c, more, rfl, digit⟩ := first digits
        exact ⟨c, more ++ fraction, rfl, digit⟩
      · exact first own
    obtain ⟨c, more, rfl, digit⟩ := digits
    exact Or.inl ⟨c, more ++ behind, rfl, digit⟩

theorem predicted_number (number : Lexical.number span rest) :
    predicted (span ++ rest) = some .number := by
  rcases starts_number number with ⟨c, behind, rfl, digit⟩ | ⟨c, behind, rfl, digit⟩
  · exact predicted_digit digit
  · have same : toupper c = c := toupper_of_not_letter (not_letter_of_digit digit)
    have other : charOf c ≠ '.' := by
      intro point
      rw [(charOf_eq_iff (by decide)).mp point] at digit
      cases digit
    rw [List.cons_append, predicted_sign (by decide), List.cons_append, List.head?_cons,
      Option.map_some, Option.map_some, same]
    have named : (some (charOf c)).any (isDigitCh ·.toUInt8) = true := by
      rwa [Option.any_some, toUInt8_charOf]
    exact (predictSign.eq_5 (some (charOf c)) fun same => other (Option.some.inj same)).trans
      (if_pos named)

theorem starts_enclosed {quote : Char} (own : Lexical.enclosed quote span rest) :
    ∃ c behind, span = quote.toUInt8 :: c :: behind := by
  obtain ⟨_, _, rfl, opening, content, _, rfl, -, closing⟩ := own
  rw [single_isCh_iff.mp opening, single_isCh_iff.mp closing]
  cases content with
  | nil => exact ⟨_, [], rfl⟩
  | cons c content => exact ⟨c, content ++ [quote.toUInt8], rfl⟩

theorem dateBehind_eq : dateBehind = day.map Char.toUInt8 ++ ['\''.toUInt8] :=
  List.map_append

theorem timestampBehind_eq :
    timestampBehind = (day ++ ' ' :: clock).map Char.toUInt8 ++ ['\''.toUInt8] := by
  decide

theorem date_eq : bytesOf "'0000-00-00'" = '\''.toUInt8 :: dateBehind := by
  decide

theorem timestamp_eq : bytesOf "'0000-00-00 00:00:00'" = '\''.toUInt8 :: timestampBehind := by
  decide

theorem not_dateBehind_timestamp : ¬ dateBehind <+: timestampBehind ++ rest := by
  intro early
  have inside := List.prefix_of_prefix_length_le early (List.prefix_append timestampBehind rest)
    (by decide)
  revert inside
  decide

theorem predicted_quote (filled : tail ≠ []) : predicted ('\''.toUInt8 :: tail) =
    (if dateBehind <+: tail then some .stupidMysqlDate
      else if timestampBehind <+: tail then some .stupidMysqlTimestamp
      else if tail <+: (day ++ ' ' :: clock).map Char.toUInt8 then none
      else some .quotedString).map QuoteRule.lexRule := by
  rw [predicted_cons, ← predictQuote_eq .ucase filled]
  rfl

theorem predicted_quotedString (string : Lexical.quotedString span rest)
    (noDate : ∀ date ∈ Lexical.zeroDates, span ≠ bytesOf date.1) :
    predicted (span ++ rest) = some .quotedString := by
  obtain ⟨body, rfl, escaped, last⟩ := string
  have closes : Closes body rest := ⟨escaped, last⟩
  have whole : '\''.toUInt8 :: (body ++ ['\''.toUInt8]) ++ rest =
      '\''.toUInt8 :: (body ++ '\''.toUInt8 :: rest) := by simp
  rw [whole, predicted_quote (by simp)]
  rw [if_neg, if_neg, if_neg]
  · rfl
  · exact not_prefix_of_closes (by decide)
  · intro early
    rw [timestampBehind_eq] at early
    have same := eq_of_closes closes (by decide) early
    refine noDate ("'0000-00-00 00:00:00'", .stupidMysqlTimestamp) (by decide) ?_
    rw [same, timestamp_eq, timestampBehind_eq]
  · intro early
    rw [dateBehind_eq] at early
    have same := eq_of_closes closes (by decide) early
    refine noDate ("'0000-00-00'", .stupidMysqlDate) (by decide) ?_
    rw [same, date_eq, dateBehind_eq]

theorem predicted_zeroDate {spelling : String} {type : TokenType}
    (date : (spelling, type) ∈ Lexical.zeroDates) :
    predicted (bytesOf spelling ++ rest) = some (.literal spelling type) := by
  simp only [Lexical.zeroDates, List.mem_cons, List.not_mem_nil, or_false, Prod.mk.injEq] at date
  rcases date with ⟨rfl, rfl⟩ | ⟨rfl, rfl⟩
  · rw [date_eq, List.cons_append, predicted_quote (by simp [dateBehind]),
      if_pos (List.prefix_append _ _)]
    rfl
  · rw [timestamp_eq, List.cons_append, predicted_quote (by simp [timestampBehind]),
      if_neg not_dateBehind_timestamp, if_pos (List.prefix_append _ _)]
    rfl

theorem starts_qstring (string : Lexical.qstring span rest) :
    ∃ q behind, span = q :: '\''.toUInt8 :: behind ∧ toupper q = 'Q'.toUInt8 := by
  obtain ⟨q, behind, rfl, letter, rule, own⟩ := qstring_iff.mp string
  cases rule with
  | angle | brace | brack | paren =>
    obtain ⟨body, rfl⟩ := starts_bracketed own
    exact ⟨q, _, rfl, letter⟩
  | other =>
    obtain ⟨c, body, rfl, -⟩ := own
    exact ⟨q, _, rfl, letter⟩

theorem predicted_qstring (string : Lexical.qstring span rest) :
    predicted (span ++ rest) = some .qstring := by
  obtain ⟨q, behind, rfl, letter⟩ := starts_qstring string
  rw [List.cons_append, predicted_letter (by rw [letter]; rfl), if_pos ⟨letter, rfl⟩]

theorem literal_iff {spelling : String} {type : TokenType}
    (noLetter : (bytesOf spelling).any isLetter = false) :
    languageOf (.literal spelling type) span rest ↔ span = bytesOf spelling := by
  change reading toupper (bytesOf spelling) span rest ↔ _
  exact reading_iff noLetter

theorem signs_plain : ∀ row ∈ Lexical.signs, Plain row.1.toList ∧ Plain row.2.2 ∧
    (row.1.toList.head?.any fun c => isSign c.toUInt8) = true ∧
    (row.1.toList.length = 1 ∨ row.2.2 = []) := by
  decide

theorem charOf_toupper {d : Char} (ascii : d.toNat < 256) (noLetter : isLetter d.toUInt8 = false) :
    charOf (toupper d.toUInt8) = d :=
  (charOf_eq_iff ascii).mpr ((toupper_eq_iff noLetter).mpr rfl)

theorem starts_isCh_iff {d : Char} (ascii : d.toNat < 256) (noLetter : isLetter d.toUInt8 = false) :
    startsWith (Lexical.isCh d) rest = true ↔ (rest.head?.map toupper).map charOf = some d := by
  cases rest with
  | nil => simp [startsWith]
  | cons c rest =>
    rw [List.head?_cons, Option.map_some, Option.map_some, Option.some_inj, charOf_eq_iff ascii,
      toupper_eq_iff noLetter]
    exact beq_iff_eq

theorem predicted_listed {spelling : String} {type : TokenType} {others : List Char}
    (listed : (spelling, type, others) ∈ Lexical.signs)
    (ends : ∀ c ∈ others, ¬ startsWith (Lexical.isCh c) rest = true) :
    predicted (bytesOf spelling ++ rest) = some (.literal spelling type) := by
  obtain ⟨plain, plainOthers, sign, -⟩ := signs_plain _ listed
  dsimp only at plain plainOthers sign
  have run (c : Char) (more : List Char) (chars : spelling.toList = c :: more) :
      predictSign c (more.head?.or ((rest.head?.map toupper).map charOf)) =
        some (.literal spelling type) :=
    predictSign_of_listed listed chars fun d member =>
      mt (starts_isCh_iff (plainOthers d member).1 (plainOthers d member).2).mpr (ends d member)
  rw [bytesOf]
  cases chars : spelling.toList with
  | nil =>
    rw [chars] at sign
    cases sign
  | cons c more =>
    rw [chars] at plain sign
    obtain ⟨ascii, -⟩ := plain c List.mem_cons_self
    rw [List.map_cons, List.cons_append, predicted_sign sign, (charOf_eq_iff ascii).mpr rfl,
      ← run c more chars]
    cases more with
    | nil => rfl
    | cons d more =>
      obtain ⟨ascii, noLetter⟩ := plain d (by simp)
      rw [List.map_cons, List.cons_append, List.head?_cons, Option.map_some, Option.map_some,
        charOf_toupper ascii noLetter]
      rfl

/-- Whatever the grammar has for a token is decided for, and matched by the rule of the decision. -/
theorem predicted_of_isToken (token : IsToken rule span rest) :
    predicted (span ++ rest) = some rule ∧ languageOf rule span rest := by
  cases token with
  | word own noString noParser =>
    refine ⟨?_, language_lookup own rfl⟩
    rw [predicted_word own noString, if_neg noParser]
  | withParser spelled =>
    refine ⟨?_, spelled⟩
    obtain ⟨word, behind, rfl, isWith, blank, own⟩ := split_withParser rest spelled
    have blankBehind : startsWith (Lexical.isCh ' ') (behind ++ rest) = true := by
      cases behind with
      | nil => cases blank
      | cons c behind => exact blank
    have noString : ¬ (upper word = bytesOf "Q" ∧
        startsWith (Lexical.isCh '\'') (behind ++ rest) = true) := by
      rintro ⟨isQ, -⟩
      rw [isWith] at isQ
      revert isQ
      decide
    rw [List.append_assoc, predicted_word own noString, if_pos ⟨isWith, blankBehind⟩]
    rfl
  | doublequoted quoted =>
    obtain ⟨c, behind, rfl⟩ := starts_enclosed quoted
    exact ⟨by rw [List.cons_append, predicted_cons]; rfl, quoted⟩
  | backquoted quoted =>
    obtain ⟨c, behind, rfl⟩ := starts_enclosed quoted
    exact ⟨by rw [List.cons_append, predicted_cons]; rfl, quoted⟩
  | backtick => exact ⟨by rw [List.append_nil, predicted_cons]; rfl, rfl⟩
  | number number => exact ⟨predicted_number number, number⟩
  | quotedString string noDate => exact ⟨predicted_quotedString string noDate, string⟩
  | zeroDate date =>
    have plain : ∀ date ∈ Lexical.zeroDates, (bytesOf date.1).any isLetter = false := by decide
    exact ⟨predicted_zeroDate date, (literal_iff (plain _ date)).mpr rfl⟩
  | quote => exact ⟨by rw [List.append_nil, predicted_cons]; rfl, rfl⟩
  | qstring string => exact ⟨predicted_qstring string, string⟩
  | @ws c _ blank =>
    refine ⟨?_, c, rfl, blank⟩
    have blanks : c ∈ [' ', '\r', '\t', '\n'].map Char.toUInt8 := List.contains_iff_mem.mp blank
    simp only [List.map_cons, List.map_nil, List.mem_cons, List.not_mem_nil, or_false] at blanks
    rcases blanks with rfl | rfl | rfl | rfl <;> (rw [List.cons_append, predicted_cons]; rfl)
  | slComment comment =>
    refine ⟨?_, comment⟩
    obtain ⟨_, line, rfl, opening, -⟩ := comment
    obtain rfl := (reading_iff (by decide)).mp opening
    rw [List.append_assoc]
    exact (predicted_sign (by decide)).trans rfl
  | mysqlComment comment =>
    refine ⟨?_, comment⟩
    obtain ⟨_, line, rfl, opening, -⟩ := comment
    rw [single_isCh_iff.mp opening, List.append_assoc]
    exact (predicted_sign (by decide)).trans rfl
  | mlComment comment =>
    refine ⟨?_, comment⟩
    obtain ⟨_, line, rfl, opening, -⟩ := comment
    obtain rfl := (reading_iff (by decide)).mp opening
    rw [List.append_assoc]
    exact (predicted_sign (by decide)).trans rfl
  | sign listed ends =>
    have plain : ∀ row ∈ Lexical.signs, (bytesOf row.1).any isLetter = false := by decide
    exact ⟨predicted_listed listed ends, (literal_iff (plain _ listed)).mpr rfl⟩

/-! ## What is decided for and matched is a token -/

theorem language_predictSign {d : Char} {next : Option Char} (decided : predictSign d next = some rule)
    (own : languageOf rule span rest)
    (token : ∀ spelling type, rule = .literal spelling type → IsToken rule span rest) :
    IsToken rule span rest := by
  cases rule with
  | literal spelling type => exact token spelling type rfl
  | number => exact .number own
  | slComment => exact .slComment own
  | mysqlComment => exact .mysqlComment own
  | mlComment => exact .mlComment own
  | id | quotedString | qstring | ws =>
    unfold predictSign at decided
    split at decided <;> first | cases decided | (split at decided <;> cases decided)

theorem eq_of_longest {set : UInt8 → Bool} {word behind : List UInt8} (ownSpan : longest set span rest)
    (ownWord : longest set word behind) (same : span ++ rest = word ++ behind) : span = word := by
  rw [← takeWhile_of_longest ownSpan, same, takeWhile_of_longest ownWord]

theorem isToken_letter (letter : isLetterCh (toupper c) = true) (whole : span ++ rest = c :: tail)
    (decided : predicted (span ++ rest) = some rule) (own : languageOf rule span rest) :
    IsToken rule span rest := by
  have starts : startsWith (fun c => isLetterCh (toupper c)) (span ++ rest) = true := by
    rw [whole]
    exact letter
  by_cases string : toupper c = 'Q'.toUInt8 ∧ startsWith (Lexical.isCh '\'') tail = true
  · rw [whole, predicted_letter letter, if_pos string] at decided
    obtain rfl := Option.some.inj decided
    exact .qstring own
  · -- The longest word in front is what the switches look up.
    obtain ⟨word, behind, cut, ownWord⟩ : ∃ word behind, span ++ rest = word ++ behind ∧
        Lexical.word word behind := by
      refine ⟨_, _, (List.takeWhile_append_dropWhile (p := fun c => isWordCh (toupper c))).symm,
        word_iff.mpr ⟨?_, longest_takeWhile _ _⟩⟩
      rw [whole, List.takeWhile_cons, if_pos (LexerState.isWordCh_of_isLetterCh letter)]
      exact letter
    have noString : ¬ (upper word = bytesOf "Q" ∧
        startsWith (Lexical.isCh '\'') behind = true) := by
      cases word with
      | nil => exact absurd (word_iff.mp ownWord).1 Bool.false_ne_true
      | cons d word =>
        obtain ⟨rfl, rfl⟩ := List.cons.inj (whole.symm.trans cut)
        exact mt (q_quote_iff ownWord).mpr string
    rw [cut, predicted_word ownWord noString] at decided
    obtain rfl := Option.some.inj decided
    split at own
    · next parser =>
      rw [if_pos parser]
      exact .withParser own
    · next noParser =>
      rw [if_neg noParser]
      have same : span = word := by
        cases found : wordLiterals.lookup (upper word) with
        | none =>
          rw [found] at own
          change identifier span rest at own
          rw [identifier, choice, if_pos starts] at own
          exact eq_of_longest (word_iff.mp own).2 (word_iff.mp ownWord).2 cut
        | some literal =>
          obtain ⟨spelling, type, rfl, bytes, -⟩ :=
            LexerState.mem_wordLiterals (NestedSwitch.mem_of_lookup found)
          rw [found] at own
          have spelled : upper span = upper word := own.trans bytes.symm
          have length := congrArg List.length spelled
          rw [upper, upper, List.length_map, List.length_map] at length
          exact (List.append_inj cut length).1
      subst same
      obtain rfl := List.append_cancel_left cut
      exact .word ownWord noString noParser

theorem isToken_quote (whole : span ++ rest = '\''.toUInt8 :: tail)
    (decided : predicted (span ++ rest) = some rule) (own : languageOf rule span rest) :
    IsToken rule span rest := by
  rw [whole] at decided
  cases tail with
  | nil =>
    obtain rfl : LexRule.literal "'" .quote = rule :=
      Option.some.inj ((predicted_cons _ _).symm.trans decided)
    obtain rfl := (literal_iff (by decide)).mp own
    obtain rfl := (List.cons.inj whole).2
    exact .quote
  | cons d tail =>
    rw [predicted_quote (List.cons_ne_nil _ _)] at decided
    split at decided
    · obtain rfl := Option.some.inj decided
      obtain rfl := (literal_iff (by decide)).mp own
      exact .zeroDate (by decide)
    · next noDate =>
      split at decided
      · obtain rfl := Option.some.inj decided
        obtain rfl := (literal_iff (by decide)).mp own
        exact .zeroDate (by decide)
      · next noTimestamp =>
        split at decided
        · cases decided
        · obtain rfl := Option.some.inj decided
          refine .quotedString own ?_
          intro date member same
          simp only [Lexical.zeroDates, List.mem_cons, List.not_mem_nil, or_false] at member
          rcases member with rfl | rfl
          · rw [same, date_eq, List.cons_append] at whole
            exact noDate ⟨rest, (List.cons.inj whole).2⟩
          · rw [same, timestamp_eq, List.cons_append] at whole
            exact noTimestamp ⟨rest, (List.cons.inj whole).2⟩

theorem isToken_sign (sign : isSign c = true) (whole : span ++ rest = c :: tail)
    (decided : predicted (span ++ rest) = some rule) (own : languageOf rule span rest) :
    IsToken rule span rest := by
  rw [whole, predicted_sign sign] at decided
  refine language_predictSign decided own ?_
  rintro spelling type rfl
  obtain ⟨others, listed, ends⟩ := listed_of_predictSign decided
  obtain ⟨plain, plainOthers, -, short⟩ := signs_plain _ listed
  have noLetter : ∀ row ∈ Lexical.signs, (bytesOf row.1).any isLetter = false := by decide
  obtain rfl := (literal_iff (noLetter _ listed)).mp own
  refine .sign listed fun d member => ?_
  rcases short with short | none
  · obtain ⟨ascii, letter⟩ := plainOthers d member
    rw [starts_isCh_iff ascii letter]
    dsimp only at short
    have behind : rest = tail := by
      obtain ⟨e, chars⟩ := List.length_eq_one_iff.mp short
      rw [bytesOf, chars] at whole
      exact (List.cons.inj whole).2
    rw [behind]
    exact ends short d member
  · dsimp only at none
    rw [none] at member
    cases member

theorem identifier_doublequoted (whole : span ++ rest = '"'.toUInt8 :: tail)
    (own : identifier span rest) : Lexical.enclosed '"' span rest := by
  rw [identifier, choice, if_neg (by rw [whole]; exact Bool.false_ne_true), choice,
    if_pos (by rw [whole]; rfl)] at own
  exact own

theorem identifier_backquoted (whole : span ++ rest = '`'.toUInt8 :: tail)
    (own : identifier span rest) : Lexical.enclosed '`' span rest := by
  rw [identifier, choice, if_neg (by rw [whole]; exact Bool.false_ne_true), choice,
    if_neg (by rw [whole]; exact Bool.false_ne_true), choice, if_pos (by rw [whole]; rfl)] at own
  exact own

/-- What is decided for and matched is a token of the grammar. -/
theorem isToken_of_predicted (decided : predicted (span ++ rest) = some rule)
    (own : languageOf rule span rest) : IsToken rule span rest := by
  cases whole : span ++ rest with
  | nil =>
    rw [whole] at decided
    cases decided
  | cons c tail =>
    by_cases letter : isLetterCh (toupper c) = true
    · exact isToken_letter letter whole decided own
    · by_cases quote : c = '\''.toUInt8
      · subst quote
        exact isToken_quote whole decided own
      · by_cases doublequote : c = '"'.toUInt8
        · subst doublequote
          rw [whole, predicted_cons] at decided
          obtain rfl : LexRule.id = rule := Option.some.inj decided
          exact .doublequoted (identifier_doublequoted whole own)
        · by_cases backtick : c = '`'.toUInt8
          · subst backtick
            rw [whole, predicted_cons] at decided
            cases tail with
            | nil =>
              obtain rfl : LexRule.literal "`" (.other 560) = rule := Option.some.inj decided
              obtain rfl := (literal_iff (by decide)).mp own
              obtain rfl := (List.cons.inj whole).2
              exact .backtick
            | cons d tail =>
              obtain rfl : LexRule.id = rule := Option.some.inj decided
              exact .backquoted (identifier_backquoted whole own)
          · by_cases digit : isDigitCh c = true
            · rw [whole, predicted_digit digit] at decided
              obtain rfl := Option.some.inj decided
              exact .number own
            · by_cases blank : isBlankCh c = true
              · rw [whole, predicted_cons, if_neg letter, if_neg quote, if_neg doublequote,
                  if_neg backtick, if_neg digit, if_pos blank] at decided
                obtain rfl := Option.some.inj decided
                obtain ⟨d, rfl, own⟩ := own
                exact .ws own
              · refine isToken_sign ?_ whole decided own
                simp [isSign, letter, digit, blank, quote, doublequote, backtick]

/-- The tokens of the grammar are what the lexer decides for and matches. -/
theorem isToken_iff : IsToken rule span rest ↔
    predicted (span ++ rest) = some rule ∧ languageOf rule span rest :=
  ⟨predicted_of_isToken, fun both => isToken_of_predicted both.1 both.2⟩

end Decided

end Pgify.TokenLanguages
