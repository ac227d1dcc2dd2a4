import Pgify.Lib.QuotedName
import Pgify.Model.NameLexer
import Pgify.Model.TreeWalk

/-! # Backquoted identifiers in both dialects

MySQL doubles a backtick inside a backquoted identifier, PostgreSQL a double quote inside a quoted
one. The lexer ends its token at the first backtick and puts the characters in between behind a
double quote as they are. So the name survives exactly when neither quote character is in it.
-/

namespace Pgify.Backquotes

open Model QuotedName

/-- What is taken of the lower-casing: a double quote has no case, and a name is lowered between
double quotes as it is without them. -/
structure LowersNames (utf8Strdown : String → String) : Prop where
  quoted : ∀ name, utf8Strdown ("\"" ++ name ++ "\"") = "\"" ++ utf8Strdown name ++ "\""
  quote_mem : ∀ name, '"' ∈ (utf8Strdown name).toList ↔ '"' ∈ name.toList

/-- The name that the options ask for. -/
def wantedName (rt : Runtime) (options : ℕ) (name : List Char) : List Char :=
  if pgifyIsLowerid options then (rt.utf8Strdown (String.ofList name)).toList else name

/-- The identifier in front of the rest is one ID token, and PostgreSQL reads the wanted name from
its text. -/
def RoundTrips (rt : Runtime) (options : ℕ) (input name rest : List Char) : Prop :=
  ∃ lexeme, nextTokenAtBacktick rt options input = some (lexeme, rest) ∧ lexeme.type = .id ∧
    read '"' lexeme.text.toList = some (wantedName rt options name, [])

/-- The name that PostgreSQL reads from the text of the first token. -/
def postgresName (rt : Runtime) (options : ℕ) (input : List Char) : Option (List Char) :=
  (nextTokenAtBacktick rt options input).bind fun (lexeme, _) =>
    (read '"' lexeme.text.toList).map Prod.fst

/-- Neither quote character occurs. -/
def Plain (name : List Char) : Prop :=
  '`' ∉ name ∧ '"' ∉ name

instance (name : List Char) : Decidable (Plain name) :=
  inferInstanceAs (Decidable (_ ∧ _))

/-! ## The token -/

theorem backquotedBody_content {content : List Char} (absent : '`' ∉ content) (rest : List Char) :
    backquotedBody (content ++ '`' :: rest) = some (content, rest) := by
  induction content with
  | nil => rfl
  | cons c content ih =>
    have other : c ≠ '`' := fun same => absent (by rw [same]; exact List.mem_cons_self)
    have inside := ih fun member => absent (List.mem_cons_of_mem _ member)
    rw [List.cons_append, backquotedBody, if_neg other, inside]
    rfl

/-- The token ends at the first backtick. -/
theorem nextTokenAtBacktick_content (rt : Runtime) (options : ℕ) {content : List Char}
    (absent : '`' ∉ content) (rest : List Char) :
    nextTokenAtBacktick rt options ('`' :: content ++ '`' :: rest) =
      some (⟨.id, '`' :: content ++ ['`'],
        backquotedText rt options (String.ofList ('`' :: content ++ ['`']))⟩, rest) := by
  have long : 1 < ('`' :: content ++ '`' :: rest).length := by
    simp only [List.cons_append, List.length_append, List.length_cons]
    omega
  rw [nextTokenAtBacktick, if_pos long, List.cons_append, mBackquotedString, if_pos rfl,
    backquotedBody_content absent rest]
  rfl

/-- Its text has the wanted name between double quotes. -/
theorem backquotedText_span {rt : Runtime} (lowers : LowersNames rt.utf8Strdown) (options : ℕ)
    (content : List Char) :
    (backquotedText rt options (String.ofList ('`' :: content ++ ['`']))).toList =
      '"' :: wantedName rt options content ++ ['"'] := by
  have inner : subString (String.ofList ('`' :: content ++ ['`'])) 1
      ((String.ofList ('`' :: content ++ ['`'])).length - 1) = String.ofList content := by
    rw [subString, String.toList_ofList, String.length_ofList]
    simp
  rw [backquotedText, inner, wantedName]
  cases pgifyIsLowerid options with
  | false => simp
  | true => simp [lowers.quoted]

theorem quote_mem_wantedName {rt : Runtime} (lowers : LowersNames rt.utf8Strdown) (options : ℕ)
    (name : List Char) : '"' ∈ wantedName rt options name ↔ '"' ∈ name := by
  rw [wantedName]
  split
  · simp [lowers.quote_mem]
  · rfl

/-! ## The name -/

/-- PostgreSQL reads the name from the text unless a double quote is in it. -/
theorem read_backquotedText_iff {rt : Runtime} (lowers : LowersNames rt.utf8Strdown)
    (options : ℕ) (name : List Char) :
    read '"' (backquotedText rt options (String.ofList ('`' :: name ++ ['`']))).toList =
        some (wantedName rt options name, []) ↔ '"' ∉ name := by
  rw [backquotedText_span lowers, read_verbatim_iff, eq_comm, double_eq_self_iff,
    quote_mem_wantedName lowers]

/-- A spelled identifier in front of the rest round-trips exactly when it has no quotes inside. -/
theorem roundTrips_iff {rt : Runtime} (lowers : LowersNames rt.utf8Strdown) (options : ℕ)
    {input name rest : List Char} (identifier : read '`' input = some (name, rest)) :
    RoundTrips rt options input name rest ↔ Plain name := by
  obtain ⟨rfl, -⟩ := read_eq_some_iff.mp identifier
  by_cases backtick : '`' ∈ name
  · -- The token ends at the first backtick of the name, in front of the closing one.
    obtain ⟨front, back, rfl, absent⟩ := List.eq_append_cons_of_mem backtick
    have first := double_eq_self_iff.mpr absent
    have spelled : enclose '`' (front ++ '`' :: back) ++ rest =
        '`' :: front ++ '`' :: ('`' :: double '`' back ++ '`' :: rest) := by
      simp [enclose, double_append, first]
    rw [spelled]
    refine ⟨?_, fun plain => absurd backtick plain.1⟩
    rintro ⟨lexeme, taken, -⟩
    rw [nextTokenAtBacktick_content rt options absent] at taken
    have lengths := congrArg List.length (Prod.mk.inj (Option.some.inj taken)).2
    simp only [List.cons_append, List.length_cons, List.length_append] at lengths
    omega
  · have spelled : enclose '`' name ++ rest = '`' :: name ++ '`' :: rest := by
      simp [enclose, double_eq_self_iff.mpr backtick]
    rw [spelled, RoundTrips, nextTokenAtBacktick_content rt options backtick]
    constructor
    · rintro ⟨lexeme, taken, -, same⟩
      obtain ⟨rfl, -⟩ := Prod.mk.inj (Option.some.inj taken)
      exact ⟨backtick, (read_backquotedText_iff lowers options name).mp same⟩
    · intro plain
      exact ⟨_, rfl, rfl, (read_backquotedText_iff lowers options name).mpr plain.2⟩

theorem RoundTrips.postgresName {rt : Runtime} {options : ℕ} {input name rest : List Char}
    (trip : RoundTrips rt options input name rest) :
    postgresName rt options input = some (wantedName rt options name) := by
  obtain ⟨lexeme, taken, -, same⟩ := trip
  rw [Backquotes.postgresName, taken]
  exact congrArg (Option.map Prod.fst) same

/-- A backquoted identifier becomes one token with its name exactly when neither quote character is
in the name, and two such identifiers become one name exactly when the wanted names are one. -/
theorem backquoted_iff {rt : Runtime} (lowers : LowersNames rt.utf8Strdown) (options : ℕ)
    {input name rest : List Char} (identifier : read '`' input = some (name, rest)) :
    (RoundTrips rt options input name rest ↔ Plain name) ∧
      ∀ {input' name' rest' : List Char}, read '`' input' = some (name', rest') →
        Plain name → Plain name' →
          (postgresName rt options input = postgresName rt options input' ↔
            wantedName rt options name = wantedName rt options name') := by
  have own := roundTrips_iff lowers options identifier
  refine ⟨own, fun other plain plain' => ?_⟩
  have trip' := (roundTrips_iff lowers options other).mpr plain'
  rw [(own.mpr plain).postgresName, trip'.postgresName, Option.some_inj]

/-! ## Identifiers in ASCII -/

private theorem toLower_eq_quote {c : Char} (lower : c.toLower = '"') : c = '"' := by
  unfold Char.toLower at lower
  split at lower
  · next upper =>
    have least : 'A'.val.toNat ≤ c.val.toNat := UInt32.le_iff_toNat_le.mp upper.1
    have most : c.val.toNat ≤ 'Z'.val.toNat := UInt32.le_iff_toNat_le.mp upper.2
    have value : (c.val + ('a'.val - 'A'.val)).toNat = '"'.val.toNat :=
      congrArg (fun d : Char => d.val.toNat) lower
    rw [UInt32.toNat_add] at value
    simp only [Char.reduceVal, UInt32.reduceToNat, UInt32.reduceSub] at least most value
    omega
  · exact lower

/-- Lower-casing in ASCII leaves the double quote alone. -/
theorem lowersNames_asciiLower : LowersNames asciiLower where
  quoted name := by
    simp only [asciiLower, String.toList_append, List.map_append, String.ofList_append]
    rfl
  quote_mem name := by
    rw [asciiLower, String.toList_ofList, List.mem_map]
    constructor
    · rintro ⟨c, member, lower⟩
      rwa [← toLower_eq_quote lower]
    · intro member
      exact ⟨'"', member, rfl⟩

private def ascii : Runtime := ⟨asciiLower, 0⟩

theorem backquoted_iff_tab :
    RoundTrips ascii pgifyLowerid "`Tab`;".toList "Tab".toList ";".toList ∧
      postgresName ascii pgifyLowerid "`Tab`;".toList =
        postgresName ascii pgifyLowerid "`tab`.".toList := by
  have upper : read '`' "`Tab`;".toList = some ("Tab".toList, ";".toList) :=
    read_eq_some_iff.mpr ⟨by simp [enclose, double], by decide⟩
  have lower : read '`' "`tab`.".toList = some ("tab".toList, ".".toList) :=
    read_eq_some_iff.mpr ⟨by simp [enclose, double], by decide⟩
  have folded : wantedName ascii pgifyLowerid "Tab".toList =
      wantedName ascii pgifyLowerid "tab".toList := by
    simp [wantedName, ascii, asciiLower, pgifyIsLowerid, pgifyLowerid]
  have table := @backquoted_iff ascii lowersNames_asciiLower pgifyLowerid _ _ _ upper
  exact ⟨table.1.mpr (by decide), (table.2 lower (by decide) (by decide)).mpr folded⟩

/-- A doubled backtick ends the token, and a double quote is not doubled. -/
theorem not_roundTrips_quotes :
    (read '`' "`a``b`".toList = some ("a`b".toList, []) ∧
      nextTokenAtBacktick ascii 0 "`a``b`".toList =
        some (⟨.id, "`a`".toList, "\"a\""⟩, "`b`".toList) ∧
      ¬ RoundTrips ascii 0 "`a``b`".toList "a`b".toList []) ∧
    read '`' "`a\"b`".toList = some ("a\"b".toList, []) ∧
      nextTokenAtBacktick ascii 0 "`a\"b`".toList =
        some (⟨.id, "`a\"b`".toList, "\"a\"b\""⟩, []) ∧
      ¬ RoundTrips ascii 0 "`a\"b`".toList "a\"b".toList [] := by
  have backtick : read '`' "`a``b`".toList = some ("a`b".toList, []) :=
    read_eq_some_iff.mpr ⟨by simp [enclose, double], by decide⟩
  have quote : read '`' "`a\"b`".toList = some ("a\"b".toList, []) :=
    read_eq_some_iff.mpr ⟨by simp [enclose, double], by decide⟩
  refine ⟨⟨backtick, rfl, ?_⟩, quote, rfl, ?_⟩
  · rw [roundTrips_iff lowersNames_asciiLower 0 backtick]
    decide
  · rw [roundTrips_iff lowersNames_asciiLower 0 quote]
    decide

end Pgify.Backquotes
