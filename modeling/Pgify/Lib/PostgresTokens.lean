import Mathlib.Data.List.TakeWhile
import Pgify.Lib.AdjacentPairs
import Pgify.Lib.PostgresScan
import Pgify.Lib.QuotedName

/-! # Names and literals as PostgreSQL reads them

The reader takes one identifier or one string literal from the front of a text, with
`standard_conforming_strings` on. Which words are reserved is a parameter. A text that is put
together of fixed pieces and of pieces that are to be one token each is read so exactly when every
such piece is spelled as one, if the fixed pieces keep them apart.
-/

namespace PostgresTokens

open PostgresScan

/-! ## The reader -/

/-- A name between double quotes, which may not be empty, or a word that is not reserved. -/
def readIdentifier (reserved : List Char → Bool) : List Char → Option (List Char × List Char)
  | [] => none
  | c :: input =>
    if c = '"' then
      (QuotedName.readBody '"' input).bind fun read => if read.1 = [] then none else some read
    else if identStart c = true then
      if reserved (c :: input.takeWhile identCont) = true then none
      else some (c :: input.takeWhile identCont, input.dropWhile identCont)
    else none

/-- Up to the next `$$`. -/
def readDollarBody : List Char → Option (List Char × List Char)
  | [] => none
  | c :: input =>
    if c = '$' ∧ input.head? = some '$' then some ([], input.drop 1)
    else (readDollarBody input).map fun read => (c :: read.1, read.2)

/-- A value between single quotes or between two `$$`. -/
def readLiteral : List Char → Option (List Char × List Char)
  | [] => none
  | c :: input =>
    if c = '\'' then QuotedName.readBody '\'' input
    else if c = '$' ∧ input.head? = some '$' then readDollarBody (input.drop 1)
    else none

/-! ## Spellings -/

/-- The spelling of one identifier. -/
def Identifier (reserved : List Char → Bool) : List Char → Prop
  | [] => False
  | c :: rest =>
    if c = '"' then ∃ name ≠ [], rest = QuotedName.double '"' name ++ ['"']
    else
      identStart c = true ∧ (∀ d ∈ rest, identCont d = true) ∧ reserved (c :: rest) = false

def isDollar (c : Char) : Bool :=
  c == '$'

/-- The spelling of one literal. -/
def Literal (text : List Char) : Prop :=
  (∃ value, text = QuotedName.enclose '\'' value) ∨
    ∃ body, text = '$' :: '$' :: (body ++ ['$', '$']) ∧
      AdjacentPairs.Absent isDollar isDollar (body ++ ['$'])

/-- A text that opens no quotes is an identifier as a word. -/
theorem identifier_word_iff {reserved : List Char → Bool} {text : List Char}
    (plain : text.head? ≠ some '"') :
    Identifier reserved text ↔ (∃ c ∈ text.head?, identStart c = true) ∧
      (∀ c ∈ text, identCont c = true) ∧ reserved text = false := by
  cases text with
  | nil => simp [Identifier]
  | cons c rest =>
    have other : c ≠ '"' := fun same => plain (congrArg some same)
    rw [Identifier, if_neg other]
    constructor
    · rintro ⟨start, word, free⟩
      refine ⟨⟨c, rfl, start⟩, List.forall_mem_cons.mpr ⟨?_, word⟩, free⟩
      simp [identCont, start]
    · rintro ⟨⟨d, head, start⟩, word, free⟩
      obtain rfl := Option.some.inj head
      exact ⟨start, (List.forall_mem_cons.mp word).2, free⟩

theorem identifier_quoted_iff {reserved : List Char → Bool} {content : List Char} :
    Identifier reserved ('"' :: content ++ ['"']) ↔
      ∃ name ≠ [], content = QuotedName.double '"' name := by
  rw [List.cons_append, Identifier, if_pos rfl]
  simp only [List.append_left_inj]

theorem literal_quoted_iff {content : List Char} :
    Literal ('\'' :: content ++ ['\'']) ↔ ∃ value, content = QuotedName.double '\'' value := by
  simp [Literal, QuotedName.enclose]

theorem literal_dollar_iff {body : List Char} :
    Literal ('$' :: '$' :: (body ++ ['$', '$'])) ↔
      AdjacentPairs.Absent isDollar isDollar (body ++ ['$']) := by
  simp [Literal, QuotedName.enclose]

/-- A character that goes on with no token. -/
def parts (c : Char) : Bool :=
  !identCont c && c != '"' && c != '\''

/-- No token goes on in what stands behind it. -/
def Apart (behind : List Char) : Prop :=
  ∀ c ∈ behind.head?, parts c = true

instance (behind : List Char) : Decidable (Apart behind) :=
  decidable_of_iff (behind.head?.all parts = true) (by simp [Apart, Option.all_eq_true])

variable {reserved : List Char → Bool} {behind : List Char}

private theorem parts_iff {c : Char} :
    parts c = true ↔ identCont c = false ∧ c ≠ '"' ∧ c ≠ '\'' := by
  simp [parts, and_assoc]

/-- A text that starts apart is no identifier and no literal. -/
theorem readIdentifier_apart (apart : Apart behind) : readIdentifier reserved behind = none := by
  cases behind with
  | nil => rfl
  | cons c rest =>
    obtain ⟨cont, double, -⟩ := parts_iff.mp (apart c rfl)
    have start : identStart c = false := by
      rw [identCont, Bool.or_eq_false_iff, Bool.or_eq_false_iff] at cont
      exact cont.1.1
    simp [readIdentifier, double, start]

private theorem takeWhile_of_dropWhile {word : List Char}
    (same : (word ++ behind).dropWhile identCont = behind) :
    (word ++ behind).takeWhile identCont = word := by
  have whole := @List.takeWhile_append_dropWhile _ identCont (word ++ behind)
  rw [same] at whole
  exact List.append_cancel_right whole

private theorem dropWhile_append_iff (apart : Apart behind) (word : List Char) :
    (word ++ behind).dropWhile identCont = behind ↔ ∀ c ∈ word, identCont c = true := by
  constructor
  · intro same c member
    rw [← takeWhile_of_dropWhile same] at member
    exact List.mem_takeWhile_imp member
  · intro all
    rw [List.dropWhile_append_of_pos all]
    cases behind with
    | nil => rfl
    | cons c rest =>
      exact List.dropWhile_cons_of_neg (by simp [(parts_iff.mp (apart c rfl)).1])

private theorem readBody_append_iff {q : Char} (ends : behind.head? ≠ some q)
    (text name : List Char) :
    QuotedName.readBody q (text ++ behind) = some (name, behind) ↔
      text = QuotedName.double q name ++ [q] := by
  constructor
  · intro taken
    obtain ⟨same, -⟩ := QuotedName.readBody_sound taken
    exact List.append_cancel_right (same.trans (by simp))
  · rintro rfl
    rw [List.append_assoc, List.singleton_append]
    exact QuotedName.readBody_double name ends

/-- One identifier is read, and nothing of what stands behind it. -/
theorem readIdentifier_append_iff (apart : Apart behind) (text : List Char) :
    (∃ name, readIdentifier reserved (text ++ behind) = some (name, behind)) ↔
      Identifier reserved text := by
  cases text with
  | nil => simp [readIdentifier_apart apart, Identifier]
  | cons c rest =>
    rw [List.cons_append, readIdentifier, Identifier]
    by_cases quoted : c = '"'
    · have ends : behind.head? ≠ some '"' :=
        fun head => (parts_iff.mp (apart _ head)).2.1 rfl
      simp only [if_pos quoted, ← readBody_append_iff ends]
      constructor
      · rintro ⟨name, read⟩
        obtain ⟨taken, own, kept⟩ := Option.bind_eq_some_iff.mp read
        split at kept
        · cases kept
        · next some' =>
          cases kept
          exact ⟨name, some', own⟩
      · rintro ⟨name, some', own⟩
        exact ⟨name, by rw [own, Option.bind_some, if_neg some']⟩
    · by_cases start : identStart c = true
      · have word := dropWhile_append_iff apart rest
        simp only [if_neg quoted, start, if_true, true_and]
        constructor
        · rintro ⟨name, read⟩
          split at read
          · simp at read
          · next free =>
            have same := (Prod.mk.inj (Option.some.inj read)).2
            rw [takeWhile_of_dropWhile same, Bool.not_eq_true] at free
            exact ⟨word.mp same, free⟩
        · rintro ⟨all, free⟩
          have same := word.mpr all
          exact ⟨c :: rest, by rw [takeWhile_of_dropWhile same, same, free]; rfl⟩
      · simp [quoted, start]

theorem absent_dollar_cons {c : Char} {rest : List Char} :
    AdjacentPairs.Absent isDollar isDollar (c :: rest) ↔
      ¬(c = '$' ∧ rest.head? = some '$') ∧ AdjacentPairs.Absent isDollar isDollar rest := by
  rw [AdjacentPairs.Absent, List.isChain_cons, AdjacentPairs.Absent]
  refine and_congr_left fun _ => ?_
  cases rest with
  | nil => simp
  | cons d rest => simp [isDollar]

private theorem head?_append_dollar (body rest : List Char) :
    (body ++ '$' :: rest).head? = (body ++ ['$']).head? := by
  cases body <;> rfl

/-- The body goes up to the first two dollar signs. -/
theorem readDollarBody_eq_some_iff {input body : List Char} :
    readDollarBody input = some (body, behind) ↔
      input = body ++ '$' :: '$' :: behind ∧
        AdjacentPairs.Absent isDollar isDollar (body ++ ['$']) := by
  induction input generalizing body with
  | nil => simp [readDollarBody]
  | cons c input ih =>
    rw [readDollarBody]
    by_cases closes : c = '$' ∧ input.head? = some '$'
    · rw [if_pos closes]
      obtain ⟨rfl, head⟩ := closes
      obtain ⟨rest, rfl⟩ := List.head?_eq_some_iff.mp head
      cases body with
      | nil =>
        have alone : AdjacentPairs.Absent isDollar isDollar ['$'] := List.isChain_singleton _
        simp [alone, eq_comm]
      | cons d body =>
        refine iff_of_false (by simp) fun spelled => ?_
        obtain ⟨same, absent⟩ := spelled
        rw [List.cons_append] at same absent
        obtain ⟨rfl, tail⟩ := List.cons.inj same
        refine (absent_dollar_cons.mp absent).1 ⟨rfl, ?_⟩
        rw [← head?_append_dollar body ('$' :: behind), ← tail]
        rfl
    · rw [if_neg closes]
      cases body with
      | nil =>
        refine iff_of_false (by simp) fun spelled => ?_
        obtain ⟨rfl, rfl⟩ := List.cons.inj spelled.1
        exact closes ⟨rfl, rfl⟩
      | cons d body =>
        have head := head?_append_dollar body ('$' :: behind)
        constructor
        · intro taken
          obtain ⟨read, own, same⟩ := Option.map_eq_some_iff.mp taken
          cases same
          obtain ⟨rfl, absent⟩ := ih.mp own
          exact ⟨rfl, absent_dollar_cons.mpr ⟨head ▸ closes, absent⟩⟩
        · rintro ⟨same, absent⟩
          obtain ⟨rfl, rfl⟩ := List.cons.inj same
          rw [ih.mpr ⟨rfl, (absent_dollar_cons.mp absent).2⟩]
          rfl

private theorem ne_dollar_of_parts {c : Char} (apart : parts c = true) : c ≠ '$' := by
  rintro rfl
  exact absurd apart (by decide)

/-- One literal is read, and nothing of what stands behind it. -/
theorem readLiteral_append_iff (apart : Apart behind) (text : List Char) :
    (∃ value, readLiteral (text ++ behind) = some (value, behind)) ↔ Literal text := by
  cases text with
  | nil =>
    have none : readLiteral behind = none := by
      cases behind with
      | nil => rfl
      | cons c rest =>
        have quote := (parts_iff.mp (apart c rfl)).2.2
        simp [readLiteral, quote, ne_dollar_of_parts (apart c rfl)]
    simp [none, Literal, QuotedName.enclose]
  | cons c rest =>
    rw [List.cons_append, readLiteral, Literal]
    by_cases quoted : c = '\''
    · subst quoted
      have ends : behind.head? ≠ some '\'' :=
        fun head => (parts_iff.mp (apart _ head)).2.2 rfl
      simp [readBody_append_iff ends, QuotedName.enclose]
    · rw [if_neg quoted]
      by_cases dollars : c = '$' ∧ (rest ++ behind).head? = some '$'
      · rw [if_pos dollars]
        obtain ⟨rfl, head⟩ := dollars
        cases rest with
        | nil => exact absurd rfl (ne_dollar_of_parts (apart _ head))
        | cons d rest =>
          obtain rfl := Option.some.inj head
          have closed (body : List Char) : rest ++ behind = body ++ '$' :: '$' :: behind ↔
              rest = body ++ ['$', '$'] := by
            simpa using @List.append_left_inj _ rest (body ++ ['$', '$']) behind
          simp [readDollarBody_eq_some_iff, closed, QuotedName.enclose]
      · rw [if_neg dollars]
        refine iff_of_false (by simp) ?_
        rintro (⟨value, same⟩ | ⟨body, same, -⟩)
        · exact quoted (List.cons.inj same).1
        · obtain ⟨rfl, rfl⟩ := List.cons.inj same
          exact dollars ⟨rfl, rfl⟩

/-! ## Texts in pieces -/

inductive Piece where
  | fixed (text : String)
  | identifier (text : String)
  | literal (text : String)

def Piece.text : Piece → String
  | fixed text => text
  | identifier text => text
  | literal text => text

def textOf : List Piece → String
  | [] => ""
  | piece :: rest => piece.text ++ textOf rest

/-- Each piece that is not fixed is read as one token at its place. -/
def Reads (reserved : List Char → Bool) : List Piece → Prop
  | [] => True
  | .fixed _ :: rest => Reads reserved rest
  | .identifier text :: rest =>
    (∃ name, readIdentifier reserved (text ++ textOf rest).toList =
      some (name, (textOf rest).toList)) ∧ Reads reserved rest
  | .literal text :: rest =>
    (∃ value, readLiteral (text ++ textOf rest).toList = some (value, (textOf rest).toList)) ∧
      Reads reserved rest

/-- Behind each of these pieces a fixed one starts apart. -/
def Separated : List Piece → Prop
  | [] => True
  | .fixed _ :: rest => Separated rest
  | _ :: .fixed text :: rest => text ≠ "" ∧ Apart text.toList ∧ Separated rest
  | _ => False

/-- The piece is spelled as the token that it is to be. -/
def Piece.Sound (reserved : List Char → Bool) : Piece → Prop
  | fixed _ => True
  | identifier text => Identifier reserved text.toList
  | literal text => Literal text.toList

@[simp] theorem sound_fixed {reserved : List Char → Bool} (text : String) :
    (Piece.fixed text).Sound reserved ↔ True := Iff.rfl

@[simp] theorem sound_identifier {reserved : List Char → Bool} (text : String) :
    (Piece.identifier text).Sound reserved ↔ Identifier reserved text.toList := Iff.rfl

@[simp] theorem sound_literal {reserved : List Char → Bool} (text : String) :
    (Piece.literal text).Sound reserved ↔ Literal text.toList := Iff.rfl

theorem textOf_append (first second : List Piece) :
    textOf (first ++ second) = textOf first ++ textOf second := by
  induction first with
  | nil => simp [textOf]
  | cons piece rest ih => rw [List.cons_append, textOf, textOf, ih, String.append_assoc]

theorem apart_append {text : String} (more : String) (some' : text ≠ "")
    (apart : Apart text.toList) : Apart (text ++ more).toList := by
  intro c head
  refine apart c ?_
  rw [String.toList_append] at head
  cases chars : text.toList with
  | nil => exact absurd (String.toList_eq_nil_iff.mp chars) some'
  | cons d rest => simpa [chars] using head

/-- Every token is read at its place exactly when every piece is spelled as its token. -/
theorem reads_iff {pieces : List Piece} (separated : Separated pieces) :
    Reads reserved pieces ↔ ∀ piece ∈ pieces, piece.Sound reserved := by
  fun_induction Separated pieces with
  | case1 => simp [Reads]
  | case2 text rest ih => simp [Reads, Piece.Sound, ih separated]
  | case3 piece text rest other ih =>
    obtain ⟨some', apart, behind⟩ := separated
    have next : Apart (textOf (.fixed text :: rest)).toList := apart_append _ some' apart
    have tail : Reads reserved (.fixed text :: rest) ↔
        ∀ piece ∈ rest, piece.Sound reserved := ih behind
    cases piece with
    | fixed own => exact (other own rfl).elim
    | identifier own =>
      rw [Reads, String.toList_append, readIdentifier_append_iff next, tail]
      simp [Piece.Sound]
    | literal own =>
      rw [Reads, String.toList_append, readLiteral_append_iff next, tail]
      simp [Piece.Sound]
  | case4 => exact separated.elim

end PostgresTokens
