import Mathlib.Data.List.Basic
import Pgify.Model.StringLexer

/-! # Where MySQL and the lexer end a string literal

A literal is a list of items between two quotes. The lexer ends its token where the literal ends
unless the body has a doubled quote, or its last item is an escaped backslash and the input goes on:
there the backslash next to the closing quote is read as escaping it.
-/

namespace Pgify.StringLiteral

open Pgify.Model

/-- What stands in the body of a literal. -/
inductive Item where
  | ordinary (c : Char) (plain : c ≠ '\'' ∧ c ≠ '\\')
  | escaped (c : Char)
  | doubled
deriving DecidableEq

def Item.chars : Item → List Char
  | ordinary c _ => [c]
  | escaped c => ['\\', c]
  | doubled => ['\'', '\'']

def body (items : List Item) : List Char :=
  items.flatMap Item.chars

def literal (items : List Item) : List Char :=
  '\'' :: body items ++ ['\'']

/-- The bodies of the two literals that are tokens of their own. -/
def zeroBodies : List (List Char) :=
  ["0000-00-00".toList, "0000-00-00 00:00:00".toList]

/-- The last item is an escaped backslash. -/
def EndsInBackslash (items : List Item) : Prop :=
  items.getLast? = some (.escaped '\\')

instance (items : List Item) : Decidable (EndsInBackslash items) :=
  inferInstanceAs (Decidable (_ = _))

@[simp] theorem body_cons (item : Item) (items : List Item) :
    body (item :: items) = item.chars ++ body items := rfl

/-! ## The string rule on a body -/

private theorem quotedStringBody_plain {c : Char} (plain : c ≠ '\'' ∧ c ≠ '\\')
    (input : List Char) :
    quotedStringBody (c :: input) =
      (quotedStringBody input).map fun (body, rest) => (c :: body, rest) := by
  rw [quotedStringBody.eq_4 c input]
  · exact plain.1
  · intro _ _ backslash _
    exact plain.2 backslash

/-- A backslash that no quote follows is consumed alone. -/
private theorem quotedStringBody_backslash {c : Char} (other : c ≠ '\'') (input : List Char) :
    quotedStringBody ('\\' :: c :: input) =
      (quotedStringBody (c :: input)).map fun (body, rest) => ('\\' :: body, rest) := by
  rw [quotedStringBody.eq_4 '\\' (c :: input)]
  · decide
  · intro _ _ _ quote
    exact other (List.cons.inj quote).1

private theorem quotedStringBody_quote (c : Char) (input : List Char) :
    quotedStringBody ('\\' :: '\'' :: c :: input) =
      (quotedStringBody (c :: input)).map fun (body, rest) => ('\\' :: '\'' :: body, rest) := rfl

/-- The token ends where the literal does. -/
def Delimited (items : List Item) (rest : List Char) : Prop :=
  (∀ item ∈ items, item ≠ .doubled) ∧ (EndsInBackslash items → rest = [])

instance (items : List Item) (rest : List Char) : Decidable (Delimited items rest) :=
  inferInstanceAs (Decidable (_ ∧ _))

private theorem delimited_cons (item : Item) {items : List Item} {rest : List Char}
    (single : item ≠ .doubled) (inner : item = .escaped '\\' → items ≠ []) :
    Delimited (item :: items) rest ↔ Delimited items rest := by
  have last : EndsInBackslash (item :: items) ↔ EndsInBackslash items := by
    cases items with
    | nil =>
      have other : item ≠ .escaped '\\' := fun same => inner same rfl
      simp [EndsInBackslash, other]
    | cons next items => simp [EndsInBackslash]
  simp [Delimited, last, single]

private theorem map_eq_some_iff (front body rest : List Char)
    (result : Option (List Char × List Char)) :
    (result.map fun (body, rest) => (front ++ body, rest)) = some (front ++ body, rest) ↔
      result = some (body, rest) := by
  cases result with
  | none => simp
  | some pair => simp [Prod.ext_iff]

private theorem quotedStringBody_ne_nil {input rest : List Char} :
    quotedStringBody input ≠ some ([], rest) := by
  intro empty
  cases input with
  | nil => cases empty
  | cons c input =>
    rw [quotedStringBody.eq_def] at empty
    split at empty
    · cases empty
    · cases empty
    · obtain ⟨pair, -, same⟩ := Option.map_eq_some_iff.mp empty
      cases same
    · obtain ⟨pair, -, same⟩ := Option.map_eq_some_iff.mp empty
      cases same

/-- A backslash in front of the rest of a body is consumed alone, unless the rest is empty or starts
with a quote. -/
private theorem body_head {item : Item} (items : List Item) (rest : List Char)
    (single : item ≠ .doubled) :
    ∃ c input, body (item :: items) ++ '\'' :: rest = c :: input ∧ c ≠ '\'' := by
  cases item with
  | ordinary c plain => exact ⟨c, body items ++ '\'' :: rest, rfl, plain.1⟩
  | escaped c => exact ⟨'\\', c :: (body items ++ '\'' :: rest), rfl, by decide⟩
  | doubled => exact (single rfl).elim

private theorem escaped_backslash (items : List Item) (rest : List Char) :
    quotedStringBody ('\\' :: (body items ++ '\'' :: rest)) =
        some ('\\' :: (body items ++ ['\'']), rest) ↔
      (items = [] → rest = []) ∧ items.head? ≠ some .doubled ∧
        (items ≠ [] → quotedStringBody (body items ++ '\'' :: rest) =
          some (body items ++ ['\''], rest)) := by
  cases items with
  | nil =>
    cases rest with
    | nil => simp [body, quotedStringBody]
    | cons d rest =>
      simp only [body, List.flatMap_nil, List.nil_append, quotedStringBody_quote]
      simp only [Option.map_eq_some_iff, Prod.mk.injEq, List.cons.injEq, true_and, Prod.exists,
        reduceCtorEq, imp_false, not_true_eq_false, false_and, iff_false, not_exists, not_and]
      rintro body rest' run rfl
      exact (quotedStringBody_ne_nil run).elim
  | cons item items =>
    by_cases double : item = .doubled
    · subst double
      simp [Item.chars, quotedStringBody, body]
    · obtain ⟨c, input, split, other⟩ := body_head items rest double
      rw [split, quotedStringBody_backslash other]
      have strip := map_eq_some_iff ['\\'] (body (item :: items) ++ ['\'']) rest
        (quotedStringBody (c :: input))
      simp only [List.singleton_append] at strip
      rw [strip]
      simp [double]

/-- The string rule consumes exactly the body of a literal and its closing quote if and only if the
body is delimited. -/
private theorem quotedStringBody_iff (items : List Item) (rest : List Char) :
    quotedStringBody (body items ++ '\'' :: rest) = some (body items ++ ['\''], rest) ↔
      Delimited items rest := by
  induction items with
  | nil => simp [body, quotedStringBody, Delimited, EndsInBackslash]
  | cons item items ih =>
    have strip (front : List Char) := map_eq_some_iff front (body items ++ ['\'']) rest
      (quotedStringBody (body items ++ '\'' :: rest))
    cases item with
    | ordinary c plain =>
      rw [delimited_cons _ (by simp) (by simp), ← ih, ← strip [c]]
      exact iff_of_eq (congrArg (· = _) (quotedStringBody_plain plain _))
    | doubled =>
      have short : quotedStringBody (body (.doubled :: items) ++ '\'' :: rest) =
          some (['\''], '\'' :: (body items ++ '\'' :: rest)) := rfl
      rw [short]
      simp [Item.chars, Delimited]
    | escaped c =>
      by_cases quote : c = '\''
      · subst quote
        obtain ⟨d, input, split⟩ : ∃ d input, body items ++ '\'' :: rest = d :: input :=
          List.exists_cons_of_ne_nil (by simp)
        rw [delimited_cons _ (by simp) (by simp), ← ih, ← strip ['\\', '\'']]
        refine iff_of_eq (congrArg (· = _) ?_)
        change quotedStringBody ('\\' :: '\'' :: (body items ++ '\'' :: rest)) = _
        rw [split, quotedStringBody_quote]
        rfl
      by_cases backslash : c = '\\'
      · subst backslash
        have twice := map_eq_some_iff ['\\'] ('\\' :: (body items ++ ['\''])) rest
          (quotedStringBody ('\\' :: (body items ++ '\'' :: rest)))
        simp only [List.singleton_append] at twice
        rw [escaped_backslash, ih, ← quotedStringBody_backslash (c := '\\') (by decide)] at twice
        refine twice.trans ?_
        cases items with
        | nil => simp [Delimited, EndsInBackslash]
        | cons next items =>
          rw [delimited_cons (.escaped '\\') (by simp) (by simp)]
          simp only [reduceCtorEq, false_implies, List.head?_cons, ne_eq, Option.some.injEq,
            not_false_eq_true, forall_const, true_and, and_iff_right_iff_imp]
          exact fun delimited => delimited.1 next List.mem_cons_self
      · rw [delimited_cons _ (by simp) (by simp [backslash]), ← ih, ← strip ['\\', c]]
        refine iff_of_eq (congrArg (· = _) ?_)
        change quotedStringBody ('\\' :: c :: (body items ++ '\'' :: rest)) = _
        rw [quotedStringBody_backslash quote, quotedStringBody_plain ⟨quote, backslash⟩,
          Option.map_map]
        rfl

/-! ## The token decision on a literal -/

private theorem predictTimestamp_body {expected : List Char} {items : List Item} (rest : List Char)
    (clean : ∀ x ∈ expected, x ≠ '\'' ∧ x ≠ '\\') (single : ∀ item ∈ items, item ≠ .doubled)
    (other : body items ≠ expected) :
    predictTimestamp expected (body items ++ '\'' :: rest) = some .quotedString := by
  induction items generalizing expected with
  | nil =>
    cases expected with
    | nil => exact (other rfl).elim
    | cons x expected =>
      have differs : '\'' ≠ x := (clean x List.mem_cons_self).1.symm
      simp [body, predictTimestamp, differs]
  | cons item items ih =>
    cases item with
    | doubled => exact (single .doubled List.mem_cons_self rfl).elim
    | escaped c =>
      cases expected with
      | nil => rfl
      | cons x expected =>
        have differs : '\\' ≠ x := (clean x List.mem_cons_self).2.symm
        simp [Item.chars, predictTimestamp, differs]
    | ordinary c plain =>
      cases expected with
      | nil =>
        change predictTimestamp [] (c :: (body items ++ '\'' :: rest)) = _
        rw [predictTimestamp.eq_2]
        exact fun quote => plain.1 quote
      | cons x expected =>
        by_cases same : c = x
        · subst same
          have tail := ih (fun y member => clean y (List.mem_cons_of_mem _ member))
            (fun item member => single item (List.mem_cons_of_mem _ member))
            (fun equal => other (by simp [Item.chars, equal]))
          simpa [Item.chars, predictTimestamp] using tail
        · simp [Item.chars, predictTimestamp, same]

private theorem predictDate_body {expected : List Char} {items : List Item} (rest : List Char)
    (clean : ∀ x ∈ expected, x ≠ '\'' ∧ x ≠ '\\') (single : ∀ item ∈ items, item ≠ .doubled)
    (noDate : body items ≠ expected)
    (noTimestamp : body items ≠ expected ++ ' ' :: ['0', '0', ':', '0', '0', ':', '0', '0']) :
    predictDate expected (body items ++ '\'' :: rest) = some .quotedString := by
  induction items generalizing expected with
  | nil =>
    cases expected with
    | nil => exact (noDate rfl).elim
    | cons x expected =>
      have differs : '\'' ≠ x := (clean x List.mem_cons_self).1.symm
      simp [body, predictDate, differs]
  | cons item items ih =>
    have singles : ∀ item ∈ items, item ≠ .doubled :=
      fun item member => single item (List.mem_cons_of_mem _ member)
    cases item with
    | doubled => exact (single .doubled List.mem_cons_self rfl).elim
    | escaped c =>
      cases expected with
      | nil => rfl
      | cons x expected =>
        have differs : '\\' ≠ x := (clean x List.mem_cons_self).2.symm
        simp [Item.chars, predictDate, differs]
    | ordinary c plain =>
      cases expected with
      | nil =>
        by_cases blank : c = ' '
        · -- Behind the date a blank leads on to the timestamp.
          subst blank
          exact predictTimestamp_body rest (by simp) singles fun equal =>
            noTimestamp (by simp [Item.chars, equal])
        · change predictDate [] (c :: (body items ++ '\'' :: rest)) = _
          rw [predictDate.eq_3]
          · exact fun quote => plain.1 quote
          · exact fun isBlank => blank isBlank
      | cons x expected =>
        by_cases same : c = x
        · subst same
          have tail := ih (fun y member => clean y (List.mem_cons_of_mem _ member)) singles
            (fun equal => noDate (by simp [Item.chars, equal]))
            (fun equal => noTimestamp (by simp [Item.chars, equal]))
          simpa [Item.chars, predictDate] using tail
        · simp [Item.chars, predictDate, same]

private theorem predictQuote_literal {items : List Item} (rest : List Char)
    (single : ∀ item ∈ items, item ≠ .doubled) (notZero : body items ∉ zeroBodies) :
    predictQuote (body items ++ '\'' :: rest) = some .quotedString := by
  have date : body items ≠ ['0', '0', '0', '0', '-', '0', '0', '-', '0', '0'] :=
    fun equal => notZero (by rw [equal]; decide)
  have timestamp : body items ≠ ['0', '0', '0', '0', '-', '0', '0', '-', '0', '0'] ++
      ' ' :: ['0', '0', ':', '0', '0', ':', '0', '0'] :=
    fun equal => notZero (by rw [equal]; decide)
  have decision := predictDate_body rest (by simp) single date timestamp
  obtain ⟨c, input, split⟩ : ∃ c input, body items ++ '\'' :: rest = c :: input :=
    List.exists_cons_of_ne_nil (by simp)
  rw [split] at decision ⊢
  exact decision

/-- A literal other than the zero dates is one token, ending where the literal ends, if and only if
its body has no doubled quote and an escaped backslash at its end is the end of the input. -/
theorem nextTokenAtQuote_literal_iff (options : ℕ) (items : List Item) (rest : List Char)
    (notZero : body items ∉ zeroBodies) :
    (∃ text, nextTokenAtQuote options (literal items ++ rest) =
        some (⟨.quotedString, literal items, text⟩, rest)) ↔
      Delimited items rest := by
  have shape : literal items ++ rest = '\'' :: (body items ++ '\'' :: rest) := by simp [literal]
  rw [shape, ← quotedStringBody_iff]
  constructor
  · rintro ⟨text, token⟩
    obtain ⟨behind, consumed, input, consumes, span, -⟩ := quotedString_token token
    obtain rfl := (List.cons.inj input).2
    rw [consumes, ← (List.cons.inj span).2]
    rfl
  · intro consumes
    have delimited := (quotedStringBody_iff items rest).mp consumes
    have decision := predictQuote_literal rest delimited.1 notZero
    refine ⟨(if pgifyIsEscape options then "E" else "") ++ String.ofList (literal items), ?_⟩
    simp only [nextTokenAtQuote, List.drop_one, List.tail_cons, decision, Option.bind_eq_bind,
      Option.bind_some, mQuotedString, consumes, Option.map_some]
    rfl

/-- `'it''s'` is cut at the doubled quote, and `'C:\\',1` runs on behind its closing quote. -/
theorem not_nextTokenAtQuote_doubled :
    nextTokenAtQuote pgifyEscape
        (literal [.ordinary 'a' (by decide), .doubled, .ordinary 'b' (by decide)]) =
      some (⟨.quotedString, "'a'".toList, "E'a'"⟩, "'b'".toList) ∧
    ¬ ∃ text, nextTokenAtQuote pgifyEscape
        (literal [.ordinary 'a' (by decide), .escaped '\\'] ++ ",1".toList) =
      some (⟨.quotedString, literal [.ordinary 'a' (by decide), .escaped '\\'], text⟩,
        ",1".toList) := by
  refine ⟨by decide, ?_⟩
  rintro ⟨text, run⟩
  have none : nextTokenAtQuote pgifyEscape
      (literal [.ordinary 'a' (by decide), .escaped '\\'] ++ ",1".toList) = none := by decide
  rw [none] at run
  cases run

theorem nextTokenAtQuote_literal_escaped :
    body [.escaped '\\', .escaped '\''] ∉ zeroBodies ∧
      ((∃ text, nextTokenAtQuote pgifyEscape
          (literal [.escaped '\\', .escaped '\''] ++ [',']) =
        some (⟨.quotedString, literal [.escaped '\\', .escaped '\''], text⟩, [','])) ↔
      Delimited [.escaped '\\', .escaped '\''] [',']) :=
  ⟨by decide, nextTokenAtQuote_literal_iff pgifyEscape [.escaped '\\', .escaped '\''] [',']
    (by decide)⟩

end Pgify.StringLiteral
