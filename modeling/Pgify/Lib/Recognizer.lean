import Pgify.Lib.SuffixScan

/-! # Recognizers

A recognizer takes a span from the front of its input, or fails. Its language says which spans it
takes in front of which rest, because a longest match looks at what stands behind the span. The
operations of recognizers are operations of their languages, and a language that is recognized is
unambiguous.
-/

/-- What is left behind the span that was taken; no result is a failure. -/
abbrev Recognizer (α : Type*) := List α → Option (List α)

/-- The spans that may be taken in front of a rest. -/
abbrev SpanLanguage (α : Type*) := List α → List α → Prop

variable {α β : Type*}

namespace SpanLanguage

/-- A span of the first language and one of the second behind it. -/
def concat (first second : SpanLanguage α) : SpanLanguage α := fun span rest =>
  ∃ front back, span = front ++ back ∧ first front (back ++ rest) ∧ second back rest

/-- One language or the other, by a test of the whole input. -/
def choice (test : List α → Bool) (first second : SpanLanguage α) : SpanLanguage α :=
  fun span rest => if test (span ++ rest) then first span rest else second span rest

/-- One element of a set. -/
def single (set : α → Bool) : SpanLanguage α := fun span _ =>
  ∃ c, span = [c] ∧ set c = true

/-- Elements of a set, as many as there are. -/
def longest (set : α → Bool) : SpanLanguage α := fun span rest =>
  (∀ c ∈ span, set c = true) ∧ ∀ c ∈ rest.head?, set c = false

/-- What reads as some word. -/
def reading (read : α → β) (word : List β) : SpanLanguage α := fun span _ =>
  span.map read = word

/-- Nothing. -/
def empty : SpanLanguage α := fun span _ => span = []

/-- Everything up to a closer, which only ends the span. -/
def upTo (closer : List α) : SpanLanguage α := fun span _ =>
  ∃ body, span = body ++ closer ∧ ∀ front back, span = front ++ closer ++ back → back = []

/-- Whether the next element is in a set. -/
def startsWith (set : α → Bool) (input : List α) : Bool :=
  input.head?.any set

/-- One language where the next element is in a set, and nothing elsewhere. -/
def optional (set : α → Bool) (language : SpanLanguage α) : SpanLanguage α :=
  language.choice (startsWith set) empty

/-- The test passes in front of every element of the span. -/
def Passes (p : List α → Bool) : (span rest : List α) → Prop
  | [], _ => True
  | c :: span, rest => p (c :: (span ++ rest)) = true ∧ Passes p span rest

/-- What a loop takes: the test passes all along, and not behind. -/
def loop (p : List α → Bool) : SpanLanguage α := fun span rest =>
  Passes p span rest ∧ (rest = [] ∨ p rest = false)

end SpanLanguage

namespace Recognizer

open SuffixScan

/-- The recognizer takes exactly the spans of the language, each in front of its rests. -/
def Recognizes (recognizer : Recognizer α) (language : SpanLanguage α) : Prop :=
  ∀ input rest, recognizer input = some rest ↔ ∃ span, input = span ++ rest ∧ language span rest

variable {r q : Recognizer α} {L M : SpanLanguage α}

theorem Recognizes.some_iff (recognizes : Recognizes r L) {span rest : List α} :
    r (span ++ rest) = some rest ↔ L span rest := by
  rw [recognizes]
  constructor
  · rintro ⟨other, same, own⟩
    rwa [List.append_cancel_right same]
  · exact fun own => ⟨span, rfl, own⟩

/-- An input starts with one span of a language that is recognized. -/
theorem Recognizes.unique (recognizes : Recognizes r L) {first second rest rest' : List α}
    (ownFirst : L first rest) (ownSecond : L second rest')
    (same : first ++ rest = second ++ rest') : first = second ∧ rest = rest' := by
  have left := recognizes.some_iff.mpr ownFirst
  rw [same, recognizes.some_iff.mpr ownSecond] at left
  obtain rfl := Option.some.inj left
  exact ⟨List.append_cancel_right same, rfl⟩

theorem Recognizes.congr (recognizes : Recognizes r L)
    (same : ∀ span rest, M span rest ↔ L span rest) : Recognizes r M := by
  intro input rest
  rw [recognizes input rest]
  exact exists_congr fun span => and_congr_right fun _ => (same span rest).symm

theorem Recognizes.bind (first : Recognizes r L) (second : Recognizes q M) :
    Recognizes (fun input => (r input).bind q) (L.concat M) := by
  intro input rest
  rw [Option.bind_eq_some_iff]
  constructor
  · rintro ⟨between, took, tookMore⟩
    obtain ⟨front, rfl, ownFront⟩ := (first input between).mp took
    obtain ⟨back, rfl, ownBack⟩ := (second between rest).mp tookMore
    exact ⟨front ++ back, (List.append_assoc ..).symm, front, back, rfl, ownFront, ownBack⟩
  · rintro ⟨span, rfl, front, back, rfl, ownFront, ownBack⟩
    rw [List.append_assoc]
    exact ⟨back ++ rest, first.some_iff.mpr ownFront, second.some_iff.mpr ownBack⟩

theorem Recognizes.ite (test : List α → Bool) (first : Recognizes r L) (second : Recognizes q M) :
    Recognizes (fun input => if test input then r input else q input) (L.choice test M) := by
  intro input rest
  cases holds : test input with
  | true =>
    simp only [holds, if_true]
    rw [first]
    exact exists_congr fun span => and_congr_right fun whole => by
      rw [SpanLanguage.choice, ← whole, if_pos holds]
  | false =>
    simp only [holds, Bool.false_eq_true, if_false]
    rw [second]
    exact exists_congr fun span => and_congr_right fun whole => by
      rw [SpanLanguage.choice, ← whole, holds, if_neg Bool.false_ne_true]

theorem recognizes_empty : Recognizes (fun input : List α => some input) SpanLanguage.empty := by
  intro input rest
  constructor
  · rintro same
    exact ⟨[], Option.some.inj same, rfl⟩
  · rintro ⟨span, rfl, rfl⟩
    rfl

theorem recognizes_single (set : α → Bool) :
    Recognizes (fun input => if input.head?.any set then some input.tail else none)
      (SpanLanguage.single set) := by
  intro input rest
  cases input with
  | nil => simp [SpanLanguage.single]
  | cons c input =>
    cases inSet : set c with
    | true => simp [SpanLanguage.single, inSet]
    | false =>
      have absent : ¬ ∃ span, c :: input = span ++ rest ∧ SpanLanguage.single set span rest := by
        rintro ⟨_, whole, d, rfl, own⟩
        obtain ⟨rfl, -⟩ := List.cons.inj whole
        rw [inSet] at own
        cases own
      simp [inSet, absent]

/-- Match a word element by element. -/
def matchReading [DecidableEq β] (read : α → β) : List β → Recognizer α
  | [], input => some input
  | c :: word, input =>
    if input.head?.map read = some c then matchReading read word input.tail else none

theorem recognizes_reading [DecidableEq β] (read : α → β) (word : List β) :
    Recognizes (matchReading read word) (SpanLanguage.reading read word) := by
  induction word with
  | nil =>
    intro input rest
    simp [matchReading, SpanLanguage.reading]
  | cons c word ih =>
    intro input rest
    cases input with
    | nil => simp [matchReading, SpanLanguage.reading]
    | cons d input =>
      by_cases same : read d = c
      · simp only [matchReading, List.head?_cons, Option.map_some, same, if_true, List.tail_cons]
        rw [ih input rest]
        constructor
        · rintro ⟨span, rfl, own⟩
          exact ⟨d :: span, rfl, by rw [SpanLanguage.reading, List.map_cons, same, own]⟩
        · rintro ⟨span, whole, own⟩
          obtain ⟨e, span, rfl, -, behind⟩ := List.map_eq_cons_iff.mp own
          exact ⟨span, (List.cons.inj whole).2, behind⟩
      · have absent : ¬ ∃ span, d :: input = span ++ rest ∧
            SpanLanguage.reading read (c :: word) span rest := by
          rintro ⟨span, whole, own⟩
          obtain ⟨e, span, rfl, head, -⟩ := List.map_eq_cons_iff.mp own
          obtain ⟨rfl, -⟩ := List.cons.inj whole
          exact same head
        simp [matchReading, same, absent]

/-! ## Loops -/

theorem recognizes_loop (p : List α → Bool) :
    Recognizes (fun input => some (dropWhileRest p input)) (SpanLanguage.loop p) := by
  intro input rest
  rw [Option.some_inj]
  induction input with
  | nil =>
    rw [dropWhileRest]
    constructor
    · rintro rfl
      exact ⟨[], rfl, trivial, Or.inl rfl⟩
    · rintro ⟨span, whole, -⟩
      exact (List.append_eq_nil_iff.mp whole.symm).2.symm
  | cons c input ih =>
    rw [dropWhileRest]
    cases pass : p (c :: input) with
    | true =>
      rw [if_pos rfl, ih]
      constructor
      · rintro ⟨span, rfl, passes, stop⟩
        exact ⟨c :: span, rfl, ⟨pass, passes⟩, stop⟩
      · rintro ⟨span, whole, passes, stop⟩
        cases span with
        | nil =>
          obtain rfl : c :: input = rest := whole
          rcases stop with empty | fails
          · cases empty
          · rw [pass] at fails
            cases fails
        | cons d span =>
          exact ⟨span, (List.cons.inj whole).2, passes.2, stop⟩
    | false =>
      rw [if_neg Bool.false_ne_true]
      constructor
      · rintro rfl
        exact ⟨[], rfl, trivial, Or.inr pass⟩
      · rintro ⟨span, whole, passes, -⟩
        cases span with
        | nil => exact whole
        | cons d span =>
          obtain ⟨rfl, rfl⟩ := List.cons.inj whole
          change p (c :: (span ++ rest)) = false at pass
          rw [SpanLanguage.Passes, pass] at passes
          cases passes.1

/-- A loop that tests the next element only is a longest match. -/
theorem loop_head_iff {set : α → Bool} {span rest : List α} :
    SpanLanguage.loop (fun input => input.head?.any set) span rest ↔
      SpanLanguage.longest set span rest := by
  have passes : SpanLanguage.Passes (fun input => input.head?.any set) span rest ↔
      ∀ c ∈ span, set c = true := by
    induction span with
    | nil => simp [SpanLanguage.Passes]
    | cons c span ih => simp [SpanLanguage.Passes, ih]
  rw [SpanLanguage.loop, SpanLanguage.longest, passes]
  refine and_congr_right fun _ => ?_
  cases rest <;> simp

/-! ## Loops up to a closer -/

theorem passes_iff {p : List α → Bool} {span rest : List α} :
    SpanLanguage.Passes p span rest ↔
      ∀ front back, span = front ++ back → back ≠ [] → p (back ++ rest) = true := by
  induction span with
  | nil =>
    refine iff_of_true trivial fun front back whole filled => ?_
    exact absurd (List.append_eq_nil_iff.mp whole.symm).2 filled
  | cons c span ih =>
    rw [SpanLanguage.Passes, ih]
    constructor
    · rintro ⟨first, behind⟩ front back whole filled
      cases front with
      | nil =>
        obtain rfl : c :: span = back := whole
        exact first
      | cons d front => exact behind front back (List.cons.inj whole).2 filled
    · intro all
      refine ⟨all [] (c :: span) rfl (List.cons_ne_nil _ _), fun front back whole filled => ?_⟩
      exact all (c :: front) back (by rw [whole, List.cons_append]) filled

/-- A loop that stops at a closer, and only there as long as enough input is left, and the closer
behind it take everything up to the closer. -/
theorem concat_loop_iff {p : List α → Bool} {closer : List α} {span rest : List α}
    (own : ∀ span rest, M span rest ↔ span = closer)
    (stops : ∀ rest, p (closer ++ rest) = false)
    (goesOn : ∀ input, closer.length < input.length → ¬ closer <+: input → p input = true) :
    (SpanLanguage.loop p).concat M span rest ↔ SpanLanguage.upTo closer span rest := by
  constructor
  · rintro ⟨body, back, rfl, ⟨passes, -⟩, ends⟩
    obtain rfl := (own back rest).mp ends
    refine ⟨body, rfl, fun front behind whole => ?_⟩
    -- An earlier closer would start inside the body, where the loop goes on.
    by_contra filled
    obtain ⟨middle, rfl⟩ : front <+: body := by
      have length := congrArg List.length whole
      simp only [List.length_append] at length
      refine @List.prefix_of_prefix_length_le _ _ _ (body ++ back) ?_ (List.prefix_append _ _)
        (by omega)
      exact ⟨back ++ behind, by rw [whole, List.append_assoc]⟩
    rw [List.append_assoc, List.append_assoc, List.append_cancel_left_eq] at whole
    have inside : middle ≠ [] := by
      rintro rfl
      rw [List.nil_append, List.self_eq_append_right] at whole
      exact filled whole
    have pass := passes_iff.mp passes front middle rfl inside
    rw [← List.append_assoc, whole, List.append_assoc, stops] at pass
    cases pass
  · rintro ⟨body, rfl, only⟩
    refine ⟨body, closer, rfl, ⟨passes_iff.mpr ?_, Or.inr (stops rest)⟩, (own _ _).mpr rfl⟩
    rintro front middle rfl inside
    have positive := List.length_pos_iff.mpr inside
    refine goesOn _ (by simp only [List.length_append]; omega) fun starts => inside ?_
    have early : closer <+: middle ++ closer := by
      refine @List.prefix_of_prefix_length_le _ _ _ (middle ++ (closer ++ rest)) starts ?_
        (by simp only [List.length_append]; omega)
      exact ⟨rest, List.append_assoc ..⟩
    obtain ⟨back, shifted⟩ := early
    have nothing := only front back (by rw [List.append_assoc, List.append_assoc, shifted])
    have length := congrArg List.length shifted
    rw [nothing, List.append_nil, List.length_append] at length
    exact List.length_eq_zero_iff.mp (by omega)

end Recognizer
