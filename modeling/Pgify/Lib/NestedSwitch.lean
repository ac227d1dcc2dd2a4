import Mathlib.Data.List.Basic

/-! # Decisions by nested switches

A generated lexer decides which of its literals stands at the front of the input by one switch
inside another, a character at a time. A character of words keeps the identifier in play beside the
literals that go on with it; any other character that some literal goes on with settles the
decision. Where no literal contains such a character, this is the longest word, looked up in the
list of literals.
-/

namespace NestedSwitch

variable {α τ : Type*} [DecidableEq α]

/-- What is left of a literal behind its first character. -/
def behind (c : α) : List α × τ → Option (List α × τ)
  | (d :: rest, name) => if d = c then some (rest, name) else none
  | ([], _) => none

/-- The literals that go on with a character, from behind it on. -/
def descend (c : α) (literals : List (List α × τ)) : List (List α × τ) :=
  literals.filterMap (behind c)

/-- The decision of a switch and of those inside it. No result is the identifier. -/
def decision (isWord : α → Bool) : List α → List (List α × τ) → Option τ
  | [], literals => literals.lookup []
  | c :: input, literals =>
    match descend c literals with
    | [] => if isWord c then none else literals.lookup []
    | literal :: others =>
      if isWord c then decision isWord input (literal :: others) else some literal.2

/-- The literals that go on with several characters, from behind them on. -/
def descendAll : List α → List (List α × τ) → List (List α × τ)
  | [], literals => literals
  | c :: word, literals => descendAll word (descend c literals)

theorem mem_descend {c : α} {literals : List (List α × τ)} {rest : List α} {name : τ} :
    (rest, name) ∈ descend c literals ↔ (c :: rest, name) ∈ literals := by
  rw [descend, List.mem_filterMap]
  constructor
  · rintro ⟨⟨literal, own⟩, member, left⟩
    cases literal with
    | nil => cases left
    | cons d literal =>
      rw [behind] at left
      split at left
      · next same =>
        obtain ⟨rfl, rfl⟩ := Prod.mk.inj (Option.some.inj left)
        rw [← same]
        exact member
      · cases left
  · intro member
    exact ⟨_, member, by simp [behind]⟩

theorem mem_descendAll {word : List α} {literals : List (List α × τ)} {rest : List α} {name : τ} :
    (rest, name) ∈ descendAll word literals ↔ (word ++ rest, name) ∈ literals := by
  induction word generalizing literals with
  | nil => rfl
  | cons c word ih => rw [descendAll, ih, mem_descend, List.cons_append]

/-- To look up a word, descend by its first character and look up the rest. -/
theorem lookup_cons (c : α) (word : List α) (literals : List (List α × τ)) :
    literals.lookup (c :: word) = (descend c literals).lookup word := by
  induction literals with
  | nil => rfl
  | cons literal literals ih =>
    obtain ⟨own, name⟩ := literal
    have step : descend c ((own, name) :: literals) =
        (behind c (own, name)).toList ++ descend c literals := by
      rw [descend, List.filterMap_cons]
      cases behind c (own, name) <;> rfl
    rw [List.lookup_cons, ih, step]
    cases own with
    | nil => rfl
    | cons d own =>
      by_cases same : d = c
      · subst same
        have equal : (d :: word == d :: own) = (word == own) := by
          rw [Bool.eq_iff_iff, beq_iff_eq, beq_iff_eq, List.cons_inj_right]
        simp only [behind, if_true, Option.toList_some, List.singleton_append, List.lookup_cons,
          equal]
      · have different : (c :: word == d :: own) = false := by
          rw [beq_eq_false_iff_ne]
          intro equal
          exact same (List.cons.inj equal).1.symm
        simp [behind, same, different]

/-- The decision in closed form: a literal that goes on behind the longest word comes first, then
the longest word itself is looked up. -/
theorem decision_eq (isWord : α → Bool) (input : List α) (literals : List (List α × τ)) :
    decision isWord input literals =
      ((input.dropWhile isWord).head?.bind fun c =>
        (descendAll (input.takeWhile isWord ++ [c]) literals).head?.map Prod.snd).or
      (literals.lookup (input.takeWhile isWord)) := by
  induction input generalizing literals with
  | nil => rfl
  | cons c input ih =>
    rw [decision, List.takeWhile_cons, List.dropWhile_cons]
    cases wordChar : isWord c with
    | true =>
      simp only [if_true, List.cons_append, descendAll, lookup_cons]
      cases below : descend c literals with
      | nil =>
        have nothing (word : List α) : descendAll word ([] : List (List α × τ)) = [] := by
          induction word with
          | nil => rfl
          | cons c word ih => exact ih
        simp only [nothing, List.head?_nil, Option.map_none, List.lookup_nil]
        cases (input.dropWhile isWord).head? <;> rfl
      | cons literal others => exact ih (literal :: others)
    | false =>
      simp only [Bool.false_eq_true, if_false, List.head?_cons, Option.bind_some, List.nil_append,
        descendAll]
      cases below : descend c literals <;> rfl

/-- Where no literal goes on behind the longest word, that word is looked up. -/
theorem decision_eq_lookup {isWord : α → Bool} {input : List α} {literals : List (List α × τ)}
    (ends : ∀ c ∈ (input.dropWhile isWord).head?, ∀ rest name,
      (input.takeWhile isWord ++ c :: rest, name) ∉ literals) :
    decision isWord input literals = literals.lookup (input.takeWhile isWord) := by
  rw [decision_eq]
  cases next : (input.dropWhile isWord).head? with
  | none => rfl
  | some c =>
    have none : descendAll (input.takeWhile isWord ++ [c]) literals = [] := by
      rw [List.eq_nil_iff_forall_not_mem]
      rintro ⟨rest, name⟩ member
      rw [mem_descendAll, List.append_assoc] at member
      exact ends c next rest name member
    rw [Option.bind_some, none]
    rfl

theorem mem_of_lookup {word : List α} {literals : List (List α × τ)} {name : τ}
    (found : literals.lookup word = some name) : (word, name) ∈ literals := by
  obtain ⟨before, after, rfl, -⟩ := List.lookup_eq_some_iff.mp found
  simp

/-- What is decided for is the longest word, or goes on behind it as the input does. -/
theorem mem_of_decision {isWord : α → Bool} {input : List α} {literals : List (List α × τ)}
    {name : τ} (decided : decision isWord input literals = some name) :
    ∃ behind, (input.takeWhile isWord ++ behind, name) ∈ literals ∧
      ∀ c ∈ behind.head?, (input.dropWhile isWord).head? = some c := by
  rw [decision_eq] at decided
  rcases Option.or_eq_some_iff.mp decided with goesOn | ⟨-, found⟩
  · obtain ⟨c, next, first⟩ := Option.bind_eq_some_iff.mp goesOn
    obtain ⟨⟨rest, own⟩, head, rfl⟩ := Option.map_eq_some_iff.mp first
    have member := mem_descendAll.mp (List.mem_of_mem_head? head)
    rw [List.append_assoc] at member
    refine ⟨c :: rest, member, fun d same => ?_⟩
    rw [← Option.some.inj same]
    exact next
  · exact ⟨[], by simpa using mem_of_lookup found, nofun⟩

end NestedSwitch
