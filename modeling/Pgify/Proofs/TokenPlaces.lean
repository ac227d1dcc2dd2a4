import Pgify.Model.Lexer
import Pgify.Proofs.Layout

/-! # The token vector of an input

The turns of the lexer take the whole input apart: what its tokens were matched on and what it
dropped behind errors is the input, in order and without a gap. A token says where its stretch
starts, so the places in the vector increase, which is what the printer relies on.
-/

namespace Pgify.TokenPlaces

open Pgify.Model

def newline : UInt8 := '\n'.toUInt8

/-! ## Places -/

/-- The characters behind the last newline. -/
def lastLine (consumed : List UInt8) : List UInt8 :=
  (consumed.reverse.takeWhile (· != newline)).reverse

/-- Later in the input. -/
def Before (first second : Place) : Prop :=
  first.line < second.line ∨
    first.line = second.line ∧ first.charPositionInLine < second.charPositionInLine

instance : IsTrans Place Before where
  trans := by
    intro first second third before after
    simp only [Before] at before after ⊢
    omega

theorem before_advance (place : Place) (c : UInt8) : Before place (place.advance c) := by
  rw [Place.advance]
  split
  · exact Or.inl (Nat.lt_succ_self _)
  · exact Or.inr ⟨rfl, Nat.lt_succ_self _⟩

/-- The stream counts the newlines and the characters behind the last one. -/
theorem foldl_advance (consumed : List UInt8) :
    consumed.foldl Place.advance Place.start =
      ⟨1 + consumed.count newline, (lastLine consumed).length⟩ := by
  induction consumed using List.reverseRecOn with
  | nil => rfl
  | append_singleton consumed c ih =>
    rw [List.foldl_append, ih, List.foldl_cons, List.foldl_nil, Place.advance, lastLine, lastLine,
      List.count_append, List.reverse_append, List.reverse_singleton, List.singleton_append,
      List.takeWhile_cons]
    by_cases ends : c = newline
    · subst ends
      simp [newline]
      omega
    · have other : ¬c = '\n'.toUInt8 := ends
      simp [ends, other]

/-! ## Stretches -/

variable (rt : Runtime) (options : ℕ) (bytes : List UInt8)

theorem flatMap_span (visits : List (Place × LexerState)) :
    (visits.map fun (place, s) => stretchAt rt options place s).flatMap Stretch.span =
      lexer.taken visits := by
  rw [List.flatMap_map]
  rfl

/-- What the turns consume is the input. -/
theorem flatMap_lexStretches : (lexStretches rt options bytes).flatMap Stretch.span = bytes := by
  rw [lexStretches, flatMap_span]
  exact Scanner.taken_visits le_rfl

theorem span_ne_nil {stretch : Stretch} (member : stretch ∈ lexStretches rt options bytes) :
    stretch.span ≠ [] := by
  obtain ⟨visit, visited, rfl⟩ := List.mem_map.mp member
  exact Scanner.span_ne_nil (Scanner.rest_of_mem_visits visit visited)

/-- A token of a turn is the token of a rule, at the place of the turn. -/
theorem token_stretchAt {place : Place} {s : LexerState} {token : Token}
    (own : (stretchAt rt options place s).token = some token) :
    token.line = place.line ∧ token.charPositionInLine = place.charPositionInLine := by
  rw [stretchAt] at own
  dsimp only at own
  split at own
  · cases own
  · obtain ⟨rule, -, rfl⟩ := Option.map_eq_some_iff.mp own
    exact ⟨rfl, rfl⟩

theorem place_of_split {before after : List Stretch} {stretch : Stretch} {token : Token}
    (split : lexStretches rt options bytes = before ++ stretch :: after)
    (own : stretch.token = some token) :
    token.line = 1 + (before.flatMap Stretch.span).count newline ∧
      token.charPositionInLine = (lastLine (before.flatMap Stretch.span)).length := by
  obtain ⟨front, behind, visits, rfl, cut⟩ := List.map_eq_append_iff.mp split
  obtain ⟨visit, rest, rfl, rfl, -⟩ := List.map_eq_cons_iff.mp cut
  have place := Scanner.place_of_split visits
  rw [foldl_advance] at place
  obtain ⟨line, column⟩ := token_stretchAt rt options own
  rw [flatMap_span, line, column, place]
  exact ⟨rfl, rfl⟩

theorem ordered : (lex rt options bytes).tokens.Pairwise Token.Precedes := by
  have visits : (lexer.visits Place.advance bytes.length Place.start
      (pgifyLexer .raw bytes)).Pairwise fun first second => Before first.1 second.1 :=
    Scanner.visits_pairwise before_advance
  rw [lex, lexStretches, List.filterMap_map, List.pairwise_filterMap]
  refine visits.imp ?_
  rintro first second before token own token' own'
  obtain ⟨line, column⟩ := token_stretchAt rt options own
  obtain ⟨line', column'⟩ := token_stretchAt rt options own'
  rw [Token.Precedes, line, column, line', column']
  exact before.imp id fun same => ⟨same.1, Int.ofNat_lt.mpr same.2⟩

theorem placed : ∀ token ∈ (lex rt options bytes).tokens,
    1 ≤ token.line ∧ 0 ≤ token.charPositionInLine := by
  intro token member
  obtain ⟨stretch, taken, own⟩ := List.mem_filterMap.mp member
  obtain ⟨before, after, split⟩ := List.append_of_mem taken
  obtain ⟨line, column⟩ := place_of_split rt options bytes split own
  rw [line, column]
  exact ⟨Nat.le_add_right 1 _, Int.natCast_nonneg _⟩

/-- The vector of an input, with what the printer relies on. -/
def vector : Layout.TokenVector :=
  ⟨(lex rt options bytes).tokens, ordered rt options bytes, placed rt options bytes⟩

end Pgify.TokenPlaces
