import Pgify.Model.StringLexer
import Pgify.Proofs.Layout

/-! # Words that meet

The printer puts nothing of its own between two leaves. Where the grammar or a worker deleted what
stood between two words, or the lexer put an E in front of a string, only a hidden token keeps the
two apart, and it does so only if the emit test lets it pass in time.
-/

namespace Pgify.Fusion

open Pgify.Model Pgify.Layout CursorMerge

variable (letter : Char → Bool)

/-- A character of an identifier; what is a letter is left open. -/
def identifierChar (c : Char) : Bool :=
  letter c || c.isDigit || c == '_' || c == '$'

/-- The last character of the first text and the first one of the second are identifier
characters. -/
def Meets (first second : String) : Prop :=
  ∃ a b, first.toList.getLast? = some a ∧ second.toList.head? = some b ∧
    identifierChar letter a = true ∧ identifierChar letter b = true

/-- Two leaves meet in identifier characters, and no leaf between the two has a text. -/
def LeavesMeet (first : Tree) (between : List Tree) (second : Tree) : Prop :=
  Meets letter first.getText second.getText ∧ ∀ leaf ∈ between, leaf.getText = ""

/-- At least one hidden token is printed between two leaves that meet. -/
def TokensApart (pieces : List (Token ⊕ Tree)) : Prop :=
  ∀ before first between second after,
    pieces = before ++ .inr first :: (between ++ .inr second :: after) →
      LeavesMeet letter first (rights between) second → lefts between ≠ []

/-- The hidden token at which the shared index stands behind some leaves. -/
def nextHidden (tokens : List Token) (leaves : List Tree) : Option Token :=
  (remaining passes (hidden tokens) leaves).head?

/-- Behind the first of two leaves that meet, the next hidden token is there and passes the emit
test of the second one, or of a leaf without text between the two. -/
def HiddenBetween (tokens : List Token) (leaves : List Tree) : Prop :=
  ∀ earlier first between second later,
    leaves = earlier ++ first :: (between ++ second :: later) →
      LeavesMeet letter first between second →
        ∃ token, nextHidden tokens (earlier ++ [first]) = some token ∧
          ∃ leaf ∈ between ++ [second], passes leaf token = true

/-- The printer keeps the words of the leaves apart exactly when, wherever two of them meet, the
next hidden token passes between them. -/
theorem tokensApart_iff (tokens : List Token) (tree : Option Tree) :
    TokensApart letter (printTree tokens tree).pieces ↔
      HiddenBetween letter tokens (printedLeaves tree) := by
  rw [TokensApart, printTree_pieces]
  exact parted_iff (LeavesMeet letter) (hidden tokens) (printedLeaves tree)

/-- Where layout is not pulled forward, the next hidden token passes between the leaves of two
source tokens exactly when a hidden token stands between the two tokens in the vector. -/
theorem nextHidden_passes_iff (vector : TokenVector) {leaves : List Tree}
    (source : SourceOrdered vector.tokens leaves)
    (held : NextHiddenBlocked vector.tokens leaves) {earlier between later : List Tree}
    {first second : Tree} (cut : leaves = earlier ++ first :: (between ++ second :: later))
    {front middle back : List Token} {a b : Token}
    (place : vector.tokens = front ++ a :: (middle ++ b :: back))
    (carriesFirst : Carries first a) (carriesSecond : Carries second b) :
    (∃ token, nextHidden vector.tokens (earlier ++ [first]) = some token ∧
        ∃ leaf ∈ between ++ [second], passes leaf token = true) ↔ hidden middle ≠ [] := by
  have visible : a.isHidden = false :=
    visible_of_split source (by simp [cut]) place carriesFirst
  have placeSecond : vector.tokens = (front ++ a :: middle) ++ b :: back := by simp [place]
  have homeFirst := home_of_split vector.ordered place carriesFirst
  have homeSecond := home_of_split vector.ordered placeSecond carriesSecond
  have split : hidden (front ++ a :: middle) = hidden front ++ hidden middle :=
    hidden_of_split rfl visible
  have inside : (hidden (front ++ a :: middle)).length ≤ (hidden vector.tokens).length := by
    rw [placeSecond]
    exact ((List.prefix_append _ (b :: back)).filter _).length_le
  refine (next_passes_iff (homes vector source) ((blocked_iff source).mpr held) cut homeFirst
    homeSecond inside).trans ?_
  rw [split, List.length_append, ← List.length_pos_iff]
  omega

/-- The tokens of `SELECT'a'`, as the lexer delivers them with escapes on. -/
private def gluedTokens : List Token :=
  [⟨.kSelect, "SELECT", .default, 1, 0⟩, ⟨.quotedString, "E'a'", .default, 1, 6⟩,
    ⟨.eof, "<EOF>", .default, 1, 9⟩]

private def gluedTree : Tree :=
  .node none [
    .node (some (.imaginary .tSelectStatement "T_SELECT_STATEMENT"))
      [.leaf ⟨.kSelect, "SELECT", .default, 1, 0⟩, .leaf ⟨.quotedString, "E'a'", .default, 1, 6⟩],
    .leaf ⟨.eof, "<EOF>", .default, 1, 9⟩]

/-- The keyword and the string of `SELECT'a'` are printed as one word and a string. -/
theorem not_tokensApart_glued :
    nextTokenAtQuote pgifyEscape "'a'".toList =
        some (⟨.quotedString, "'a'".toList, "E'a'"⟩, []) ∧
      (∃ ws, pgifyString ⟨asciiLower, 0⟩ (walkerstateNew pgifyEscape) gluedTokens
        (some gluedTree) = some ("SELECTE'a'", ws)) ∧
      ¬ TokensApart Char.isAlpha (printTree gluedTokens (some gluedTree)).pieces := by
  refine ⟨by decide, ⟨_, rfl⟩, fun apart => ?_⟩
  refine apart [] (.leaf ⟨.kSelect, "SELECT", .default, 1, 0⟩) []
    (.leaf ⟨.quotedString, "E'a'", .default, 1, 6⟩) [] rfl ?_ rfl
  exact ⟨⟨'T', 'E', by decide, by decide, by decide, by decide⟩, by simp [rights]⟩

end Pgify.Fusion
