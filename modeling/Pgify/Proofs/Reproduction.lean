import Pgify.Model.Calls
import Pgify.Proofs.CreateTableWalk
import Pgify.Proofs.TokenPlaces

/-! # Input that is printed as it was

A tree whose nodes no worker handles and whose leaves are the visible tokens of the input is printed
as the input, as long as no blank or comment is pulled forward and no action has set a text: the
lexer takes the input apart without a gap, and the printer puts the parts together in their order.
-/

namespace Pgify.Reproduction

open Pgify.Model CursorMerge Layout

/-- A tree without a node for a worker. -/
inductive Inert : Tree → Prop
  | node {token : Option Token} {children : List Tree}
      (type : (Model.Tree.node token children).getType.isInert = true)
      (below : ∀ x ∈ children, Inert x) : Inert (.node token children)

theorem Inert.still {tree : Tree} (inert : Inert tree) : Still tree := by
  induction inert with
  | node type _ below => exact .node type below

theorem treeWalkWorker_inert (rt : Runtime) (ws : WalkerState) {tree : Tree}
    (inert : ∀ x ∈ tree.children, Inert x) : treeWalkWorker rt ws tree = some (ws, tree) := by
  cases tree with
  | node token children =>
    have still (x : Tree) (member : x ∈ children) : Still x := (inert x member).still
    have walk : walkChildren rt ws children = some (ws, children.map (walkedTree rt ws)) :=
      walkChildren_of_walked fun x member => ((still x member).walkable.walks rt ws).1
    rw [map_walkedTree_of_still still] at walk
    rw [treeWalkWorker, walk]
    rfl

/-! ## The vector as a sequence of pieces -/

/-- A hidden token, or the leaf of a visible one. -/
def piece (token : Token) : Token ⊕ Tree :=
  if token.isHidden then .inl token else .inr (.leaf token)

def visibleLeaves (tokens : List Token) : List Tree :=
  (tokens.filter fun token => !token.isHidden).map .leaf

theorem lefts_pieces (tokens : List Token) : lefts (tokens.map piece) = Layout.hidden tokens := by
  induction tokens with
  | nil => rfl
  | cons token tokens ih =>
    rw [Layout.hidden] at ih
    rw [List.map_cons, piece, Layout.hidden, List.filter_cons]
    cases own : token.isHidden <;> simp [ih]

theorem rights_pieces (tokens : List Token) : rights (tokens.map piece) = visibleLeaves tokens := by
  induction tokens with
  | nil => rfl
  | cons token tokens ih =>
    rw [visibleLeaves] at ih
    rw [List.map_cons, piece, visibleLeaves, List.filter_cons]
    cases own : token.isHidden <;> simp [ih]

theorem pieceText_piece (token : Token) : pieceText (piece token) = token.text := by
  rw [piece]
  split <;> rfl

theorem piece_eq_inr {token : Token} {leaf : Tree} (own : piece token = .inr leaf) :
    token.isHidden = false ∧ leaf = .leaf token := by
  rw [piece] at own
  split at own
  · cases own
  · next visible => exact ⟨Bool.eq_false_iff.mpr visible, (Sum.inr.inj own).symm⟩

/-- A stop in the pieces is a visible token in the vector. -/
theorem split_pieces {tokens : List Token} {before after : List (Token ⊕ Tree)} {leaf : Tree}
    (split : tokens.map piece = before ++ .inr leaf :: after) :
    ∃ earlier token later, tokens = earlier ++ token :: later ∧ before = earlier.map piece ∧
      after = later.map piece ∧ token.isHidden = false ∧ leaf = .leaf token := by
  obtain ⟨earlier, rest, rfl, rfl, cut⟩ := List.map_eq_append_iff.mp split
  obtain ⟨token, later, rfl, own, rfl⟩ := List.map_eq_cons_iff.mp cut
  obtain ⟨visible, same⟩ := piece_eq_inr own
  exact ⟨earlier, token, later, rfl, rfl, rfl, visible, same⟩

theorem carries_leaf {token : Token} (placed : 0 ≤ token.charPositionInLine) :
    Carries (.leaf token) token := by
  refine ⟨rfl, ?_⟩
  change (if token.charPositionInLine = -1 then 0 else token.charPositionInLine) = _
  rw [if_neg (by omega)]

section Vector

variable (vector : TokenVector)

/-- Tokens at one place are one token. -/
theorem eq_of_carries {leaf : Tree} {first second : Token} (firstMem : first ∈ vector.tokens)
    (secondMem : second ∈ vector.tokens) (carriesFirst : Carries leaf first)
    (carriesSecond : Carries leaf second) : first = second := by
  have apart : vector.tokens.Pairwise fun a b => Carries leaf a → Carries leaf b → a = b := by
    refine vector.ordered.imp ?_
    rintro a b precedes ⟨line, column⟩ ⟨line', column'⟩
    rw [Token.Precedes] at precedes
    omega
  have symmetric : Std.Symm fun a b => Carries leaf a → Carries leaf b → a = b :=
    ⟨fun a b same carriesB carriesA => (same carriesA carriesB).symm⟩
  exact List.Pairwise.forall_of_forall (fun _ _ _ _ => rfl) apart firstMem secondMem
    carriesFirst carriesSecond

/-- Behind its own leaf a hidden token is held unless it is on a later line and in no later
column. -/
theorem not_passes_iff {earlier later : List Token} {token other : Token}
    (place : vector.tokens = earlier ++ token :: later) (member : other ∈ later) :
    passes (.leaf token) other = false ↔
      other.line = token.line ∨ token.charPositionInLine < other.charPositionInLine := by
  have apart := vector.ordered
  rw [place] at apart
  have behind : token.Precedes other :=
    (List.pairwise_cons.mp (List.pairwise_append.mp apart).2.1).1 other member
  have column := (vector.placed token (by simp [place])).2
  obtain ⟨sameLine, sameColumn⟩ := carries_leaf column
  rw [passes, sameLine, sameColumn, decide_eq_false_iff_not]
  rcases behind with low | ⟨line, left⟩ <;> omega

/-- The tokens in the order of the vector are the merge of the printer exactly when no hidden token
is pulled in front of the token that it follows. -/
theorem merge_eq_pieces_iff :
    merge passes (Layout.hidden vector.tokens) (visibleLeaves vector.tokens) =
        vector.tokens.map piece ↔
      NextHiddenBlocked vector.tokens (visibleLeaves vector.tokens) := by
  rw [← lefts_pieces, ← rights_pieces, merge_eq_self_iff]
  · constructor
    · intro held leaf member earlier token later place carries other next
      rw [rights_pieces] at member
      obtain ⟨source, sourceMem, rfl⟩ := List.mem_map.mp member
      obtain ⟨present, visible⟩ := List.mem_filter.mp sourceMem
      have own := carries_leaf (vector.placed source present).2
      obtain rfl := eq_of_carries vector present (by simp [place]) own carries
      have cut : vector.tokens.map piece =
          earlier.map piece ++ .inr (.leaf source) :: later.map piece := by
        rw [place, List.map_append, List.map_cons, piece, if_neg (by simpa using visible)]
      refine (not_passes_iff vector place ?_).mp (held _ _ _ cut other ?_)
      · exact (List.mem_filter.mp (List.mem_of_mem_head? next)).1
      · rwa [lefts_pieces]
    · intro blocked before stop after split item next
      obtain ⟨earlier, token, later, place, rfl, rfl, visible, rfl⟩ := split_pieces split
      rw [lefts_pieces] at next
      refine (not_passes_iff vector place ?_).mpr ?_
      · exact (List.mem_filter.mp (List.mem_of_mem_head? next)).1
      · refine blocked (.leaf token) ?_ earlier token later place ?_ item next
        · rw [rights_pieces]
          exact List.mem_map_of_mem (List.mem_filter.mpr ⟨by simp [place], by simp [visible]⟩)
        · exact carries_leaf (vector.placed token (by simp [place])).2
  · intro before stop after split item member
    obtain ⟨earlier, token, later, place, rfl, rfl, visible, rfl⟩ := split_pieces split
    rw [lefts_pieces] at member
    exact (carries_leaf (vector.placed token (by simp [place])).2).passes
      (precedes_of_split vector.ordered place item (List.mem_filter.mp member).1)

end Vector

/-! ## The text of the input -/

variable {rt : Runtime} {options : ℕ} {bytes : List UInt8}

/-- What a turn of the lexer leaves of its stretch. -/
def outcome (stretch : Stretch) : String :=
  (stretch.token.map Token.text).getD ""

/-- The input with every stretch replaced by the text of its token. -/
def retold (rt : Runtime) (options : ℕ) (bytes : List UInt8) : String :=
  String.join ((lexStretches rt options bytes).map outcome)

/-- No turn of the lexer dropped anything, and no action set a text. -/
def Verbatim (rt : Runtime) (options : ℕ) (bytes : List UInt8) : Prop :=
  ∀ stretch ∈ lexStretches rt options bytes, outcome stretch = spanText stretch.span

/-- Only a blank or a comment reaches over the end of a line. -/
def SingleLine (rt : Runtime) (options : ℕ) (bytes : List UInt8) : Prop :=
  ∀ stretch ∈ lexStretches rt options bytes,
    (∀ token, stretch.token = some token → token.isHidden = false) →
      TokenPlaces.newline ∉ stretch.span

theorem spanText_append (first second : List UInt8) :
    spanText (first ++ second) = spanText first ++ spanText second := by
  rw [spanText, List.map_append, String.ofList_append]
  rfl

theorem join_outcomes (stretches : List Stretch) :
    String.join (stretches.map outcome) =
      String.join ((stretches.filterMap Stretch.token).map Token.text) := by
  induction stretches with
  | nil => rfl
  | cons stretch stretches ih =>
    rw [List.map_cons, String.join_cons, ih, outcome]
    cases own : stretch.token with
    | none =>
      rw [List.filterMap_cons_none own]
      simp
    | some token =>
      rw [List.filterMap_cons_some own, List.map_cons, String.join_cons]
      rfl

theorem join_pieces : String.join (((lex rt options bytes).tokens.map piece).map pieceText) =
    retold rt options bytes := by
  rw [retold, join_outcomes, List.map_map]
  exact congrArg String.join (List.map_congr_left fun token _ => pieceText_piece token)

theorem join_spans (stretches : List Stretch) :
    String.join (stretches.map fun stretch => spanText stretch.span) =
      spanText (stretches.flatMap Stretch.span) := by
  induction stretches with
  | nil => rfl
  | cons stretch stretches ih =>
    rw [List.map_cons, String.join_cons, ih, List.flatMap_cons, spanText_append]

theorem retold_of_verbatim (verbatim : Verbatim rt options bytes) :
    retold rt options bytes = spanText bytes := by
  rw [retold, List.map_congr_left verbatim, join_spans, TokenPlaces.flatMap_lexStretches]

/-- The stretches between two tokens of the vector have the tokens between them. -/
theorem split_stretches {stretches : List Stretch} {earlier between later : List Token}
    {first second : Token}
    (split : stretches.filterMap Stretch.token =
      earlier ++ first :: (between ++ second :: later)) :
    ∃ front own middle next behind,
      stretches = (front ++ own :: middle) ++ next :: behind ∧ own.token = some first ∧
        middle.filterMap Stretch.token = between ∧ next.token = some second := by
  obtain ⟨front, rest, rfl, -, cut⟩ := List.filterMap_eq_append_iff.mp split
  obtain ⟨dropped, own, rest, rfl, -, ownToken, cut⟩ := List.filterMap_eq_cons_iff.mp cut
  obtain ⟨middle, rest, rfl, middleTokens, cut⟩ := List.filterMap_eq_append_iff.mp cut
  obtain ⟨lost, next, behind, rfl, none, nextToken, -⟩ := List.filterMap_eq_cons_iff.mp cut
  refine ⟨front ++ dropped, own, middle ++ lost, next, behind, by simp, ownToken, ?_, nextToken⟩
  rw [List.filterMap_append, middleTokens, List.filterMap_eq_nil_iff.mpr none, List.append_nil]

/-- Then the blank or comment next to a token starts on its line. -/
theorem nextHiddenBlocked_of_singleLine (singleLine : SingleLine rt options bytes) :
    NextHiddenBlocked (lex rt options bytes).tokens
      (visibleLeaves (lex rt options bytes).tokens) := by
  intro leaf member earlier token later place carries other next
  obtain ⟨source, sourceMem, rfl⟩ := List.mem_map.mp member
  obtain ⟨present, visible⟩ := List.mem_filter.mp sourceMem
  have own := carries_leaf (TokenPlaces.placed rt options bytes source present).2
  obtain rfl := eq_of_carries (TokenPlaces.vector rt options bytes) present
    (by rw [show (TokenPlaces.vector rt options bytes).tokens = _ from place]; simp) own carries
  rw [Layout.hidden, List.head?_filter, List.find?_eq_some_iff_append] at next
  obtain ⟨-, between, behind, rfl, skipped⟩ := next
  obtain ⟨front, first, middle, second, rest, whole, firstToken, tokens, secondToken⟩ :=
    split_stretches place
  have cut : lexStretches rt options bytes = front ++ first :: (middle ++ second :: rest) := by
    rw [whole, List.append_assoc, List.cons_append]
  have line := (TokenPlaces.place_of_split rt options bytes cut firstToken).1
  have line' := (TokenPlaces.place_of_split rt options bytes whole secondToken).1
  have unbroken : TokenPlaces.newline ∉ (first :: middle).flatMap Stretch.span := by
    intro newline
    obtain ⟨stretch, inside, newline⟩ := List.mem_flatMap.mp newline
    refine singleLine stretch ?_ (fun token own => ?_) newline
    · rw [whole]
      exact List.mem_append_left _ (List.mem_append_right _ inside)
    · rcases List.mem_cons.mp inside with rfl | inside
      · obtain rfl := Option.some.inj (firstToken.symm.trans own)
        simpa using visible
      · have member : token ∈ between := tokens ▸ List.mem_filterMap.mpr ⟨stretch, inside, own⟩
        simpa using skipped token member
  rw [List.flatMap_append, List.count_append, List.count_eq_zero.mpr unbroken] at line'
  exact Or.inl (line'.trans line.symm)

section Complete

variable {tree : Tree}
  (complete : printedLeaves (some tree) = visibleLeaves (lex rt options bytes).tokens)

include complete

theorem pieces_eq_iff : (printTree (lex rt options bytes).tokens (some tree)).pieces =
      (lex rt options bytes).tokens.map piece ↔
    NextHiddenBlocked (lex rt options bytes).tokens (printedLeaves (some tree)) := by
  rw [printTree_pieces, complete]
  exact merge_eq_pieces_iff (TokenPlaces.vector rt options bytes)

/-- Over its visible tokens, the input is printed as the texts of its tokens. -/
theorem pgifyString_retold (ws : WalkerState) (inert : ∀ x ∈ tree.children, Inert x)
    (settled : ws.postbuf = "")
    (blocked : NextHiddenBlocked (lex rt options bytes).tokens (printedLeaves (some tree))) :
    pgifyString rt ws (lex rt options bytes).tokens (some tree) =
      some (retold rt options bytes, ws) := by
  have text : (printTree (lex rt options bytes).tokens (some tree)).text =
      retold rt options bytes := by
    rw [printTree_text, (pieces_eq_iff complete).mpr blocked, join_pieces]
  rw [pgifyString, pgify, treeWalkWorker_inert rt ws inert]
  simp only [Option.map_some, text, printPostbuf_eq, settled, withGenerated, if_true]
  rw [← settled]

theorem blocked_of_singleLine (singleLine : SingleLine rt options bytes) :
    NextHiddenBlocked (lex rt options bytes).tokens (printedLeaves (some tree)) :=
  complete ▸ nextHiddenBlocked_of_singleLine singleLine

end Complete

/-- `;`, a comment up to the end of the line, and `;`. -/
private def semiBytes : List UInt8 := bytesOf "; -- one\n;"

private def semiTree : Tree :=
  .node none [.leaf ⟨.semi, ";", .default, 1, 0⟩, .leaf ⟨.semi, ";", .default, 2, 0⟩,
    .leaf ⟨.eof, "<EOF>", .default, 2, 1⟩]

private theorem semiStretches : lexStretches ⟨id, 0⟩ 0 semiBytes =
    [⟨bytesOf ";", some ⟨.semi, ";", .default, 1, 0⟩⟩, ⟨bytesOf " ", some ⟨.ws, " ", .hidden, 1, 1⟩⟩,
      ⟨bytesOf "-- one\n", some ⟨.slComment, "-- one\n", .hidden, 1, 2⟩⟩,
      ⟨bytesOf ";", some ⟨.semi, ";", .default, 2, 0⟩⟩] := by
  decide +kernel

end Pgify.Reproduction
