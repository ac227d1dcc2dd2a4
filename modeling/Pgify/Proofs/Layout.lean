import Pgify.Model.Printer

/-! # Where the printer puts blanks and comments

The hidden tokens of the vector and the leaves of the tree are two sequences that the printer
interleaves. Whatever the tree looks like, no hidden token is lost, repeated or printed too late.
Whether one is printed too early depends on the columns alone, because the emit test compares the
column of a hidden token on every line.
-/

namespace Pgify.Layout

open Pgify.Model CursorMerge

/-- The leaf stands at the place of the token. -/
def Carries (leaf : Tree) (token : Token) : Prop :=
  leaf.getLine = token.line ∧ leaf.getCharPositionInLine = token.charPositionInLine

instance (leaf : Tree) (token : Token) : Decidable (Carries leaf token) :=
  inferInstanceAs (Decidable (_ ∧ _))

/-- The hidden tokens of a stretch of the vector. -/
def hidden (tokens : List Token) : List Token :=
  tokens.filter Token.isHidden

theorem Carries.passes {leaf : Tree} {token other : Token} (carries : Carries leaf token)
    (precedes : other.Precedes token) : passes leaf other = true := by
  obtain ⟨line, column⟩ := carries
  simp only [Model.passes, line, column, decide_eq_true_eq]
  rcases precedes with earlier | ⟨-, left⟩
  · exact Or.inl earlier
  · exact Or.inr (Int.le_of_lt left)

theorem precedes_irrefl (token : Token) : ¬ token.Precedes token := by
  rintro (line | ⟨-, column⟩)
  · exact Nat.lt_irrefl _ line
  · exact Int.lt_irrefl _ column

theorem precedes_of_split {tokens earlier later : List Token} {token : Token}
    (ordered : tokens.Pairwise Token.Precedes) (place : tokens = earlier ++ token :: later) :
    ∀ other ∈ earlier, other.Precedes token := by
  subst place
  intro other member
  exact (List.pairwise_append.mp ordered).2.2 other member token List.mem_cons_self

/-- The hidden tokens and the leaves are printed once each and in order, and a leaf that stands at
the place of a token has every earlier hidden token in front of it. -/
theorem conserves_hidden_text (tokens : List Token) (ordered : tokens.Pairwise Token.Precedes)
    (tree : Option Tree) :
    (printTree tokens tree).text =
        String.join ((printTree tokens tree).pieces.map pieceText) ∧
      lefts (printTree tokens tree).pieces = hidden tokens ∧
      rights (printTree tokens tree).pieces = printedLeaves tree ∧
      ∀ before leaf after, (printTree tokens tree).pieces = before ++ .inr leaf :: after →
        ∀ earlier token later, tokens = earlier ++ token :: later → Carries leaf token →
          hidden earlier <+: lefts before := by
  have merged := printTree_pieces tokens tree
  refine ⟨printTree_text tokens tree, ?_, ?_, ?_⟩
  · rw [merged]
    exact lefts_merge _ _
  · rw [merged]
    exact rights_merge _ _
  · intro before leaf after split earlier token later place carries
    rw [merged] at split
    have front : hidden earlier <+: hidden tokens := by
      rw [place]
      exact (List.prefix_append earlier _).filter _
    have taken : (hidden tokens).take (hidden earlier).length = hidden earlier :=
      (List.prefix_iff_eq_take.mp front).symm
    have enough := length_before_ge split (hidden earlier).length (by
      intro other member
      change other ∈ (hidden tokens).take _ at member
      rw [taken] at member
      exact carries.passes (precedes_of_split ordered place other (List.mem_filter.mp member).1))
    refine List.prefix_of_prefix_length_le front (prefix_lefts_before split) ?_
    have whole := front.length_le
    simp only [hidden] at enough whole ⊢
    omega

private def deletedColumn : List Token :=
  [⟨.id, "a", .default, 1, 0⟩, ⟨.ws, " ", .hidden, 1, 1⟩, ⟨.kDouble, "DOUBLE", .default, 1, 2⟩,
    ⟨.mlComment, "/**/", .hidden, 1, 8⟩, ⟨.id, "b", .default, 1, 12⟩]

theorem conserves_hidden_text_reordered :
    deletedColumn.Pairwise Token.Precedes ∧
      lefts (printTree deletedColumn (some (.node none [.leaf ⟨.id, "b", .default, 1, 12⟩,
        .leaf ⟨.id, "a", .default, 1, 0⟩]))).pieces = hidden deletedColumn :=
  ⟨by decide, (conserves_hidden_text deletedColumn (by decide) _).2.1⟩

/-! ## Layout that is pulled forward -/

/-- What the lexer delivers: places that increase, on lines from 1 and in columns from 0. -/
structure TokenVector where
  tokens : List Token
  ordered : tokens.Pairwise Token.Precedes
  placed : ∀ token ∈ tokens, 1 ≤ token.line ∧ 0 ≤ token.charPositionInLine

/-- Every leaf carries a visible token of the vector or stands at no place, and the leaves that
carry tokens stand in the order of the tokens. -/
def SourceOrdered (tokens : List Token) (leaves : List Tree) : Prop :=
  (∀ leaf ∈ leaves,
    (∃ token ∈ tokens, token.isHidden = false ∧ Carries leaf token) ∨
      leaf.getLine = 0 ∧ leaf.getCharPositionInLine = 0) ∧
  leaves.Pairwise fun first second => ∀ a ∈ tokens, ∀ b ∈ tokens,
    Carries first a → Carries second b → ¬ b.Precedes a

instance (tokens : List Token) (leaves : List Tree) : Decidable (SourceOrdered tokens leaves) :=
  inferInstanceAs (Decidable (_ ∧ _))

/-- No hidden token is printed in front of a leaf whose token stands before it in the vector. -/
def NeverAhead (tokens : List Token) (tree : Option Tree) : Prop :=
  ∀ before leaf after, (printTree tokens tree).pieces = before ++ .inr leaf :: after →
    ∀ earlier token later, tokens = earlier ++ token :: later → Carries leaf token →
      ∀ other ∈ hidden later, other ∉ lefts before

/-- The first hidden token behind the token of a leaf is on the same line or in a later column. -/
def NextHiddenBlocked (tokens : List Token) (leaves : List Tree) : Prop :=
  ∀ leaf ∈ leaves, ∀ earlier token later, tokens = earlier ++ token :: later →
    Carries leaf token → ∀ other, (hidden later).head? = some other →
      other.line = token.line ∨ token.charPositionInLine < other.charPositionInLine

/-- The number of hidden tokens in front of the token that a leaf carries. -/
def home (tokens : List Token) (leaf : Tree) : Option ℕ :=
  (tokens.findIdx? fun token => Carries leaf token).map fun index =>
    (hidden (tokens.take index)).length

theorem home_of_split {tokens earlier later : List Token} {token : Token} {leaf : Tree}
    (ordered : tokens.Pairwise Token.Precedes) (place : tokens = earlier ++ token :: later)
    (carries : Carries leaf token) : home tokens leaf = some (hidden earlier).length := by
  have miss : ∀ other ∈ earlier, decide (Carries leaf other) = false := by
    intro other member
    have precedes := precedes_of_split ordered place other member
    simp only [decide_eq_false_iff_not]
    rintro ⟨line, column⟩
    obtain ⟨line', column'⟩ := carries
    rcases precedes with earlier | ⟨-, left⟩ <;> omega
  rw [home, place, List.findIdx?_append, List.findIdx?_eq_none_iff.mpr miss, List.findIdx?_cons,
    if_pos (decide_eq_true carries)]
  simp

private theorem split_of_home {tokens : List Token} {leaf : Tree} {n : ℕ}
    (own : home tokens leaf = some n) : ∃ earlier token later,
      tokens = earlier ++ token :: later ∧ Carries leaf token ∧ n = (hidden earlier).length := by
  obtain ⟨index, found, rfl⟩ := Option.map_eq_some_iff.mp own
  obtain ⟨bound, carries, -⟩ := List.findIdx?_eq_some_iff_getElem.mp found
  refine ⟨tokens.take index, tokens[index], tokens.drop (index + 1), ?_,
    of_decide_eq_true carries, rfl⟩
  rw [List.getElem_cons_drop, List.take_append_drop]

private theorem carries_of_home {tokens : List Token} {leaf : Tree} {n : ℕ}
    (own : home tokens leaf = some n) : ∃ token ∈ tokens, Carries leaf token := by
  obtain ⟨earlier, token, later, rfl, carries, -⟩ := split_of_home own
  exact ⟨token, by simp, carries⟩

/-- A leaf that carries a token carries a visible one, and only that one. -/
theorem visible_of_split {vector : TokenVector} {leaves : List Tree} {leaf : Tree}
    (source : SourceOrdered vector.tokens leaves) (member : leaf ∈ leaves)
    {earlier later : List Token} {token : Token} (place : vector.tokens = earlier ++ token :: later)
    (carries : Carries leaf token) : token.isHidden = false := by
  have present : token ∈ vector.tokens := by simp [place]
  rcases source.1 leaf member with ⟨other, otherMem, visible, carriesOther⟩ | ⟨noLine, -⟩
  · obtain ⟨front, back, split⟩ := List.append_of_mem otherMem
    have first := home_of_split vector.ordered place carries
    have same : other = token := by
      have apart := vector.ordered
      rw [place] at apart otherMem
      obtain ⟨-, tail, cross⟩ := List.pairwise_append.mp apart
      obtain ⟨line, column⟩ := carries
      obtain ⟨line', column'⟩ := carriesOther
      rcases List.mem_append.mp otherMem with before | behind
      · rcases cross other before token List.mem_cons_self with low | ⟨-, left⟩ <;> omega
      · rcases List.mem_cons.mp behind with rfl | behind
        · rfl
        · rcases (List.pairwise_cons.mp tail).1 other behind with low | ⟨-, left⟩ <;> omega
    rwa [← same]
  · have line := (vector.placed token present).1
    rw [carries.1] at noLine
    omega

theorem homes (vector : TokenVector) {leaves : List Tree}
    (source : SourceOrdered vector.tokens leaves) :
    Homes passes (hidden vector.tokens) leaves (home vector.tokens) where
  ordered := by
    refine source.2.imp fun {first second} inOrder m n homeFirst homeSecond => ?_
    obtain ⟨earlier, a, later, place, carries, rfl⟩ := split_of_home homeFirst
    obtain ⟨earlier', b, later', place', carries', rfl⟩ := split_of_home homeSecond
    have notBefore := inOrder a (by simp [place]) b (by simp [place']) carries carries'
    -- The token of the second leaf does not stand before that of the first, so the part of the
    -- vector in front of the first is the shorter one.
    have shorter : earlier.length ≤ earlier'.length := by
      by_contra longer
      have inside : b ∈ earlier := by
        have whole : earlier <+: vector.tokens := ⟨a :: later, place.symm⟩
        have whole' : earlier' ++ [b] <+: vector.tokens := ⟨later', by rw [place']; simp⟩
        have front := List.prefix_of_prefix_length_le whole' whole (by simp; omega)
        exact front.subset (by simp)
      exact notBefore (precedes_of_split vector.ordered place b inside)
    have whole : earlier <+: vector.tokens := ⟨a :: later, place.symm⟩
    have whole' : earlier' <+: vector.tokens := ⟨b :: later', place'.symm⟩
    have front := List.prefix_of_prefix_length_le whole whole' shorter
    exact (front.filter _).length_le
  early := by
    intro leaf member m own other taken
    obtain ⟨earlier, token, later, place, carries, rfl⟩ := split_of_home own
    have front : hidden earlier <+: hidden vector.tokens := by
      rw [place]
      exact (List.prefix_append earlier _).filter _
    rw [← List.prefix_iff_eq_take.mp front] at taken
    exact carries.passes
      (precedes_of_split vector.ordered place other (List.mem_filter.mp taken).1)
  homeless := by
    intro first firstMem own second secondMem placed other pass
    obtain ⟨n, homeSecond⟩ := Option.isSome_iff_exists.mp placed
    obtain ⟨token, tokenMem, carries⟩ := carries_of_home homeSecond
    -- A leaf without a place lets only column 0 pass, and no token stands left of that.
    have noPlace : first.getLine = 0 ∧ first.getCharPositionInLine = 0 := by
      rcases source.1 first firstMem with ⟨token, present, -, carriesFirst⟩ | noPlace
      · obtain ⟨earlier, later, split⟩ := List.append_of_mem present
        rw [home_of_split vector.ordered split carriesFirst] at own
        contradiction
      · exact noPlace
    simp only [Model.passes, noPlace.1, noPlace.2, decide_eq_true_eq] at pass
    have column := (vector.placed token tokenMem).2
    simp only [Model.passes, carries.1, carries.2, decide_eq_true_eq]
    omega

/-- A visible token parts the hidden ones. -/
theorem hidden_of_split {tokens earlier later : List Token} {token : Token}
    (place : tokens = earlier ++ token :: later) (visible : token.isHidden = false) :
    hidden tokens = hidden earlier ++ hidden later := by
  simp [place, hidden, visible]

/-- In the stream of hidden tokens the place of a leaf is held by the next hidden token. -/
private theorem getElem?_home {tokens earlier later : List Token} {token : Token}
    (place : tokens = earlier ++ token :: later) (visible : token.isHidden = false) :
    (hidden tokens)[(hidden earlier).length]? = (hidden later).head? := by
  rw [hidden_of_split place visible, List.getElem?_append_right (Nat.le_refl _), Nat.sub_self,
    List.head?_eq_getElem?]

theorem blocked_iff {vector : TokenVector} {leaves : List Tree}
    (source : SourceOrdered vector.tokens leaves) :
    Blocked passes (hidden vector.tokens) leaves (home vector.tokens) ↔
      NextHiddenBlocked vector.tokens leaves := by
  have test {leaf : Tree} {earlier later : List Token} {token other : Token}
      (place : vector.tokens = earlier ++ token :: later) (carries : Carries leaf token)
      (next : (hidden later).head? = some other) :
      passes leaf other = false ↔
        other.line = token.line ∨ token.charPositionInLine < other.charPositionInLine := by
    have apart := vector.ordered
    rw [place] at apart
    have behind : token.Precedes other :=
      (List.pairwise_cons.mp (List.pairwise_append.mp apart).2.1).1 other
        (List.mem_filter.mp (List.mem_of_mem_head? next)).1
    simp only [Model.passes, carries.1, carries.2, decide_eq_false_iff_not]
    rcases behind with low | ⟨line, left⟩ <;> omega
  constructor
  · intro blocked leaf member earlier token later place carries other next
    have visible := visible_of_split source member place carries
    refine (test place carries next).mp (blocked leaf member _
      (home_of_split vector.ordered place carries) other ?_)
    rwa [getElem?_home place visible]
  · intro held leaf member n own other present
    obtain ⟨earlier, token, later, place, carries, rfl⟩ := split_of_home own
    have visible := visible_of_split source member place carries
    rw [getElem?_home place visible] at present
    exact (test place carries present).mpr (held leaf member earlier token later place carries
      other present)

private theorem neverAhead_iff_length {vector : TokenVector} {tree : Option Tree}
    (source : SourceOrdered vector.tokens (printedLeaves tree)) :
    NeverAhead vector.tokens tree ↔ ∀ before stop after m,
      merge passes (hidden vector.tokens) (printedLeaves tree) = before ++ .inr stop :: after →
        home vector.tokens stop = some m → (lefts before).length ≤ m := by
  have visible {before after : List (Token ⊕ Tree)} {stop : Tree}
      (split : merge passes (hidden vector.tokens) (printedLeaves tree) =
        before ++ .inr stop :: after) {earlier later : List Token} {token : Token}
      (place : vector.tokens = earlier ++ token :: later) (carries : Carries stop token) :
      token.isHidden = false := by
    refine visible_of_split source ?_ place carries
    obtain ⟨front, back, stops, -⟩ := split_remaining split
    simp [stops]
  simp only [NeverAhead, printTree_pieces]
  constructor
  · intro never before stop after m split own
    obtain ⟨earlier, token, later, place, carries, rfl⟩ := split_of_home own
    by_contra ahead
    have parted := hidden_of_split place (visible split place carries)
    obtain ⟨rest, conserved⟩ := prefix_lefts_before split
    have whole : hidden earlier <+: hidden vector.tokens := ⟨_, parted.symm⟩
    have printed : lefts before <+: hidden vector.tokens := ⟨rest, conserved⟩
    have front := List.prefix_of_prefix_length_le whole printed (by omega)
    obtain ⟨extra, grown⟩ := front
    cases extra with
    | nil => simp [← grown] at ahead
    | cons other extra =>
      have inLater : other ∈ hidden later := by
        change lefts before ++ rest = hidden vector.tokens at conserved
        rw [parted, ← grown, List.append_assoc] at conserved
        rw [← List.append_cancel_left conserved]
        simp
      exact never before stop after split earlier token later place carries other inLater
        (by rw [← grown]; simp)
  · intro short before stop after split earlier token later place carries other behind present
    have own := home_of_split vector.ordered place carries
    have bound := short before stop after _ split own
    have parted := hidden_of_split place (visible split place carries)
    have front : lefts before <+: hidden earlier :=
      List.prefix_of_prefix_length_le (prefix_lefts_before split) ⟨_, parted.symm⟩ bound
    have inEarlier := (List.mem_filter.mp (front.subset present)).1
    have apart := vector.ordered
    rw [place] at apart
    have crossed := (List.pairwise_append.mp apart).2.2 other inEarlier other
      (List.mem_cons_of_mem _ (List.mem_filter.mp behind).1)
    exact precedes_irrefl other crossed

/-- Layout stays behind the tokens it follows exactly when the hidden token next behind every
printed source token is on the token's line or in a later column. -/
theorem neverAhead_iff_nextHiddenBlocked (vector : TokenVector) (tree : Option Tree)
    (source : SourceOrdered vector.tokens (printedLeaves tree)) :
    NeverAhead vector.tokens tree ↔ NextHiddenBlocked vector.tokens (printedLeaves tree) := by
  rw [neverAhead_iff_length source]
  exact (never_ahead_iff (homes vector source)).trans (blocked_iff source)

/-- `SELECT 1,'` and, on the next line, `' ,2`. -/
private def spanningTokens : List Token :=
  [⟨.kSelect, "SELECT", .default, 1, 0⟩, ⟨.ws, " ", .hidden, 1, 6⟩,
    ⟨.number, "1", .default, 1, 7⟩, ⟨.comma, ",", .default, 1, 8⟩,
    ⟨.quotedString, "E'\n'", .default, 1, 9⟩, ⟨.ws, " ", .hidden, 2, 1⟩,
    ⟨.comma, ",", .default, 2, 2⟩, ⟨.number, "2", .default, 2, 3⟩,
    ⟨.eof, "<EOF>", .default, 2, 4⟩]

private def spanningVector : TokenVector :=
  ⟨spanningTokens, by decide, by decide⟩

private def spanningTree : Tree :=
  .node none [
    .node (some (.imaginary .tSelectStatement "T_SELECT_STATEMENT")) [
      .leaf ⟨.kSelect, "SELECT", .default, 1, 0⟩, .leaf ⟨.number, "1", .default, 1, 7⟩,
      .leaf ⟨.comma, ",", .default, 1, 8⟩, .leaf ⟨.quotedString, "E'\n'", .default, 1, 9⟩,
      .leaf ⟨.comma, ",", .default, 2, 2⟩, .leaf ⟨.number, "2", .default, 2, 3⟩],
    .leaf ⟨.eof, "<EOF>", .default, 2, 4⟩]

/-- The blank behind the string literal is printed in front of the first number. -/
theorem not_neverAhead_spanning :
    (printTree spanningTokens (some spanningTree)).text = "SELECT  1,E'\n',2" ∧
      SourceOrdered spanningVector.tokens (printedLeaves (some spanningTree)) ∧
      ¬ NeverAhead spanningVector.tokens (some spanningTree) := by
  refine ⟨by decide, by decide, fun never => ?_⟩
  refine never
    [.inr (.leaf ⟨.kSelect, "SELECT", .default, 1, 0⟩), .inl ⟨.ws, " ", .hidden, 1, 6⟩,
      .inl ⟨.ws, " ", .hidden, 2, 1⟩] (.leaf ⟨.number, "1", .default, 1, 7⟩) _ rfl
    (spanningTokens.take 2) ⟨.number, "1", .default, 1, 7⟩ (spanningTokens.drop 3) rfl
    (by decide) ⟨.ws, " ", .hidden, 2, 1⟩ (by decide) (by decide)

theorem neverAhead_iff_spanning :
    SourceOrdered spanningVector.tokens (printedLeaves (some spanningTree)) ∧
      (NeverAhead spanningVector.tokens (some spanningTree) ↔
        NextHiddenBlocked spanningVector.tokens (printedLeaves (some spanningTree))) :=
  ⟨by decide, neverAhead_iff_nextHiddenBlocked spanningVector (some spanningTree) (by decide)⟩

end Pgify.Layout
