import Mathlib.Logic.Relation
import Pgify.Proofs.SpelledColumns

/-! # What a search below a node decides

The search stops at its first hit and returns an index on the level of the hit, so a caller can use
its sign only. The sign says whether a node of the type stands anywhere below the children that were
searched. The zero date pass looks at nothing else before it changes a column definition.
-/

namespace Pgify.Model

/-- A node of the tree: the root, or a node of one of its children. -/
def Tree.HasNode (tree node : Tree) : Prop :=
  Relation.ReflTransGen (fun parent child => child ∈ parent.children) tree node

theorem Tree.hasNode_iff {tree node : Tree} :
    tree.HasNode node ↔ tree = node ∨ ∃ child ∈ tree.children, child.HasNode node :=
  Relation.ReflTransGen.cases_head_iff

/-- A node of the type stands in the subtree of a child with this index or a later one. -/
def Tree.OccursFrom (tree : Tree) (start : ℕ) (lookfor : TokenType) : Prop :=
  ∃ c, start ≤ c ∧ ∃ child, tree.children[c]? = some child ∧
    ∃ node, child.HasNode node ∧ node.getType = lookfor

/-- The `int` of a search: the position, or -1 without a hit. -/
def returned (found : Option ℕ) : ℤ :=
  found.elim (-1) fun position => position

theorem returned_neg_iff {found : Option ℕ} : returned found = -1 ↔ found = none := by
  cases found with
  | none => simp [returned]
  | some position => simp [returned]

theorem lt_returned_iff {found : Option ℕ} : -1 < returned found ↔ found ≠ none := by
  cases found with
  | none => simp [returned]
  | some position =>
    simp only [returned, Option.elim_some, ne_eq, reduceCtorEq, not_false_eq_true, iff_true]
    omega

/-! ## The search -/

mutual

private theorem carries_iff (k : TokenType) (x : Tree) :
    carries k x = true ↔ ∃ node, x.HasNode node ∧ node.getType = k := by
  cases x with
  | node token children =>
    rw [carries, Bool.or_eq_true, carriesBelow_iff k children, hasType, beq_iff_eq]
    constructor
    · rintro (own | ⟨child, member, node, inside, type⟩)
      · exact ⟨_, Relation.ReflTransGen.refl, own⟩
      · exact ⟨node, Tree.hasNode_iff.mpr (Or.inr ⟨child, member, inside⟩), type⟩
    · rintro ⟨node, inside, type⟩
      rcases Tree.hasNode_iff.mp inside with rfl | ⟨child, member, below⟩
      · exact Or.inl type
      · exact Or.inr ⟨child, member, node, below, type⟩

private theorem carriesBelow_iff (k : TokenType) (l : List Tree) :
    carriesBelow k l = true ↔ ∃ x ∈ l, ∃ node, x.HasNode node ∧ node.getType = k := by
  cases l with
  | nil => simp [carriesBelow]
  | cons x rest =>
    rw [carriesBelow, Bool.or_eq_true, carries_iff k x, carriesBelow_iff k rest]
    simp only [List.mem_cons, exists_eq_or_imp]

end

private theorem occursFrom_iff {tree : Tree} {start : ℕ} {k : TokenType} :
    tree.OccursFrom start k ↔ carriesBelow k (tree.children.drop start) = true := by
  rw [carriesBelow_iff]
  constructor
  · rintro ⟨c, behind, child, present, found⟩
    refine ⟨child, ?_, found⟩
    obtain ⟨n, rfl⟩ := Nat.exists_eq_add_of_le behind
    apply List.mem_of_getElem? (i := n)
    rw [List.getElem?_drop]
    exact present
  · rintro ⟨child, member, found⟩
    obtain ⟨n, present⟩ := List.mem_iff_getElem?.mp member
    rw [List.getElem?_drop] at present
    exact ⟨start + n, Nat.le_add_right start n, child, present, found⟩

/-- The search has a hit exactly when there is a node to hit. -/
theorem lookAheadDown_ne_none_iff {tree : Tree} {start : ℕ} {k : TokenType} :
    lookAheadDown tree.children start k ≠ none ↔ tree.OccursFrom start k := by
  rw [occursFrom_iff, lookAheadDown, Ne, lookAheadDownFrom_eq_none_iff, Bool.not_eq_false]

/-! ## The pass -/

/-- A tree that the pass changes has a zero date below it. -/
theorem zeroDate_of_dateColumn_ne {x : Tree} (changed : dateColumn x ≠ x) :
    x.OccursFrom 0 .stupidMysqlDate ∨ x.OccursFrom 0 .stupidMysqlTimestamp := by
  rw [← lookAheadDown_ne_none_iff, ← lookAheadDown_ne_none_iff]
  by_contra missing
  rw [not_or, not_not, not_not] at missing
  exact changed (if_pos missing)

/-- `look_ahead_down` is above -1 exactly when a node of the type occurs below the children from the
start on, and -1 otherwise; `create_rewrite_stupid_date` returns the children it got, but for column
definitions with a zero date somewhere below. -/
theorem lookAheadDown_decides :
    (∀ (tree : Tree) (start : ℕ) (lookfor : TokenType),
      (-1 < returned (lookAheadDown tree.children start lookfor) ↔ tree.OccursFrom start lookfor) ∧
      (¬ tree.OccursFrom start lookfor →
        returned (lookAheadDown tree.children start lookfor) = -1)) ∧
    ∀ (ws : WalkerState) (base : List Tree), ∃ out,
      createRewriteStupidDate ws base = some (ws, out) ∧
      List.Forall₂ (fun before after => after ≠ before →
        before.getType = .tCreateTableColumnDef ∧
          (before.OccursFrom 0 .stupidMysqlDate ∨ before.OccursFrom 0 .stupidMysqlTimestamp))
        base out := by
  refine ⟨fun tree start lookfor => ⟨?_, fun missing => ?_⟩, fun ws base => ?_⟩
  · rw [lt_returned_iff, lookAheadDown_ne_none_iff]
  · rw [returned_neg_iff]
    by_contra found
    exact missing (lookAheadDown_ne_none_iff.mp found)
  · refine ⟨_, createRewriteStupidDate_eq ws base, ?_⟩
    rw [List.forall₂_map_right_iff, List.forall₂_same]
    intro x _ changed
    cases isColumn : hasType .tCreateTableColumnDef x with
    | false => simp [isColumn] at changed
    | true =>
      rw [isColumn, if_pos rfl] at changed
      exact ⟨by simpa [hasType] using isColumn, zeroDate_of_dateColumn_ne changed⟩

end Pgify.Model
