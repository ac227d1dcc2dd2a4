import Pgify.Lib.Postorder
import Pgify.Proofs.StatementWalk

/-! # Which nodes are handed to a worker

The walk takes one turn for every node below the root: it walks what is below the node and then
hands the node to the worker of its type. The root has no turn. This matters where the AST is a
single tree: a nil root over one tree gives way to that tree.
-/

namespace Pgify.Handing

open Model

mutual

/-- The types of the nodes of a tree. -/
def shape : Tree → OrderedTree TokenType
  | .node token children => .node (Model.Tree.node token children).getType (shapes children)

def shapes : List Tree → List (OrderedTree TokenType)
  | [] => []
  | child :: rest => shape child :: shapes rest

end

/-- The turns of a walk in their order: the address and the type of the node that is dispatched. -/
abbrev Turns := List (List ℕ × TokenType)

mutual

/-- `treeWalkWorker`, with its turns. -/
def tracedWorker (rt : Runtime) : WalkerState → Tree → Option (WalkerState × Tree × Turns)
  | ws, .node token children => do
    let (ws, children, turns) ← tracedChildren rt ws 0 children
    some (ws, .node token children, turns)

/-- `walkChildren`, with its turns; the first child has the given index. -/
def tracedChildren (rt : Runtime) :
    WalkerState → ℕ → List Tree → Option (WalkerState × List Tree × Turns)
  | ws, _, [] => some (ws, [], [])
  | ws, c, child :: rest => do
    let (ws, walked, below) ← tracedWorker rt ws child
    let (ws, handed) ← dispatch rt ws walked
    let (ws, rest, behind) ← tracedChildren rt ws (c + 1) rest
    some (ws, handed :: rest,
      (below.map fun turn => (c :: turn.1, turn.2)) ++ ([c], walked.getType) :: behind)

end

theorem treeWalkWorker_type {rt : Runtime} {ws ws' : WalkerState} {x y : Tree}
    (run : treeWalkWorker rt ws x = some (ws', y)) : y.getType = x.getType := by
  cases x with
  | node token children =>
    simp only [treeWalkWorker, Option.bind_eq_bind] at run
    obtain ⟨_, -, same⟩ := Option.bind_eq_some_iff.mp run
    cases same
    rfl

theorem label_shape (x : Tree) : (shape x).label = x.getType := by
  cases x with
  | node token children => rw [shape]; rfl

mutual

/-- The traced walk is the walk, and its turns are the postorder of the nodes below the root. -/
theorem tracedWorker_eq (rt : Runtime) (ws : WalkerState) (x : Tree) :
    tracedWorker rt ws x =
      (treeWalkWorker rt ws x).map fun walked => (walked.1, walked.2, (shape x).postorder) := by
  cases x with
  | node token children =>
    simp only [tracedWorker, treeWalkWorker, shape, OrderedTree.postorder, Option.bind_eq_bind]
    rw [tracedChildren_eq rt ws 0 children]
    cases walkChildren rt ws children <;> rfl

theorem tracedChildren_eq (rt : Runtime) (ws : WalkerState) (c : ℕ) (l : List Tree) :
    tracedChildren rt ws c l = (walkChildren rt ws l).map fun walked =>
      (walked.1, walked.2, OrderedTree.postorderFrom c (shapes l)) := by
  cases l with
  | nil =>
    rw [tracedChildren, walkChildren, shapes, OrderedTree.postorderFrom]
    rfl
  | cons child rest =>
    simp only [tracedChildren, walkChildren, Option.bind_eq_bind, tracedWorker_eq rt ws child]
    cases walk : treeWalkWorker rt ws child with
    | none => rfl
    | some walked =>
      simp only [Option.map_some, Option.bind_some]
      cases dispatch rt walked.1 walked.2 with
      | none => rfl
      | some handed =>
        simp only [Option.bind_some]
        rw [tracedChildren_eq rt handed.1 (c + 1) rest]
        cases walkChildren rt handed.1 rest with
        | none => rfl
        | some walkedRest =>
          simp only [Option.map_some, Option.bind_some, shapes, OrderedTree.postorderFrom,
            label_shape, treeWalkWorker_type walk]

end

/-! ## The nodes of an AST -/

/-- A type that the walker hands to a worker. -/
def isHandled (type : TokenType) : Bool := !type.isInert

/-- The walk hands the node at the address to its worker once, behind all nodes below it. -/
def HandedOnce (turns : Turns) (root : Tree) (address : List ℕ) : Prop :=
  (turns.map Prod.fst).count address = 1 ∧
    ∀ before type after, turns = before ++ (address, type) :: after →
      (shape root).labelAt address = some type ∧
        ∀ deeper type', deeper ≠ [] → (shape root).labelAt (address ++ deeper) = some type' →
          (address ++ deeper, type') ∈ before

theorem handedOnce_below (root : Tree) {address : List ℕ} {type : TokenType}
    (nonempty : address ≠ []) (found : (shape root).labelAt address = some type) :
    HandedOnce (shape root).postorder root address := by
  refine ⟨OrderedTree.count_postorder nonempty found, fun before type' after split => ?_⟩
  have listed : (address, type') ∈ (shape root).postorder := by simp [split]
  exact ⟨(OrderedTree.mem_postorder.mp listed).2,
    fun deeper type'' below own => OrderedTree.mem_before split below own⟩

/-- Every node of a handled type has its turn. -/
def EveryHandled (turns : Turns) (root : Tree) : Prop :=
  ∀ address type, (shape root).labelAt address = some type → isHandled type = true →
    HandedOnce turns root address

theorem labelAt_root (root : Tree) : (shape root).labelAt [] = some root.getType := by
  rw [OrderedTree.labelAt, label_shape]

/-- The root has no turn. -/
theorem not_handedOnce_root (root : Tree) : ¬ HandedOnce (shape root).postorder root [] := by
  rintro ⟨once, -⟩
  have listed : [] ∈ (shape root).postorder.map Prod.fst := by
    apply List.count_pos_iff.mp
    omega
  obtain ⟨⟨address, type⟩, member, same⟩ := List.mem_map.mp listed
  exact (OrderedTree.mem_postorder.mp member).1 same

/-- Every handled node but a handled root has its turn. -/
theorem everyHandled_iff (root : Tree) :
    EveryHandled (shape root).postorder root ↔ isHandled root.getType = false := by
  constructor
  · intro every
    cases handled : isHandled root.getType with
    | false => rfl
    | true => exact absurd (every [] _ (labelAt_root root) handled) (not_handedOnce_root root)
  · intro inert address type found handled
    cases address with
    | nil =>
      obtain rfl := Option.some.inj ((labelAt_root root).symm.trans found)
      rw [inert] at handled
      cases handled
    | cons i rest => exact handedOnce_below root (List.cons_ne_nil i rest) found

/-- The root is handled exactly where it took the place of a nil root over one handled tree. -/
theorem isHandled_root_iff {forest : List Tree} {root : Tree}
    (ast : rulePostProcessing forest = some root) :
    isHandled root.getType = true ↔ ∃ tree, forest = [tree] ∧ isHandled tree.getType = true := by
  cases forest with
  | nil => cases ast
  | cons first rest =>
    cases rest with
    | nil =>
      obtain rfl := Option.some.inj ast
      simp
    | cons second rest =>
      obtain rfl := Option.some.inj ast
      constructor
      · intro handled
        cases handled
      · rintro ⟨tree, same, -⟩
        cases (List.cons.inj same).2

/-! ## The walk of accepted statements -/

theorem treeWalkWorker_of_walkChildren {rt : Runtime} {ws : WalkerState} {forest : List Tree}
    {root : Tree} (ast : rulePostProcessing forest = some root)
    (walks : (walkChildren rt ws forest).isSome) : (treeWalkWorker rt ws root).isSome := by
  cases forest with
  | nil => cases ast
  | cons first rest =>
    cases rest with
    | nil =>
      obtain rfl := Option.some.inj ast
      rw [walkChildren_cons, walkChild] at walks
      cases walked : treeWalkWorker rt ws first with
      | none => simp [walked] at walks
      | some _ => rfl
    | cons second rest =>
      obtain rfl := Option.some.inj ast
      rw [treeWalkWorker]
      cases walked : walkChildren rt ws (first :: second :: rest) with
      | none => simp [walked] at walks
      | some _ => rfl

theorem walkChildren_accepted (rt : Runtime) (ws : WalkerState) (statements : List Statement)
    (eof : Option (TokenIn [.eof])) :
    (walkChildren rt ws
      (statements.flatMap Statement.trees ++ (eof.map leafOf).toList)).isSome := by
  have still : ∀ x ∈ (eof.map leafOf).toList, Still x := by
    intro x member
    obtain ⟨token, -, rfl⟩ := Option.map_eq_some_iff.mp (Option.mem_toList.mp member)
    have isEof : token.1.type = .eof := List.mem_singleton.mp token.2
    exact still_leaf (by rw [isEof]; rfl)
  rw [walkChildren_append, walkChildren_statements]
  simp only [Option.bind_some, walkChildren_still still, Option.map_some, Option.isSome_some]

/-- Where the walk of an AST returns, every handled node has its turn, unless the AST is one tree
with a handled root; and the walk of the AST of accepted statements does return, whether the EOF is
behind them or input that the loop stops at. -/
theorem handedOnce_iff (rt : Runtime) (ws : WalkerState) {forest : List Tree} {root : Tree}
    (ast : rulePostProcessing forest = some root) :
    (∀ ws' root' turns, tracedWorker rt ws root = some (ws', root', turns) →
      treeWalkWorker rt ws root = some (ws', root') ∧
        (EveryHandled turns root ↔
          ¬ ∃ tree, forest = [tree] ∧ isHandled tree.getType = true)) ∧
    ∀ (statements : List Statement) (eof : Option (TokenIn [.eof])),
      forest = statements.flatMap Statement.trees ++ (eof.map leafOf).toList →
        (tracedWorker rt ws root).isSome := by
  refine ⟨fun ws' root' turns traced => ?_, fun statements eof accepted => ?_⟩
  · rw [tracedWorker_eq] at traced
    obtain ⟨walked, walk, same⟩ := Option.map_eq_some_iff.mp traced
    cases same
    refine ⟨walk, ?_⟩
    rw [everyHandled_iff, ← isHandled_root_iff ast, Bool.not_eq_true]
  · have walks := walkChildren_accepted rt ws statements eof
    rw [← accepted] at walks
    rw [tracedWorker_eq, Option.isSome_map]
    exact treeWalkWorker_of_walkChildren ast walks

/-! ## A statement that the loop stops behind -/

section Stopped

private def word (type : TokenType) (text : String) : Tree :=
  .leaf ⟨type, text, .default, 1, 0⟩

/-- `SHOW TABLES;` -/
private def showTables : Tree :=
  .node (some (.imaginary .tShowTables "T_SHOW_TABLES"))
    [word .kShow "SHOW", word .kTables "TABLES", word .semi ";"]

/-- In front of the end of the input the statement has its turn. -/
theorem handedOnce_iff_eof :
    ∃ root ws' root' turns, rulePostProcessing [showTables, word .eof "<EOF>"] = some root ∧
      tracedWorker ⟨id, 0⟩ (walkerstateNew 0) root = some (ws', root', turns) ∧
        EveryHandled turns root := by
  refine ⟨_, _, _, _, rfl, rfl, ?_⟩
  have handed := (handedOnce_iff ⟨id, 0⟩ (walkerstateNew 0)
    (show rulePostProcessing [showTables, word .eof "<EOF>"] = some _ from rfl)).1 _ _ _ rfl
  refine handed.2.mpr ?_
  rintro ⟨tree, same, -⟩
  cases (List.cons.inj same).2

/-- In front of `SET NAMES utf8` the loop stops: the statement is the whole AST and has none. -/
theorem not_handedOnce_stopped :
    ∃ root ws' root' turns, rulePostProcessing [showTables] = some root ∧
      tracedWorker ⟨id, 0⟩ (walkerstateNew 0) root = some (ws', root', turns) ∧
        (shape root).labelAt [] = some .tShowTables ∧ ¬ EveryHandled turns root :=
  ⟨_, _, _, _, rfl, rfl, rfl, fun every => absurd (every [] _ rfl rfl).1 (by decide)⟩

end Stopped

end Pgify.Handing
