import Pgify.Model.Printer

/-! # Walking expressions and clauses

Below a statement the walker meets expressions and clauses: nodes that no worker handles, server
variables, IF functions and FOUND_ROWS. Walking such a tree succeeds, leaves the walker state alone
and keeps the type of every node it keeps.
-/

namespace Pgify.Model

/-- Types that the walker hands to no worker. -/
def TokenType.isInert : TokenType → Bool
  | .tCreateTable | .tUseDatabase | .tLockTable | .tServerVariable | .tShowTables | .tShowColumns
  | .tFunctionIf | .kFoundRows => false
  | _ => true

/-- Whether the last leaf among and below some siblings is a semicolon, if there is a leaf. -/
def lastIsSemi (trees : List Tree) : Option Bool :=
  (leavesOf trees).getLast?.map (hasType .semi)

/-- Trees of expressions and clauses, as the grammar builds them. The first and the last argument of
IF have leaves, and none ends in a semicolon: a select statement with one stands in parentheses. -/
inductive Walkable : Tree → Prop
  | inert {token : Option Token} {children : List Tree}
      (type : (Tree.node token children).getType.isInert = true)
      (below : ∀ x ∈ children, Walkable x) : Walkable (.node token children)
  | serverVariable {token name : Token} (type : token.type = .tServerVariable)
      (identifier : name.type = .id) : Walkable (.node (some token) [.leaf name])
  | functionIf {token parameter : Token} {child expr2 expr3 : Tree} {rest : List Tree}
      (type : token.type = .tFunctionIf) (inert : parameter.type.isInert = true)
      (below : ∀ x ∈ child :: rest, Walkable x) (second : Walkable expr2) (third : Walkable expr3)
      (open1 : lastIsSemi (child :: rest) = some false) (open3 : lastIsSemi [expr3] = some false) :
      Walkable (.node (some token) [.node (some parameter) (child :: rest), expr2, expr3])
  | foundRows {token : Token} (type : token.type = .kFoundRows) : Walkable (.leaf token)

theorem walkable_leaf {token : Token} (inert : token.type.isInert = true) :
    Walkable (.leaf token) :=
  .inert inert nofun

/-- What the walk makes of a child. -/
def walkedTree (rt : Runtime) (ws : WalkerState) (child : Tree) : Tree :=
  ((walkChild rt ws child).map Prod.snd).getD child

/-! ## The last leaf -/

theorem lastIsSemi_append (first second : List Tree) :
    lastIsSemi (first ++ second) = (lastIsSemi second).or (lastIsSemi first) := by
  rw [lastIsSemi, leavesOf_append, List.getLast?_append]
  cases last : (leavesOf second).getLast? <;> simp [lastIsSemi, last]

theorem lastIsSemi_cons (child : Tree) (rest : List Tree) :
    lastIsSemi (child :: rest) = (lastIsSemi rest).or (lastIsSemi [child]) :=
  lastIsSemi_append [child] rest

/-- A node with children ends in what its children end in. -/
theorem lastIsSemi_node (token : Option Token) {children : List Tree} (nonempty : children ≠ []) :
    lastIsSemi [.node token children] = lastIsSemi children := by
  have positive := List.length_pos_iff.mpr nonempty
  simp [lastIsSemi, leavesOf, leavesBelow, positive]

theorem lastIsSemi_leaf {token : Token} (visible : token.type ≠ .eof) :
    lastIsSemi [.leaf token] = some (token.type == .semi) := by
  simp [lastIsSemi, leavesOf, visible, hasType]

theorem lastIsSemi_retext (token : Token) (text : String) :
    lastIsSemi [.leaf { token with text := text }] = lastIsSemi [.leaf token] := by
  by_cases eof : token.type = .eof
  · simp [lastIsSemi, leavesOf, eof]
  · rw [lastIsSemi_leaf eof]
    exact lastIsSemi_leaf eof

theorem lastIsSemi_map {f : Tree → Tree} {trees : List Tree}
    (same : ∀ x ∈ trees, lastIsSemi [f x] = lastIsSemi [x]) :
    lastIsSemi (trees.map f) = lastIsSemi trees := by
  induction trees with
  | nil => rfl
  | cons child rest ih =>
    rw [List.map_cons, lastIsSemi_cons, lastIsSemi_cons child, same child List.mem_cons_self,
      ih fun x member => same x (List.mem_cons_of_mem _ member)]

/-! ## Single turns of the walk -/

/-- The children first, then the worker of the node. -/
theorem walkChild_node (rt : Runtime) (ws : WalkerState) (token : Option Token)
    (children : List Tree) :
    walkChild rt ws (.node token children) =
      (walkChildren rt ws children).bind fun (ws, children) =>
        dispatch rt ws (.node token children) := by
  rw [walkChild, treeWalkWorker]
  cases walkChildren rt ws children <;> rfl

theorem walkChild_inert (rt : Runtime) (ws : WalkerState) {token : Option Token}
    {children : List Tree} (type : (Tree.node token children).getType.isInert = true) :
    walkChild rt ws (.node token children) =
      (walkChildren rt ws children).map fun (ws, children) => (ws, .node token children) := by
  rw [walkChild_node]
  cases walkChildren rt ws children with
  | none => rfl
  | some walked =>
    obtain ⟨ws', children'⟩ := walked
    simp only [Option.bind_some, Option.map_some]
    have same : (Tree.node token children').getType = (Tree.node token children).getType := rfl
    rw [dispatch, same]
    revert type
    generalize (Tree.node token children).getType = type
    intro inert
    cases type <;> first | rfl | cases inert

/-- A leaf of an inert type stays as it is. -/
theorem walkChild_leaf (rt : Runtime) (ws : WalkerState) {token : Token}
    (inert : token.type.isInert = true) :
    walkChild rt ws (.leaf token) = some (ws, .leaf token) := by
  have node : (Tree.node (some token) []).getType.isInert = true := inert
  exact walkChild_inert rt ws node

/-- Children that are walked one by one without touching the state. -/
theorem walkChildren_of_walked {rt : Runtime} {ws : WalkerState} {children : List Tree}
    (all : ∀ x ∈ children, walkChild rt ws x = some (ws, walkedTree rt ws x)) :
    walkChildren rt ws children = some (ws, children.map (walkedTree rt ws)) := by
  induction children with
  | nil => rw [walkChildren_nil, List.map_nil]
  | cons child rest ih =>
    have tail := ih fun x member => all x (List.mem_cons_of_mem _ member)
    simp only [walkChildren_cons, all child List.mem_cons_self, Option.bind_some, tail,
      Option.map_some, List.map_cons]

/-! ## The walk of a tree -/

/-- What the walk keeps of a tree besides its place. -/
structure Kept (x y : Tree) : Prop where
  type : y.getType = x.getType
  last : lastIsSemi [y] = lastIsSemi [x]

/-- The walk of a tree succeeds without touching the state, and keeps the type and the end. -/
def Walks (rt : Runtime) (ws : WalkerState) (x : Tree) : Prop :=
  walkChild rt ws x = some (ws, walkedTree rt ws x) ∧ Kept x (walkedTree rt ws x)

private theorem Walks.of_eq {rt : Runtime} {ws : WalkerState} {x y : Tree}
    (walk : walkChild rt ws x = some (ws, y)) (kept : Kept x y) : Walks rt ws x := by
  have walked : walkedTree rt ws x = y := by rw [walkedTree, walk]; rfl
  exact ⟨by rw [walk, walked], walked ▸ kept⟩

private theorem Walks.node {rt : Runtime} {ws : WalkerState} {token : Option Token}
    {children : List Tree} (type : (Tree.node token children).getType.isInert = true)
    (below : ∀ x ∈ children, Walks rt ws x) :
    walkChild rt ws (.node token children) =
        some (ws, .node token (children.map (walkedTree rt ws))) ∧
      Kept (.node token children) (.node token (children.map (walkedTree rt ws))) := by
  refine ⟨?_, rfl, ?_⟩
  · rw [walkChild_inert rt ws type, walkChildren_of_walked fun x member => (below x member).1]
    rfl
  · cases children with
    | nil => rfl
    | cons child rest =>
      rw [lastIsSemi_node token (List.cons_ne_nil _ _), lastIsSemi_node token (by simp),
        lastIsSemi_map fun x member => (below x member).2.last]

/-- The name below a server variable is kept or gets another text. -/
private theorem rewriteServerVariables_leaf (rt : Runtime) {name : Token}
    (identifier : name.type = .id) :
    ∃ text, rewriteServerVariables rt [.leaf name] = some [.leaf { name with text := text }] := by
  have found : hasType .id (.leaf name) = true := by simp [hasType, identifier]
  rw [rewriteServerVariables]
  cases rt.indeterminate with
  | zero =>
    have position : lookAheadDown [.leaf name] 0 .id = some 0 := by
      simp [lookAheadDown, lookAheadDownFrom, found]
    simp only [position, List.getElem?_cons_zero, Option.bind_eq_bind, Option.bind_some,
      Tree.token_leaf]
    split
    · exact ⟨versionSql, rfl⟩
    · exact ⟨name.text, rfl⟩
  | succ n => exact ⟨name.text, by simp [lookAheadDown, lookAheadDownFrom]⟩

theorem Walkable.walks {tree : Tree} (walkable : Walkable tree) (rt : Runtime)
    (ws : WalkerState) : Walks rt ws tree := by
  induction walkable with
  | inert type _ below =>
    obtain ⟨walk, kept⟩ := Walks.node type below
    exact .of_eq walk kept
  | @serverVariable token name type identifier =>
    obtain ⟨text, rewritten⟩ := rewriteServerVariables_leaf rt identifier
    have below := walkChild_leaf rt ws (show name.type.isInert = true by rw [identifier]; rfl)
    refine .of_eq (y := .node (some token) [.leaf { name with text := text }]) ?_ ⟨rfl, ?_⟩
    rotate_left
    · rw [lastIsSemi_node _ (List.cons_ne_nil _ _), lastIsSemi_node _ (List.cons_ne_nil _ _)]
      exact lastIsSemi_retext name text
    simp only [walkChild_node, walkChildren_cons, below, walkChildren_nil, Option.bind_some,
      Option.map_some, dispatch, Tree.getType_node, type, Tree.children_node, rewritten]
    rfl
  | @functionIf token parameter child expr2 expr3 rest type inert _ _ _ open1 open3 below second
      third =>
    obtain ⟨walk, kept⟩ := @Walks.node _ _ (some parameter) _ inert below
    -- The first argument takes the text, and the other two are deleted.
    let retexted (x y z : Tree) := x.setText (ifText x.getText y.getText z.getText)
    have rewritten (x y z : Tree) (token : x.token.isSome = true) :
        rewriteIfFunction [x, y, z] = some [retexted x y z] := by
      obtain ⟨own, present⟩ := Option.isSome_iff_exists.mp token
      simp [rewriteIfFunction, present, retexted]
    refine .of_eq (y := .node (some token)
      [retexted (.node (some parameter) ((child :: rest).map (walkedTree rt ws)))
        (walkedTree rt ws expr2) (walkedTree rt ws expr3)]) ?_ ⟨rfl, ?_⟩
    · rw [walkChild_node]
      simp only [walkChildren_cons, walk, second.1, third.1, walkChildren_nil, Option.bind_some,
        Option.map_some, dispatch, Tree.getType_node, type, Tree.children_node]
      rw [rewritten _ _ _ rfl]
      rfl
    · have same : lastIsSemi ((child :: rest).map (walkedTree rt ws)) = some false := by
        rw [lastIsSemi_map fun x member => (below x member).2.last, open1]
      have ends : lastIsSemi [.node (some parameter) (child :: rest), expr2, expr3] =
          some false := by
        rw [lastIsSemi_cons, lastIsSemi_cons expr2, open3]
        rfl
      rw [lastIsSemi_node _ (List.cons_ne_nil _ _), lastIsSemi_node _ (List.cons_ne_nil _ _), ends]
      exact (lastIsSemi_node _ (by simp)).trans same
  | @foundRows token type =>
    refine .of_eq (y := rewriteFoundRows ws (.leaf token)) ?_ ⟨by simp [rewriteFoundRows], ?_⟩
    · simp only [Tree.leaf, walkChild_node, walkChildren_nil, Option.bind_some, dispatch,
        Tree.getType_node, type]
    · exact lastIsSemi_retext token _

end Pgify.Model
