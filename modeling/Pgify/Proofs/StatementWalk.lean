import Pgify.Proofs.CreateTableWalk
import Pgify.Proofs.ShowRewrites

/-! # The walk of an input

Walking the forest of a statement succeeds. Only USE changes the schema name and only CREATE TABLE
appends to the postbuf, so the walk of an input is a fold over its statements.
-/

namespace Pgify.Model

open SearchLoop

/-! ## CREATE TABLE -/

theorem CreateTable.walkChild_tree (rt : Runtime) (ws : WalkerState) {table : CreateTable}
    (built : table.Built) :
    walkChild rt ws table.tree =
      some (ws.emit ((table.walked rt ws).generated ws.schemaName),
        rooted .tCreateTable "T_CREATE_TABLE" (table.walked rt ws).rewritten) := by
  have walk := walkChildren_of_walked fun x member =>
    ((walkable_children built x member).walks rt ws).1
  rw [map_walkedTree_children rt ws built] at walk
  rw [CreateTable.tree, rooted, walkChild_node, walk]
  exact (table.walked rt ws).createTableWorker_eq ws

namespace CreateTableLike

/-- The statement with its options and its select statement walked. -/
def walked (rt : Runtime) (ws : WalkerState) (table : CreateTableLike) : CreateTableLike :=
  { table with
    options := table.options.map (TableOption.walked rt ws)
    select := table.select.map (walkedSelect rt ws) }

variable {table : CreateTableLike} (built : table.Built)

include built in
private theorem still_front : ∀ x ∈ table.front, Still x := by
  intro x member
  simp only [front, List.mem_append, List.mem_cons] at member
  rcases member with (header | qualifier) | rfl | body
  · obtain ⟨token, -, rfl⟩ := List.mem_map.mp header
    exact still_leafOf token (by decide)
  · obtain ⟨schema, dot, present, rfl | rfl⟩ := mem_qualifier qualifier
    · exact still_leaf (built.schema schema dot present)
    · exact still_leafOf dot (by decide)
  · exact still_leafOf table.name (by decide)
  · obtain ⟨token, rfl⟩ := table.leaf_of_mem_body body
    exact still_leafOf token (by decide)

include built in
theorem walkChild_tree (rt : Runtime) (ws : WalkerState) :
    walkChild rt ws table.tree =
      some (ws, rooted .tCreateTable "T_CREATE_TABLE" (table.walked rt ws).rewritten) := by
  have walkable : ∀ x ∈ table.children, Walkable x := by
    intro x member
    simp only [children, List.mem_append] at member
    rcases member with front | options | tail
    · exact (still_front built x front).walkable
    · exact walkable_options built.options x options
    · exact walkable_tail built.select x tail
  have walk := walkChildren_of_walked fun x member => ((walkable x member).walks rt ws).1
  have same : table.children.map (walkedTree rt ws) = (table.walked rt ws).children := by
    have tail : table.tail.map (walkedTree rt ws) = (table.walked rt ws).tail :=
      map_walkedTree_tail rt ws
    simp only [children, List.map_append, map_walkedTree_of_still (still_front built),
      map_walkedTree_options built.options, tail]
    rfl
  rw [same] at walk
  rw [CreateTableLike.tree, rooted, walkChild_node, walk]
  exact (table.walked rt ws).createTableWorker_eq ws

end CreateTableLike

/-! ## USE, LOCK and SHOW -/

theorem walkChildren_still {rt : Runtime} {ws : WalkerState} {l : List Tree}
    (still : ∀ x ∈ l, Still x) : walkChildren rt ws l = some (ws, l) := by
  have walk := walkChildren_of_walked fun x member =>
    ((still x member).walkable.walks rt ws).1
  rwa [map_walkedTree_of_still still] at walk

/-- The node of a USE statement behind its worker. -/
def searchPathTree (keyword : TokenIn [.kUse]) (schema : TokenIn [.id])
    (semi : Option (TokenIn [.semi])) : Tree :=
  rooted .tUseDatabase "T_USE_DATABASE"
    (.leaf { keyword.1 with text := "SET search_path TO" } ::
      .leaf { schema.1 with text := schema.1.text ++ ",public" } :: (semi.map leafOf).toList)

private theorem walkChild_use (rt : Runtime) (ws : WalkerState) (keyword : TokenIn [.kUse])
    (schema : TokenIn [.id]) (semi : Option (TokenIn [.semi])) :
    walkChild rt ws (rooted .tUseDatabase "T_USE_DATABASE"
        (leafOf keyword :: leafOf schema :: (semi.map leafOf).toList)) =
      some ({ ws with schemaName := s!"{schema.1.text}." },
        searchPathTree keyword schema semi) := by
  have still : ∀ x ∈ leafOf keyword :: leafOf schema :: (semi.map leafOf).toList, Still x := by
    intro x member
    simp only [List.mem_cons] at member
    rcases member with rfl | rfl | own
    · exact still_leafOf keyword (by decide)
    · exact still_leafOf schema (by decide)
    · exact still_optional semi (by decide) x own
  have isUse : hasType .kUse (leafOf keyword) = true := by simpa [hasType] using keyword.2
  have isId : hasType .id (leafOf schema) = true := by simpa [hasType] using schema.2
  have noId : hasType .id ((leafOf keyword).setText "SET search_path TO") = false :=
    hasType_leafOf keyword (by decide)
  have useAt (rest : List Tree) : lookAheadIndex (leafOf keyword :: rest) 0 .kUse = some 0 :=
    findFrom_append (l := []) (Nat.le_refl _) (by simp) isUse
  have idAt (x : Tree) (rest : List Tree) (other : hasType .id x = false) :
      lookAheadIndex (x :: leafOf schema :: rest) 0 .id = some 1 :=
    findFrom_append (l := [x]) (Nat.zero_le _) (by simpa using other) isId
  rw [rooted, walkChild_node, walkChildren_still still]
  simp only [Option.bind_some, dispatch, Tree.getType_node, Token.imaginary, Tree.children_node,
    useDatabaseWorker, retextFirst, useAt, Option.bind_eq_bind, List.getElem?_cons_zero,
    List.set_cons_zero]
  rw [idAt _ _ noId]
  rfl

/-! ### SHOW -/

/-- The query that stands for SHOW TABLES. -/
def ShowTables.query (rt : Runtime) (show' : ShowTables) : String :=
  showTablesText (if show'.full.isSome then "sub.tables, sub.table_type" else "sub.tables")
    (show'.schema.elim "current_schema()" fun name =>
      s!"\"{unquote (rt.utf8Strdown name.1.1.text)}\"")
    (if show'.filter.any fun filter => hasType .tShowLike filter.1 then "WHERE sub.tables " else "")

private theorem ShowTables.rewrite_children (rt : Runtime) (show' : ShowTables) :
    showTablesRewrite rt show'.children =
      some (.leaf { show'.show'.1 with text := show'.query rt } ::
        showTail show'.filter show'.semi) := by
  obtain ⟨keyword, full, tables, schema, filter, semi⟩ := show'
  have rewrite := showTablesRewrite_children rt ⟨keyword, full, tables, filter, semi⟩
    (schema.map Subtype.val)
  have shape : ShowTables.children ⟨keyword, full, tables, schema, filter, semi⟩ =
      ShowTablesClauses.children ⟨keyword, full, tables, filter, semi⟩
        (schema.map Subtype.val) := by
    cases schema <;> simp [ShowTables.children, ShowTablesClauses.children, showTail,
      InertName.showFrom, showFromTree]
  rw [shape, rewrite]
  cases schema <;> rfl

/-- The query that stands for SHOW COLUMNS. -/
def ShowColumns.query (rt : Runtime) (show' : ShowColumns) : String :=
  showColumnsText
    (if show'.full.isSome then "*" else "field, type, \"null\", key, \"default\", extra")
    (unquote (rt.utf8Strdown show'.table.1.1.text))
    (show'.schema.elim "current_schema()" fun name =>
      s!"'{unquote (rt.utf8Strdown name.1.1.text)}'")
    (if show'.filter.any fun filter => hasType .tShowLike filter.1 then "WHERE sub.field " else "")

private theorem ShowColumns.rewrite_children (rt : Runtime) (show' : ShowColumns) :
    showColumnsRewrite rt show'.children =
      some (.leaf { show'.show'.1 with text := show'.query rt } ::
        showTail show'.filter show'.semi) := by
  obtain ⟨keyword, full, table, schema, filter, semi⟩ := show'
  have rewrite := showColumnsRewrite_children rt ⟨keyword, full, table.1, filter, semi⟩
    (schema.map Subtype.val)
  have shape : ShowColumns.children ⟨keyword, full, table, schema, filter, semi⟩ =
      ShowColumnsClauses.children ⟨keyword, full, table.1, filter, semi⟩
        (schema.map Subtype.val) := by
    cases schema <;> simp [ShowColumns.children, ShowColumnsClauses.children, showTail,
      InertName.showFrom, showFromTree]
  rw [shape, rewrite]
  cases schema <;> rfl

def walkedFilter (rt : Runtime) (ws : WalkerState) (filter : ShowFilter) : ShowFilter :=
  ⟨walkedTree rt ws filter.1, by simpa using filter.2⟩

def ShowTables.walked (rt : Runtime) (ws : WalkerState) (show' : ShowTables) : ShowTables :=
  { show' with filter := show'.filter.map (walkedFilter rt ws) }

def ShowColumns.walked (rt : Runtime) (ws : WalkerState) (show' : ShowColumns) : ShowColumns :=
  { show' with filter := show'.filter.map (walkedFilter rt ws) }

private theorem still_showFrom (name : InertName) : Still name.showFrom :=
  .node rfl fun x member => by
    rw [List.mem_singleton.mp member]
    exact still_leaf name.2

private theorem still_schema (name : Option InertName) :
    ∀ x ∈ (name.map InertName.showFrom).toList, Still x := by
  intro x member
  obtain ⟨name, -, rfl⟩ := Option.map_eq_some_iff.mp (Option.mem_toList.mp member)
  exact still_showFrom name

/-- A walked sequence whose only moving part is the filter. -/
private theorem walkChildren_filter (rt : Runtime) (ws : WalkerState) {before behind : List Tree}
    {filter : Option ShowFilter} (front : ∀ x ∈ before, Still x)
    (walkable : ∀ tree ∈ filter, Walkable tree.1) (rest : ∀ x ∈ behind, Still x) :
    walkChildren rt ws (before ++ (filter.map Subtype.val).toList ++ behind) =
      some (ws, before ++ ((filter.map (walkedFilter rt ws)).map Subtype.val).toList ++
        behind) := by
  have all : ∀ x ∈ before ++ (filter.map Subtype.val).toList ++ behind, Walkable x := by
    intro x member
    simp only [List.mem_append, Option.mem_toList, Option.map_eq_some_iff] at member
    rcases member with (own | ⟨tree, own, rfl⟩) | own
    · exact (front x own).walkable
    · exact walkable tree own
    · exact (rest x own).walkable
  rw [walkChildren_of_walked fun x member => ((all x member).walks rt ws).1, List.map_append,
    List.map_append, map_walkedTree_of_still front, map_walkedTree_of_still rest]
  cases filter <;> rfl

/-- What stands in front of the filter of a SHOW statement. -/
private theorem still_showFront (show' : TokenIn [.kShow]) (full : Option (TokenIn [.kFull]))
    {named : Tree} (still : Still named) (schema : Option InertName) :
    ∀ x ∈ leafOf show' :: (full.map leafOf).toList ++
      named :: (schema.map InertName.showFrom).toList, Still x := by
  intro x member
  simp only [List.cons_append, List.mem_cons, List.mem_append] at member
  rcases member with rfl | inFull | rfl | inSchema
  · exact still_leafOf show' (by decide)
  · exact still_optional full (by decide) x inFull
  · exact still
  · exact still_schema schema x inSchema

private theorem walkChild_showTables (rt : Runtime) (ws : WalkerState) (show' : ShowTables)
    (walkable : ∀ filter ∈ show'.filter, Walkable filter.1) :
    walkChild rt ws (rooted .tShowTables "T_SHOW_TABLES" show'.children) =
      some (ws, rooted .tShowTables "T_SHOW_TABLES"
        (.leaf { show'.show'.1 with text := (show'.walked rt ws).query rt } ::
          showTail (show'.walked rt ws).filter show'.semi)) := by
  have front := still_showFront show'.show' show'.full (still_leafOf show'.tables (by decide)) show'.schema
  have walk := walkChildren_filter rt ws front walkable (still_optional show'.semi (by decide))
  rw [rooted, walkChild_node, ShowTables.children, walk]
  exact congrArg (Option.map _) ((show'.walked rt ws).rewrite_children rt)

private theorem walkChild_showColumns (rt : Runtime) (ws : WalkerState) (show' : ShowColumns)
    (walkable : ∀ filter ∈ show'.filter, Walkable filter.1) :
    walkChild rt ws (rooted .tShowColumns "T_SHOW_COLUMNS" show'.children) =
      some (ws, rooted .tShowColumns "T_SHOW_COLUMNS"
        (.leaf { show'.show'.1 with text := (show'.walked rt ws).query rt } ::
          showTail (show'.walked rt ws).filter show'.semi)) := by
  have front := still_showFront show'.show' show'.full (still_showFrom show'.table) show'.schema
  have walk := walkChildren_filter rt ws front walkable (still_optional show'.semi (by decide))
  rw [rooted, walkChild_node, ShowColumns.children, walk]
  exact congrArg (Option.map _) ((show'.walked rt ws).rewrite_children rt)

/-! ## Statements -/

namespace Statement

/-- The statements that one statement appends to the postbuf. -/
def generated (rt : Runtime) (ws : WalkerState) : Statement → List Generated
  | .createTable table _ => (table.walked rt ws).generated ws.schemaName
  | _ => []

/-- The walker state behind a statement. -/
def effect (rt : Runtime) (ws : WalkerState) : Statement → WalkerState
  | .createTable table _ => ws.emit ((table.walked rt ws).generated ws.schemaName)
  | .use _ schema _ _ => { ws with schemaName := s!"{schema.1.text}." }
  | _ => ws

/-- The forest of a statement behind the walk. -/
def walked (rt : Runtime) (ws : WalkerState) : Statement → List Tree
  | .clauses parts => .leaf parts.keyword.1 :: parts.rest.map (walkedTree rt ws)
  | .select parts => [rooted .tSelectStatement "T_SELECT_STATEMENT"
      (.leaf parts.keyword.1 :: parts.rest.map (walkedTree rt ws))]
  | .createTable table _ =>
    [rooted .tCreateTable "T_CREATE_TABLE" (table.walked rt ws).rewritten]
  | .createTableLike table _ =>
    [rooted .tCreateTable "T_CREATE_TABLE" (table.walked rt ws).rewritten]
  | .use keyword schema semi _ =>
    [rooted .tTransform "" [], searchPathTree keyword schema semi]
  | .showTables show' _ => [rooted .tShowTables "T_SHOW_TABLES"
      (.leaf { show'.show'.1 with text := (show'.walked rt ws).query rt } ::
        showTail (show'.walked rt ws).filter show'.semi)]
  | .showColumns show' _ => [rooted .tShowColumns "T_SHOW_COLUMNS"
      (.leaf { show'.show'.1 with text := (show'.walked rt ws).query rt } ::
        showTail (show'.walked rt ws).filter show'.semi)]
  | .lockTables _ _ => [rooted .tLockTable "" []]
  | .unlockTables _ => []

private theorem walkChildren_single {rt : Runtime} {ws ws' : WalkerState} {x y : Tree}
    (walk : walkChild rt ws x = some (ws', y)) : walkChildren rt ws [x] = some (ws', [y]) := by
  rw [walkChildren_cons, walk]
  simp [walkChildren_nil]

private theorem walkChildren_clauses (rt : Runtime) (ws : WalkerState) (parts : Clauses) :
    walkChildren rt ws parts.trees =
      some (ws, .leaf parts.keyword.1 :: parts.rest.map (walkedTree rt ws)) := by
  have keyword := walkChild_leaf rt ws parts.keyword.2.1
  have rest := walkChildren_of_walked fun x member => ((parts.walkable x member).walks rt ws).1
  simp only [Clauses.trees, walkChildren_cons, keyword, Option.bind_some, rest, Option.map_some]

theorem walkChildren_trees (rt : Runtime) (ws : WalkerState) (statement : Statement) :
    walkChildren rt ws statement.trees =
      some (statement.effect rt ws, statement.walked rt ws) := by
  cases statement with
  | clauses parts => exact walkChildren_clauses rt ws parts
  | select parts =>
    refine walkChildren_single ?_
    rw [rooted, walkChild_inert rt ws rfl, walkChildren_clauses rt ws parts]
    rfl
  | createTable table built => exact walkChildren_single (table.walkChild_tree rt ws built)
  | createTableLike table built =>
    exact walkChildren_single (CreateTableLike.walkChild_tree built rt ws)
  | use keyword schema semi spelled =>
    have transform : walkChild rt ws (rooted .tTransform "" []) =
        some (ws, rooted .tTransform "" []) := walkChild_leaf rt ws rfl
    simp only [trees, walkChildren_cons, transform, walkChild_use, Option.bind_some,
      walkChildren_nil, Option.map_some]
    rfl
  | showTables show' walkable =>
    exact walkChildren_single (walkChild_showTables rt ws show' walkable)
  | showColumns show' walkable =>
    exact walkChildren_single (walkChild_showColumns rt ws show' walkable)
  | lockTables tokens inert =>
    have still : ∀ x ∈ tokens.map Tree.leaf, Still x := by
      intro x member
      obtain ⟨token, own, rfl⟩ := List.mem_map.mp member
      exact still_leaf (inert token own)
    refine walkChildren_single ?_
    rw [rooted, walkChild_node, walkChildren_still still]
    rfl
  | unlockTables _ => exact walkChildren_nil rt ws

end Statement

/-! ## Inputs -/

/-- The walker states in front of the statements of an input, with the statements. -/
def statementStates (rt : Runtime) : WalkerState → List Statement → List (WalkerState × Statement)
  | _, [] => []
  | ws, statement :: rest => (ws, statement) :: statementStates rt (statement.effect rt ws) rest

/-- The walker state behind the statements. -/
def runStatements (rt : Runtime) (ws : WalkerState) (statements : List Statement) : WalkerState :=
  statements.foldl (fun ws statement => statement.effect rt ws) ws

/-- Everything that the statements append to the postbuf, in order. -/
def emitted (rt : Runtime) (ws : WalkerState) (statements : List Statement) : List Generated :=
  (statementStates rt ws statements).flatMap fun (ws, statement) => statement.generated rt ws

/-- The forest of the input behind the walk. -/
def walkedForest (rt : Runtime) (ws : WalkerState) (statements : List Statement) : List Tree :=
  (statementStates rt ws statements).flatMap fun (ws, statement) => statement.walked rt ws

theorem emitted_cons (rt : Runtime) (ws : WalkerState) (statement : Statement)
    (rest : List Statement) :
    emitted rt ws (statement :: rest) =
      statement.generated rt ws ++ emitted rt (statement.effect rt ws) rest := rfl

theorem statementStates_append (rt : Runtime) (ws : WalkerState) (first second : List Statement) :
    statementStates rt ws (first ++ second) =
      statementStates rt ws first ++ statementStates rt (runStatements rt ws first) second := by
  induction first generalizing ws with
  | nil => rfl
  | cons statement rest ih => exact congrArg _ (ih (statement.effect rt ws))

/-- Behind a run the postbuf has grown by everything that the statements generate. -/
theorem postbuf_runStatements (rt : Runtime) (ws : WalkerState) (statements : List Statement) :
    (runStatements rt ws statements).postbuf =
      ws.postbuf ++ String.join ((emitted rt ws statements).map Generated.text) := by
  induction statements generalizing ws with
  | nil => simp [runStatements, emitted, statementStates]
  | cons statement rest ih =>
    have grown : (statement.effect rt ws).postbuf =
        ws.postbuf ++ String.join ((statement.generated rt ws).map Generated.text) := by
      cases statement <;> simp [Statement.effect, Statement.generated, WalkerState.emit]
    rw [runStatements, List.foldl_cons, ← runStatements, ih, grown, emitted_cons, List.map_append,
      String.join_append, String.append_assoc]

theorem walkChildren_statements (rt : Runtime) (ws : WalkerState) (statements : List Statement) :
    walkChildren rt ws (statements.flatMap Statement.trees) =
      some (runStatements rt ws statements, walkedForest rt ws statements) := by
  induction statements generalizing ws with
  | nil => exact walkChildren_nil rt ws
  | cons statement rest ih =>
    rw [List.flatMap_cons, walkChildren_append, statement.walkChildren_trees rt ws]
    simp only [Option.bind_some, ih (statement.effect rt ws), Option.map_some]
    rfl

private theorem walkChildren_statements_eof (rt : Runtime) (ws : WalkerState)
    (eof : TokenIn [.eof]) (statements : List Statement) :
    walkChildren rt ws (statements.flatMap Statement.trees ++ [leafOf eof]) =
      some (runStatements rt ws statements, walkedForest rt ws statements ++ [leafOf eof]) := by
  have isEof : eof.1.type = .eof := List.mem_singleton.mp eof.2
  have behind : walkChild rt (runStatements rt ws statements) (leafOf eof) =
      some (runStatements rt ws statements, leafOf eof) :=
    walkChild_leaf rt _ (by rw [isEof]; rfl)
  rw [walkChildren_append, walkChildren_statements]
  simp only [Option.bind_some, walkChildren_cons, behind, walkChildren_nil, Option.map_some]

/-- A nil root over the forest and EOF keeps both. -/
private theorem treeWalkWorker_nilRoot (rt : Runtime) (ws : WalkerState) (eof : TokenIn [.eof])
    (statements : List Statement) {trees : List Tree}
    (forest : trees = statements.flatMap Statement.trees ++ [leafOf eof]) :
    ∃ root', treeWalkWorker rt ws (.node none trees) =
        some (runStatements rt ws statements, root') ∧
      printedLeaves (some root') = leavesOf (walkedForest rt ws statements) := by
  have isEof : eof.1.type = .eof := List.mem_singleton.mp eof.2
  have noLeaf : leavesOf [leafOf eof] = [] := by simp [leavesOf, leafOf, isEof]
  refine ⟨.node none (walkedForest rt ws statements ++ [leafOf eof]), ?_, ?_⟩
  · rw [forest, treeWalkWorker, walkChildren_statements_eof]
    rfl
  · simp [printedLeaves, leavesBelow, leavesOf_append, noLeaf]

/-- Walking the AST of an input walks its forest; the EOF stays behind it. -/
theorem treeWalkWorker_startRuleTree (rt : Runtime) (ws : WalkerState) (eof : TokenIn [.eof])
    (statements : List Statement) {root : Tree}
    (tree : startRuleTree eof statements = some root) :
    ∃ root', treeWalkWorker rt ws root = some (runStatements rt ws statements, root') ∧
      printedLeaves (some root') = leavesOf (walkedForest rt ws statements) := by
  cases statements with
  | nil => cases tree
  | cons statement rest =>
    change rulePostProcessing _ = _ at tree
    cases forest : (statement :: rest).flatMap Statement.trees with
    | nil =>
      -- Nothing but UNLOCK TABLES: the nil root gives way to EOF.
      have walk := walkChildren_statements_eof rt ws eof (statement :: rest)
      rw [forest] at tree walk
      obtain rfl := Option.some.inj tree
      have isEof : eof.1.type = .eof := List.mem_singleton.mp eof.2
      have single : walkChildren rt ws [leafOf eof] = some (ws, [leafOf eof]) :=
        walkChildren_still fun x member => by
          rw [List.mem_singleton.mp member]
          exact still_leaf (by rw [isEof]; rfl)
      obtain ⟨state, none⟩ := Prod.mk.inj (Option.some.inj (single.symm.trans walk))
      have empty := List.append_left_eq_self.mp none.symm
      refine ⟨leafOf eof, ?_, ?_⟩
      · rw [leafOf, Tree.leaf, treeWalkWorker, walkChildren_nil, ← state]
        rfl
      · rw [empty]
        rfl
    | cons first behind =>
      have nilRoot : root = .node none (first :: behind ++ [leafOf eof]) := by
        rw [forest] at tree
        cases behind <;> exact (Option.some.inj tree).symm
      rw [nilRoot]
      exact treeWalkWorker_nilRoot rt ws eof (statement :: rest) (by rw [forest])

/-- What `pgify` hands to the printer for an accepted input. -/
theorem pgify_startRuleTree (rt : Runtime) (ws : WalkerState) (eof : TokenIn [.eof])
    (statements : List Statement) :
    ∃ tree, pgify rt ws (startRuleTree eof statements) =
        some (runStatements rt ws statements, tree) ∧
      printedLeaves tree = leavesOf (walkedForest rt ws statements) := by
  cases tree : startRuleTree eof statements with
  | none =>
    cases statements with
    | nil => exact ⟨none, rfl, rfl⟩
    | cons statement rest =>
      change rulePostProcessing _ = _ at tree
      cases forest : (statement :: rest).flatMap Statement.trees with
      | nil => simp [forest, rulePostProcessing] at tree
      | cons first forest' => cases forest' <;> simp [forest, rulePostProcessing] at tree
  | some root =>
    obtain ⟨root', walk, leaves⟩ := treeWalkWorker_startRuleTree rt ws eof statements tree
    exact ⟨some root', by simp [pgify, walk], leaves⟩

end Pgify.Model
