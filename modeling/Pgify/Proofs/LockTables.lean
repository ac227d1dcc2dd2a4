import Pgify.Model.LockTables

/-! # LOCK and UNLOCK TABLES leave no trace

The walk empties a T_LOCK_TABLE node and its text, so the printer takes it for a leaf and appends
an empty text. UNLOCK TABLES puts nothing into the forest. Between other statements both change
neither the texts of the other leaves nor the walker state.
-/

namespace Pgify.Untraced

open Model CursorMerge

/-- The second forest is the first one with statements that lock and unlock tables in between. -/
inductive Inserted : List Tree → List Tree → Prop
  | nil : Inserted [] []
  | tree {trees trees' : List Tree} (tree : Tree) (rest : Inserted trees trees') :
    Inserted (tree :: trees) (tree :: trees')
  | lockTables {trees trees' : List Tree} (statement : LockTables)
    (rest : Inserted trees trees') : Inserted trees (statement.trees ++ trees')
  | unlockTables {trees trees' : List Tree} (statement : UnlockTables)
    (rest : Inserted trees trees') : Inserted trees (statement.trees ++ trees')

/-- The texts of some leaves, without the empty ones. -/
def textsOf (leaves : List Tree) : List String :=
  (leaves.map Tree.getText).filter (· ≠ "")

/-- What is left of a walk and the printing of its tree: the non-empty leaf texts in the order of
the appends, the postbuf and the schema name. -/
def trace (tokens : List Token) (walked : WalkerState × Tree) : List String × String × String :=
  (textsOf (rights (printTree tokens (some walked.2)).pieces), walked.1.postbuf,
    walked.1.schemaName)

/-! ## The node of LOCK TABLES -/

/-- A token of the input, no imaginary one. -/
private def Plain (token : Token) : Prop :=
  token.type.isImaginary = false

private theorem walkChild_leaf (rt : Runtime) (ws : WalkerState) {token : Token}
    (plain : Plain token) : ∃ leaf, walkChild rt ws (.leaf token) = some (ws, leaf) := by
  obtain ⟨type, text, channel, line, column⟩ := token
  rw [Tree.leaf, walkChild_node, walkChildren_nil]
  cases type <;> first | exact ⟨_, rfl⟩ | cases plain

private theorem walkChildren_leaves (rt : Runtime) (ws : WalkerState) {tokens : List Token}
    (plain : ∀ token ∈ tokens, Plain token) :
    ∃ leaves, walkChildren rt ws (tokens.map .leaf) = some (ws, leaves) := by
  induction tokens with
  | nil => exact ⟨[], walkChildren_nil rt ws⟩
  | cons token rest ih =>
    obtain ⟨leaf, own⟩ := walkChild_leaf rt ws (plain token List.mem_cons_self)
    obtain ⟨leaves, behind⟩ := ih fun other member => plain other (List.mem_cons_of_mem _ member)
    refine ⟨leaf :: leaves, ?_⟩
    simp only [List.map_cons, walkChildren_cons, own, Option.bind_some, behind, Option.map_some]

private theorem plain_tokenIn {types : List TokenType} (token : TokenIn types)
    (plain : ∀ type ∈ types, type.isImaginary = false) : Plain token.1 :=
  plain _ token.2

private theorem plain_optional {types : List TokenType} (token : Option (TokenIn types))
    (plain : ∀ type ∈ types, type.isImaginary = false) :
    ∀ x ∈ (token.map Subtype.val).toList, Plain x := by
  intro x member
  obtain ⟨token, -, rfl⟩ := Option.map_eq_some_iff.mp (Option.mem_toList.mp member)
  exact plain_tokenIn token plain

private theorem LockedTable.plain (table : LockedTable) : ∀ token ∈ table.tokens, Plain token := by
  have qualifier : ∀ token ∈ table.qualifier.elim [] (fun pair => [pair.1.1, pair.2.1]),
      Plain token := by
    cases table.qualifier with
    | none => exact List.forall_mem_nil _
    | some pair =>
      exact List.forall_mem_cons.mpr ⟨pair.1.2.1,
        List.forall_mem_singleton.mpr (plain_tokenIn pair.2 (by decide))⟩
  have correlation : ∀ token ∈ table.correlation.elim []
      (fun pair => (pair.1.map Subtype.val).toList ++ [pair.2.1]), Plain token := by
    cases table.correlation with
    | none => exact List.forall_mem_nil _
    | some pair =>
      exact List.forall_mem_append.mpr ⟨plain_optional pair.1 (by decide),
        List.forall_mem_singleton.mpr (plain_tokenIn pair.2 (by decide))⟩
  rw [LockedTable.tokens, List.forall_mem_append, List.forall_mem_cons]
  exact ⟨qualifier, plain_tokenIn table.name (by decide), correlation⟩

private theorem TableLockType.plain (lockType : TableLockType) :
    ∀ token ∈ lockType.tokens, Plain token := by
  cases lockType with
  | read keyword locally =>
    exact List.forall_mem_cons.mpr ⟨plain_tokenIn keyword (by decide),
      plain_optional locally (by decide)⟩
  | write lowPriority keyword =>
    exact List.forall_mem_append.mpr ⟨plain_optional lowPriority (by decide),
      List.forall_mem_singleton.mpr (plain_tokenIn keyword (by decide))⟩

private theorem LockTables.plain (statement : LockTables) :
    ∀ token ∈ statement.tokens, Plain token := by
  have rest : ∀ token ∈ statement.rest.flatMap fun pair => pair.1.1 :: pair.2.tokens,
      Plain token := by
    intro token member
    obtain ⟨pair, -, inside⟩ := List.mem_flatMap.mp member
    rcases List.mem_cons.mp inside with rfl | own
    · exact plain_tokenIn pair.1 (by decide)
    · exact LockedTable.plain pair.2 token own
  rw [LockTables.tokens, List.forall_mem_append, List.forall_mem_append, List.forall_mem_append,
    List.forall_mem_cons, List.forall_mem_cons]
  exact ⟨⟨⟨⟨plain_tokenIn statement.lock (by decide), plain_tokenIn statement.tables (by decide),
    LockedTable.plain statement.first⟩, rest⟩, TableLockType.plain statement.lockType⟩,
    plain_optional statement.semi (by decide)⟩

/-- The children are walked, and then the loop deletes them all. -/
theorem walkChildren_lockTables (rt : Runtime) (ws : WalkerState) (statement : LockTables) :
    walkChildren rt ws statement.trees = some (ws, [rooted .tLockTable "" []]) := by
  obtain ⟨leaves, walked⟩ := walkChildren_leaves rt ws (LockTables.plain statement)
  rw [LockTables.trees, walkChildren_cons, rooted, walkChild_node, walked]
  simp only [Option.bind_some, dispatch, Tree.getType_node, Token.imaginary,
    lockTablesWorker_eq_loop, deleteTreeChildren_eq_nil, walkChildren_nil, Option.map_some]
  rfl

/-! ## The forest -/

/-- The state behind the walk and the non-empty texts of the leaves. -/
private def seen (walked : WalkerState × List Tree) : WalkerState × List String :=
  (walked.1, textsOf (leavesOf walked.2))

private theorem textsOf_cons (child : Tree) (rest : List Tree) :
    textsOf (leavesOf (child :: rest)) = textsOf (leavesOf [child]) ++ textsOf (leavesOf rest) := by
  rw [leavesOf_cons, textsOf, List.map_append, List.filter_append]
  rfl

/-- The leaf that is left of LOCK TABLES has no text. -/
private theorem textsOf_lockTables : textsOf (leavesOf [rooted .tLockTable "" []]) = [] := by
  simp [textsOf, leavesOf, rooted, Token.imaginary]

private theorem seen_cons (child : Tree) (walked : Option (WalkerState × List Tree)) :
    (walked.map fun walked => (walked.1, child :: walked.2)).map seen =
      (walked.map seen).map fun walked =>
        (walked.1, textsOf (leavesOf [child]) ++ walked.2) := by
  cases walked with
  | none => rfl
  | some walked => simp only [Option.map_some, seen, textsOf_cons child walked.2]

/-- Statement by statement: a statement of both forests is walked in the same state, and an inserted
one leaves the state as it is. -/
theorem walkChildren_inserted (rt : Runtime) (ws : WalkerState) {trees trees' : List Tree}
    (inserted : Inserted trees trees') :
    (walkChildren rt ws trees').map seen = (walkChildren rt ws trees).map seen := by
  induction inserted generalizing ws with
  | nil => rfl
  | tree tree rest ih =>
    rw [walkChildren_cons, walkChildren_cons]
    cases walkChild rt ws tree with
    | none => rfl
    | some walked =>
      have behind := ih walked.1
      rw [Option.bind_some, Option.bind_some, seen_cons, seen_cons, behind]
  | lockTables statement rest ih =>
    rw [walkChildren_append, walkChildren_lockTables, Option.bind_some]
    simp only [List.singleton_append]
    rw [seen_cons, ih ws, textsOf_lockTables]
    cases walkChildren rt ws _ <;> rfl
  | unlockTables statement rest ih => exact ih ws

private theorem trace_eq (tokens : List Token) (walked : WalkerState × List Tree) :
    trace tokens (walked.1, .node none walked.2) =
      ((seen walked).2, (seen walked).1.postbuf, (seen walked).1.schemaName) := by
  rw [trace, printTree_pieces, rights_merge]
  rfl

/-- Statements that lock and unlock tables, in any number and at any places between the statements
of an input, change neither the non-empty leaf texts that the printer appends, nor the postbuf, nor
the schema name. The two inputs have token vectors of their own. -/
theorem inserted_leaves_no_trace (rt : Runtime) (ws : WalkerState) (tokens tokens' : List Token)
    {trees trees' : List Tree} (inserted : Inserted trees trees') :
    (treeWalkWorker rt ws (.node none trees')).map (trace tokens') =
      (treeWalkWorker rt ws (.node none trees)).map (trace tokens) := by
  have factor (tokens : List Token) (trees : List Tree) :
      (treeWalkWorker rt ws (.node none trees)).map (trace tokens) =
        ((walkChildren rt ws trees).map seen).map fun walked =>
          (walked.2, walked.1.postbuf, walked.1.schemaName) := by
    rw [treeWalkWorker]
    cases walkChildren rt ws trees with
    | none => rfl
    | some walked => exact congrArg some (trace_eq tokens walked)
  rw [factor, factor, walkChildren_inserted rt ws inserted]

/-! ## LOCK TABLES in front of a statement -/

private def word (type : TokenType) (text : String) : Token :=
  ⟨type, text, .default, 1, 0⟩

private def statement : LockTables where
  lock := ⟨word .kLock "LOCK", List.mem_singleton_self _⟩
  tables := ⟨word .kTables "TABLES", List.mem_singleton_self _⟩
  first := ⟨none, ⟨word .id "maint", List.mem_singleton_self _⟩, none⟩
  rest := []
  lockType := .write none ⟨word (.other 38) "WRITE", List.mem_singleton_self _⟩
  semi := some ⟨word .semi ";", List.mem_singleton_self _⟩

private def foundRows : Tree :=
  .leaf (word .kFoundRows "FOUND_ROWS")

/-- `LOCK TABLES maint WRITE;` in front of a tree that the walk retexts. -/
theorem inserted_leaves_no_trace_maint :
    (treeWalkWorker ⟨id, 0⟩ (walkerstateNew 0) (.node none (statement.trees ++ [foundRows]))).map
        (trace []) = some (["1 AS \"found_rows()\""], "", "") := by
  have inserted : Inserted [foundRows] (statement.trees ++ [foundRows]) :=
    .lockTables statement (.tree foundRows .nil)
  rw [inserted_leaves_no_trace _ (walkerstateNew 0) [] [] inserted, foundRows, treeWalkWorker]
  simp only [walkChildren_cons, Tree.leaf, walkChild_node, walkChildren_nil, Option.bind_some,
    dispatch, Tree.getType_node, word, Option.map_some, rewriteFoundRows, Option.bind_eq_bind]
  rw [trace, printTree_pieces, rights_merge]
  rfl

end Pgify.Untraced
