import Pgify.Proofs.CreateTableLayout

/-! # The passes that delete elements

One lemma for each pass that deletes children: it takes a layout to a layout with fewer constraints
or without the table options, and appends the statements of its kind. A constraint is deleted as a
block of one comma and one node, wherever it stands among the others.
-/

namespace Pgify.Model

open SearchLoop

namespace CreateTable

variable {table : CreateTable} {column : ColumnDef → Tree}
  {constraints : List (TokenIn [.comma] × Constraint)} {options : List TableOption}

/-- A constraint as a block: a comma with the node to delete, or elements that stay. -/
private def block (goes : Constraint → Bool) (node : Constraint → Tree)
    (pair : TokenIn [.comma] × Constraint) : Block Tree :=
  if goes pair.2 then .drop (leafOf pair.1) (node pair.2)
  else .keep (leafOf pair.1 :: pair.2.trees)

private theorem block_goes {goes : Constraint → Bool} (node : Constraint → Tree)
    {pair : TokenIn [.comma] × Constraint} (hit : goes pair.2 = true) :
    block goes node pair = .drop (leafOf pair.1) (node pair.2) := if_pos hit

private theorem block_stays {goes : Constraint → Bool} (node : Constraint → Tree)
    {pair : TokenIn [.comma] × Constraint} (miss : goes pair.2 = false) :
    block goes node pair = .keep (leafOf pair.1 :: pair.2.trees) := if_neg (by simp [miss])

private theorem blocks_items {goes : Constraint → Bool} {node : Constraint → Tree}
    (single : ∀ constraint, goes constraint = true → constraint.trees = [node constraint]) :
    (constraints.map (block goes node)).flatMap Block.items = constraintTrees constraints := by
  rw [List.flatMap_map, constraintTrees]
  refine List.flatMap_congr fun pair _ => ?_
  cases hit : goes pair.2 with
  | false => rw [block_stays node hit, Block.items]
  | true => simp only [block_goes node hit, Block.items, single pair.2 hit]

private theorem blocks_kept {goes : Constraint → Bool} {node : Constraint → Tree} :
    (constraints.map (block goes node)).flatMap Block.kept =
      constraintTrees (constraints.filter fun pair => !goes pair.2) := by
  induction constraints with
  | nil => rfl
  | cons pair rest ih =>
    cases hit : goes pair.2 with
    | false =>
      rw [List.map_cons, List.flatMap_cons, block_stays node hit, ih,
        List.filter_cons_of_pos (by simp [hit])]
      rfl
    | true =>
      rw [List.map_cons, List.flatMap_cons, block_goes node hit, ih,
        List.filter_cons_of_neg (by simp [hit])]
      rfl

private theorem blocks_dropped {goes : Constraint → Bool} {node : Constraint → Tree} :
    (constraints.map (block goes node)).filterMap Block.dropped? =
      (constraints.filter fun pair => goes pair.2).map fun pair => node pair.2 := by
  induction constraints with
  | nil => rfl
  | cons pair rest ih =>
    cases hit : goes pair.2 with
    | false =>
      rw [List.map_cons, List.filterMap_cons_none (by rw [block_stays node hit]; rfl), ih,
        List.filter_cons_of_neg (by simp [hit])]
    | true =>
      rw [List.map_cons, List.filterMap_cons_some (by rw [block_goes node hit]; rfl), ih,
        List.filter_cons_of_pos (by exact hit), List.map_cons]

private theorem length_constraintTrees (constraints : List (TokenIn [.comma] × Constraint)) :
    constraints.length ≤ (constraintTrees constraints).length := by
  induction constraints with
  | nil => exact Nat.zero_le _
  | cons pair rest ih =>
    simp only [constraintTrees, List.flatMap_cons, List.length_append, List.length_cons] at ih ⊢
    omega

/-- A loop that deletes the nodes of one kind, each with the comma in front of it. -/
theorem constraints_pass {lookfor : TokenType} (goes : Constraint → Bool)
    (node : Constraint → Tree) (f : WalkerState → Tree → WalkerState)
    {body : ℕ → WalkerState → List Tree → Option (ℕ × WalkerState × List Tree)}
    (single : ∀ constraint, goes constraint = true →
      constraint.trees = [node constraint] ∧ hasType lookfor (node constraint) = true)
    (stays : ∀ constraint, goes constraint = false →
      ∀ x ∈ constraint.trees, hasType lookfor x = false)
    (imaginary : lookfor.isImaginary = true) (noColumn : lookfor ≠ .tCreateTableColumnDef)
    (noOption : lookfor ≠ .tCreateTableOptions) (noSelect : lookfor ≠ .tSelectStatement)
    (step : ∀ ws before (comma : TokenIn [.comma]) constraint rest, before ≠ [] →
      goes constraint = true → ∃ next ≤ before.length + 1,
        body (before.length + 1) ws (before ++ leafOf comma :: node constraint :: rest) =
          some (next, f ws (node constraint), before ++ rest))
    (typed : table.Typed column) (ws : WalkerState) :
    whileFound lookfor body ws (table.layout column constraints options) =
      some (((constraints.filter fun pair => goes pair.2).map fun pair => node pair.2).foldl f ws,
        table.layout column (constraints.filter fun pair => !goes pair.2) options) := by
  have run := searchLoop_blocks (p := hasType lookfor) (f := f)
    (fun x => ∃ comma : TokenIn [.comma], x = leafOf comma)
    (fun x => ∃ constraint, goes constraint = true ∧ x = node constraint) body
    ((table.layout column constraints options).length + 1)
    (by
      rintro s before sep item rest nonempty ⟨comma, rfl⟩ - ⟨constraint, hit, rfl⟩
      exact step s before comma constraint rest nonempty hit)
    (constraints.map (block goes node)) (table.front column)
    (leafOf table.rparen :: (options.map TableOption.tree ++ table.tail)) ws
    (by
      intro block member
      obtain ⟨pair, -, rfl⟩ := List.mem_map.mp member
      have noHit := hasType_of_imaginary (plain_leafOf pair.1 (by decide)).1 imaginary
      cases hit : goes pair.2 with
      | true =>
        rw [block_goes node hit]
        exact ⟨⟨pair.1, rfl⟩, noHit, (single pair.2 hit).2, pair.2, hit, rfl⟩
      | false =>
        rw [block_stays node hit]
        intro x member
        rcases List.mem_cons.mp member with rfl | member
        · exact noHit
        · exact stays pair.2 hit x member)
    (table.front_ne_nil column) (table.front_clear typed imaginary noColumn)
    (table.back_clear imaginary noOption noSelect)
    (by
      have many := length_constraintTrees constraints
      simp only [List.length_map, layout, List.length_append]
      omega)
  rw [blocks_items fun constraint hit => (single constraint hit).1, blocks_kept,
    blocks_dropped] at run
  exact run

end CreateTable

/-! ## INDEX -/

/-- USING is followed by the method. -/
private theorem indexTypeOf_children (key : IndexKey) :
    indexTypeOf key.children =
      some ((key.typeBefore.or key.typeAfter).map fun indexType => indexType.method.1.text) := by
  have name : ∀ x ∈ (key.name.map leafOf).toList, hasType .kUsing x = false := by
    intro x member
    obtain ⟨token, -, rfl⟩ := Option.map_eq_some_iff.mp (Option.mem_toList.mp member)
    exact hasType_leafOf token (by decide)
  have found {before : List Tree} (rest : List Tree)
      (clear : ∀ x ∈ before, hasType .kUsing x = false) (indexType : IndexType) :
      indexTypeOf (before ++ indexType.trees ++ rest) = some (some indexType.method.1.text) := by
    have hit : hasType .kUsing (leafOf indexType.using') = true := by
      simpa [hasType] using indexType.using'.2
    have position : lookAheadIndex
        (before ++ leafOf indexType.using' :: .leaf indexType.method.1 :: rest) 0 .kUsing =
          some before.length := findFrom_append (Nat.zero_le _) (by simpa using clear) hit
    simp only [indexTypeOf, IndexType.trees, List.append_assoc, List.cons_append,
      List.nil_append, position, getElem?_behind, Option.map_some, Tree.getText_leaf]
  cases before : key.typeBefore with
  | some indexType =>
    have run := found (key.columns.trees ++
      (key.typeAfter.map IndexType.trees).getD []) name indexType
    simpa [IndexKey.children, before] using run
  | none =>
    have clear : ∀ x ∈ (key.name.map leafOf).toList ++ key.columns.trees,
        hasType .kUsing x = false := by
      intro x member
      refine (List.mem_append.mp member).elim (name x) fun own => ?_
      have all : ∀ type ∈ [TokenType.lparen, .comma, .rparen, .id, .kAsc, .kDesc],
          (type == .kUsing) = false := by decide
      exact all x.getType (key.columns.getType_mem x own)
    cases after : key.typeAfter with
    | some indexType =>
      have run := found [] clear indexType
      simpa [IndexKey.children, before, after] using run
    | none =>
      have missing : lookAheadIndex key.children 0 .kUsing = none := by
        refine lookAheadIndex_eq_none ?_
        simpa [IndexKey.children, before, after] using clear
      simp [indexTypeOf, missing]

/-- A name that the scan has found is kept. -/
private theorem foldl_step_name (l : List Tree) {scan : IndexScan} {name : String}
    (found : scan.name = some name) : (l.foldl IndexScan.step scan).name = some name := by
  induction l generalizing scan with
  | nil => exact found
  | cons x rest ih =>
    refine ih ?_
    rw [IndexScan.step]
    split
    · simp [found]
    · split <;> exact found

/-- Children that the scan passes over. -/
private theorem foldl_step_skip {l : List Tree} (scan : IndexScan)
    (skip : ∀ x ∈ l, x.getType ≠ .id ∧ x.getType ≠ .kAsc ∧ x.getType ≠ .kDesc) :
    l.foldl IndexScan.step scan = scan := by
  induction l with
  | nil => rfl
  | cons x rest ih =>
    obtain ⟨noId, noAsc, noDesc⟩ := skip x List.mem_cons_self
    have step : IndexScan.step scan x = scan := by simp [IndexScan.step, noId, noAsc, noDesc]
    rw [List.foldl_cons, step]
    exact ih fun y member => skip y (List.mem_cons_of_mem _ member)

private theorem indexScan_name {l : List Tree} (rest : List Tree) (name : TokenIn [.id])
    (skip : ∀ x ∈ l, x.getType ≠ .id ∧ x.getType ≠ .kAsc ∧ x.getType ≠ .kDesc) :
    (indexScan (l ++ leafOf name :: rest)).name = some name.1.text := by
  have isId : name.1.type = .id := List.mem_singleton.mp name.2
  rw [indexScan, List.foldl_append, foldl_step_skip _ skip, List.foldl_cons]
  exact foldl_step_name rest (by simp [IndexScan.step, isId]; rfl)

private theorem indexScan_children (key : IndexKey) :
    (indexScan key.children).name = some (key.name.getD key.columns.first.name).1.text := by
  cases own : key.name with
  | some name =>
    have run := indexScan_name (l := []) ((key.typeBefore.map IndexType.trees).getD [] ++
      key.columns.trees ++ (key.typeAfter.map IndexType.trees).getD []) name (by simp)
    simpa [IndexKey.children, own] using run
  | none =>
    -- Without a name the first column is in front of the other identifiers.
    have skip : ∀ x ∈ (key.typeBefore.map IndexType.trees).getD [] ++ [leafOf key.columns.lparen],
        x.getType ≠ .id ∧ x.getType ≠ .kAsc ∧ x.getType ≠ .kDesc := by
      intro x member
      rcases List.mem_append.mp member with before | paren
      · cases present : key.typeBefore with
        | none => simp [present] at before
        | some indexType =>
          simp only [present, Option.map_some, Option.getD_some, IndexType.trees, List.mem_cons,
            List.not_mem_nil, or_false] at before
          rcases before with rfl | rfl
          · have type : indexType.using'.1.type = .kUsing :=
              List.mem_singleton.mp indexType.using'.2
            simp [type]
          · obtain ⟨code, type⟩ := indexType.method.2
            simp [type]
      · have type : key.columns.lparen.1.type = .lparen :=
          List.mem_singleton.mp key.columns.lparen.2
        simp [List.mem_singleton.mp paren, type]
    have run := indexScan_name ((key.columns.first.order.map leafOf).toList ++
      key.columns.rest.flatMap (fun pair => leafOf pair.1 :: pair.2.trees) ++
      [leafOf key.columns.rparen] ++ (key.typeAfter.map IndexType.trees).getD [])
      key.columns.first.name skip
    simpa [IndexKey.children, own, KeyColumns.trees_eq, KeyColumn.trees] using run

private def indexNode : Constraint → Tree
  | .index key => key.tree
  | _ => rooted .tCreateTableIndex "T_CREATE_TABLE_INDEX" []

private theorem index_nodes (constraints : List (TokenIn [.comma] × Constraint)) :
    (constraints.filter fun pair => pair.2.isIndex).map (fun pair => indexNode pair.2) =
      (constraints.filterMap fun (_, constraint) => constraint.indexKey?).map IndexKey.tree := by
  induction constraints with
  | nil => rfl
  | cons pair rest ih =>
    obtain ⟨comma, constraint⟩ := pair
    cases constraint <;>
      simpa [Constraint.isIndex, Constraint.indexKey?, indexNode] using ih

theorem createTableIndex_layout {table : CreateTable} {column : ColumnDef → Tree}
    {constraints : List (TokenIn [.comma] × Constraint)} {options : List TableOption}
    (typed : table.Typed column) (ws : WalkerState) :
    createTableIndex ws (table.layout column constraints options) =
      some (ws.emit ((constraints.filterMap fun (_, constraint) => constraint.indexKey?).map
          (IndexKey.generated ws.schemaName table.tablename)),
        table.layout column (constraints.filter fun pair => !pair.2.isIndex) options) := by
  let appended (ws : WalkerState) (x : Tree) : WalkerState :=
    let scan := indexScan x.children
    ws.append (indexText ws.schemaName table.tablename ((scan.name.or scan.firstcolumn).getD "")
      ((indexTypeOf x.children).getD none) scan.columns)
  have emits (ws : WalkerState) (key : IndexKey) :
      appended ws key.tree = ws.emit [key.generated ws.schemaName table.tablename] := by
    simp [appended, IndexKey.tree, indexTypeOf_children, indexScan_children, WalkerState.emit,
      IndexKey.generated, Generated.text]
  simp only [createTableIndex, table.createTableTablename_layout, Option.bind_eq_bind,
    Option.bind_some]
  rw [CreateTable.constraints_pass Constraint.isIndex indexNode appended
    ?_ ?_ rfl (by decide) (by decide) (by decide) ?_ typed ws]
  · rw [index_nodes, List.foldl_map]
    simp only [emits]
    rw [foldl_emit fun schemaName key => [IndexKey.generated schemaName table.tablename key],
      ← List.map_eq_flatMap]
  · intro constraint hit
    cases constraint <;> first | contradiction | exact ⟨rfl, rfl⟩
  · intro constraint miss x member
    rcases constraint.getType_trees member with plain | ⟨isIndex, -⟩ | ⟨-, own⟩ | ⟨-, own⟩
    · exact hasType_of_imaginary plain.1 rfl
    · rw [miss] at isIndex
      contradiction
    · simp [hasType, own]
    · simp [hasType, own]
  · intro ws before comma constraint rest nonempty hit
    cases constraint with
    | index key =>
      have isComma : comma.1.type = .comma := List.mem_singleton.mp comma.2
      refine ⟨0, Nat.zero_le _, ?_⟩
      simp [indexNode, IndexKey.tree, indexTypeOf_children, indexScan_children, isComma, appended,
        eraseIdx_behind, eraseIdx_here]
    | _ => contradiction

/-! ## FULLTEXT -/

private def fulltextNode : Constraint → Tree
  | .fulltext tokens =>
    rooted .tCreateTableFulltextIndex "T_CREATE_TABLE_FULLTEXT_INDEX" (tokens.map .leaf)
  | _ => rooted .tCreateTableFulltextIndex "T_CREATE_TABLE_FULLTEXT_INDEX" []

theorem createTableFulltextIndex_layout {table : CreateTable} {column : ColumnDef → Tree}
    {constraints : List (TokenIn [.comma] × Constraint)} {options : List TableOption}
    (typed : table.Typed column) (ws : WalkerState) :
    createTableFulltextIndex ws (table.layout column constraints options) =
      some (ws,
        table.layout column (constraints.filter fun pair => !pair.2.isFulltext) options) := by
  rw [createTableFulltextIndex, CreateTable.constraints_pass Constraint.isFulltext
    fulltextNode (fun ws _ => ws) ?_ ?_ rfl (by decide) (by decide) (by decide) ?_ typed ws]
  · rw [List.foldl_fixed]
  · intro constraint hit
    cases constraint <;> first | contradiction | exact ⟨rfl, rfl⟩
  · intro constraint miss x member
    rcases constraint.getType_trees member with plain | ⟨-, own⟩ | ⟨isFulltext, -⟩ | ⟨-, own⟩
    · exact hasType_of_imaginary plain.1 rfl
    · simp [hasType, own]
    · rw [miss] at isFulltext
      contradiction
    · simp [hasType, own]
  · intro ws before comma constraint rest nonempty hit
    have isComma : comma.1.type = .comma := List.mem_singleton.mp comma.2
    have front : before.length + 1 - 1 > 0 := List.length_pos_iff.mpr nonempty
    -- The search resumes where the node stood, which is one past where its comma stood.
    refine ⟨before.length + 1, Nat.le_refl _, ?_⟩
    rw [if_pos front]
    simp [isComma, eraseIdx_behind, eraseIdx_here]

/-! ## FOREIGN KEY -/

private theorem fkeyTokens_leaves (tokens : List Token) :
    fkeyTokens (tokens.map .leaf) = some (fkeyTokensText tokens) := by
  induction tokens with
  | nil => rfl
  | cons token rest ih =>
    simp [fkeyTokens, ih, fkeyTokensText]

private def fkeyNode : Constraint → Tree
  | .fkey tokens => rooted .tCreateTableFkey "T_CREATE_TABLE_FKEY" (tokens.map .leaf)
  | _ => rooted .tCreateTableFkey "T_CREATE_TABLE_FKEY" []

private theorem fkey_nodes (constraints : List (TokenIn [.comma] × Constraint)) :
    (constraints.filter fun pair => pair.2.isFkey).map (fun pair => fkeyNode pair.2) =
      (constraints.filterMap fun (_, constraint) => constraint.fkeyTokens?).map fun tokens =>
        rooted .tCreateTableFkey "T_CREATE_TABLE_FKEY" (tokens.map .leaf) := by
  induction constraints with
  | nil => rfl
  | cons pair rest ih =>
    obtain ⟨comma, constraint⟩ := pair
    cases constraint <;>
      simpa [Constraint.isFkey, Constraint.fkeyTokens?, fkeyNode] using ih

theorem createTableRewriteFkey_layout {table : CreateTable} {column : ColumnDef → Tree}
    {constraints : List (TokenIn [.comma] × Constraint)} {options : List TableOption}
    (typed : table.Typed column) (ws : WalkerState) :
    createTableRewriteFkey ws (table.layout column constraints options) =
      some (ws.emit ((constraints.filterMap fun (_, constraint) => constraint.fkeyTokens?).map
          (.fkey table.tablename)),
        table.layout column (constraints.filter fun pair => !pair.2.isFkey) options) := by
  let appended (ws : WalkerState) (x : Tree) : WalkerState :=
    ws.append (fkeyText table.tablename ((fkeyTokens x.children).getD ""))
  have emits (ws : WalkerState) (tokens : List Token) :
      appended ws (rooted .tCreateTableFkey "T_CREATE_TABLE_FKEY" (tokens.map .leaf)) =
        ws.emit [.fkey table.tablename tokens] := by
    simp [appended, fkeyTokens_leaves, WalkerState.emit, Generated.text]
  simp only [createTableRewriteFkey, table.createTableTablename_layout, Option.getD_some]
  rw [CreateTable.constraints_pass Constraint.isFkey fkeyNode appended
    ?_ ?_ rfl (by decide) (by decide) (by decide) ?_ typed ws]
  · rw [fkey_nodes, List.foldl_map]
    simp only [emits]
    rw [foldl_emit fun _ tokens => [Generated.fkey table.tablename tokens],
      ← List.map_eq_flatMap]
  · intro constraint hit
    cases constraint <;> first | contradiction | exact ⟨rfl, rfl⟩
  · intro constraint miss x member
    rcases constraint.getType_trees member with plain | ⟨-, own⟩ | ⟨-, own⟩ | ⟨isFkey, -⟩
    · exact hasType_of_imaginary plain.1 rfl
    · simp [hasType, own]
    · simp [hasType, own]
    · rw [miss] at isFkey
      contradiction
  · intro ws before comma constraint rest nonempty hit
    cases constraint with
    | fkey tokens =>
      have isComma : comma.1.type = .comma := List.mem_singleton.mp comma.2
      refine ⟨0, Nat.zero_le _, ?_⟩
      simp [fkeyNode, fkeyTokens_leaves, isComma, appended, eraseIdx_behind, eraseIdx_here]
    | _ => contradiction

/-! ## Table options -/

theorem createTableRemoveTableOptions_layout {table : CreateTable} {column : ColumnDef → Tree}
    {constraints : List (TokenIn [.comma] × Constraint)} (typed : table.Typed column)
    (ws : WalkerState) :
    createTableRemoveTableOptions ws (table.layout column constraints table.options) =
      some (ws, table.layout column constraints []) := by
  have stays {l : List Tree} (clear : ∀ x ∈ l, hasType .tCreateTableOptions x = false) :
      (l.filter fun x => !hasType .tCreateTableOptions x) = l :=
    List.filter_eq_self.mpr fun x member => by simp [clear x member]
  have goes : ((table.options.map TableOption.tree).filter fun x =>
      !hasType .tCreateTableOptions x) = [] := by
    refine List.filter_eq_nil_iff.mpr fun x member => ?_
    obtain ⟨option, -, rfl⟩ := List.mem_map.mp member
    simp [TableOption.tree, hasType]
  rw [createTableRemoveTableOptions, whileFound, searchLoop_delete ?_ ws _ (Nat.lt_succ_self _)]
  · simp only [CreateTable.layout, List.filter_append, List.filter_cons,
      table.rparen_noOption, Bool.not_false, ↓reduceIte, List.map_nil, List.nil_append,
      stays (table.front_clear typed rfl (by decide)), goes, stays table.tail_noOption,
      stays (CreateTable.constraintTrees_others _ rfl (by decide) (by decide) (by decide))]
  · intro ws before x rest _
    rw [eraseIdx_here]

end Pgify.Model
