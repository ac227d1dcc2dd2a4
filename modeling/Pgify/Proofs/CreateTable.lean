import Mathlib.Data.List.Chain
import Mathlib.Data.List.Forall2
import Pgify.Proofs.ColumnPasses
import Pgify.Proofs.ConstraintPasses

/-! # CREATE TABLE as a whole

The passes compose on layouts: the children that stay are the header, the columns, the PRIMARY KEY
and UNIQUE constraints and the trailing statement, and the postbuf grows by everything that was
split out, in the order of the passes.
-/

namespace Pgify.Model

theorem forall₂_append_iff {α β : Type*} {R : α → β → Prop} {l m : List α} {l' m' : List β}
    (lengths : l.length = l'.length) :
    List.Forall₂ R (l ++ m) (l' ++ m') ↔ List.Forall₂ R l l' ∧ List.Forall₂ R m m' := by
  refine ⟨fun all => ⟨?_, ?_⟩, fun both => List.rel_append both.1 both.2⟩
  · have front := List.forall₂_take_append _ _ _ all
    rwa [List.take_left' lengths] at front
  · have behind := List.forall₂_drop_append _ _ _ all
    rwa [List.drop_left' lengths] at behind

namespace CreateTable

variable (table : CreateTable)

@[simp] theorem tablename_doubled : table.doubled.tablename = table.tablename := by
  cases present : table.qualifier with
  | none => simp [tablename, doubled, present]
  | some qualifier =>
    obtain ⟨schema, dot⟩ := qualifier
    by_cases isId : schema.1.type = .id
    · have other : schema.1.type ≠ .kDouble := by simp [isId]
      simp [tablename, doubled, present, doubledSchema_of_ne other]
    · simp [tablename, doubled, present, isId]

@[simp] theorem columnDefs_doubled : table.doubled.columnDefs = table.columnDefs := rfl

@[simp] theorem sequences_doubled (schemaName : String) :
    table.doubled.sequences schemaName = table.sequences schemaName := by
  simp only [sequences, columnDefs_doubled, tablename_doubled]
  rfl

/-- A column definition behind all passes. -/
def rewrittenColumn (columnDef : ColumnDef) : Tree :=
  autoIncColumn (dateColumn (onupdateColumn (enumColumn columnDef.tree)))

/-- The children behind all passes. -/
def rewritten : List Tree :=
  table.doubled.layout rewrittenColumn
    (table.constraints.filter fun (_, constraint) => constraint.isKey) []

private theorem filter_isKey (constraints : List (TokenIn [.comma] × Constraint)) :
    ((constraints.filter fun pair => !pair.2.isIndex).filter fun pair =>
      !pair.2.isFulltext).filter (fun pair => !pair.2.isFkey) =
        constraints.filter fun (_, constraint) => constraint.isKey := by
  rw [List.filter_filter, List.filter_filter]
  refine List.filter_congr fun pair _ => ?_
  obtain ⟨comma, constraint⟩ := pair
  cases constraint <;> rfl

private theorem filterMap_fkeyTokens? (constraints : List (TokenIn [.comma] × Constraint)) :
    ((constraints.filter fun pair => !pair.2.isIndex).filter fun pair =>
      !pair.2.isFulltext).filterMap (fun (_, constraint) => constraint.fkeyTokens?) =
        constraints.filterMap fun (_, constraint) => constraint.fkeyTokens? := by
  induction constraints with
  | nil => rfl
  | cons pair rest ih =>
    obtain ⟨comma, constraint⟩ := pair
    cases constraint <;>
      simpa [Constraint.isIndex, Constraint.isFulltext, Constraint.fkeyTokens?] using ih

/-- The passes in order, each on the layout that the one before it has left. -/
theorem createTableWorker_eq (ws : WalkerState) :
    createTableWorker ws table.tree =
      some (ws.emit (table.generated ws.schemaName),
        rooted .tCreateTable "T_CREATE_TABLE" table.rewritten) := by
  have enum : table.AllStand fun columnDef => enumColumn columnDef.tree :=
    fun columnDef _ => enumColumn_stands columnDef
  have onupdate : table.doubled.AllStand fun columnDef =>
      onupdateColumn (enumColumn columnDef.tree) :=
    fun columnDef member => onupdateColumn_stands (enum columnDef member)
  have date : table.doubled.AllStand fun columnDef =>
      dateColumn (onupdateColumn (enumColumn columnDef.tree)) :=
    fun columnDef member => dateColumn_stands (onupdate columnDef member)
  have autoInc : table.doubled.Typed fun columnDef =>
      autoIncColumn (dateColumn (onupdateColumn (enumColumn columnDef.tree))) := by
    intro columnDef member
    rw [getType_autoIncColumn]
    exact (date columnDef member).type
  simp only [createTableWorker, tree, children_rooted, createRewriteEnum_children table ws,
    Option.bind_eq_bind, Option.bind_some, table.createRewriteDatatypes_layout enum.typed]
  rw [@createTableRewriteOnupdate_layout table.doubled _ _ _ enum]
  simp only [Option.bind_some]
  rw [createRewriteStupidDate_layout onupdate.typed]
  simp only [Option.bind_some]
  rw [createTableIndex_layout date.typed]
  simp only [Option.bind_some]
  rw [show table.options = table.doubled.options from rfl,
    @createTableRewriteAutoInc_layout table.doubled _ _ date]
  simp only [Option.bind_some]
  rw [createTableFulltextIndex_layout autoInc]
  simp only [Option.bind_some]
  rw [createTableRewriteFkey_layout autoInc]
  simp only [Option.bind_some]
  rw [createTableRemoveTableOptions_layout autoInc]
  simp only [Option.bind_some, clauses_enumColumn, WalkerState.emit_schemaName,
    WalkerState.emit_emit, filter_isKey, filterMap_fkeyTokens?, tablename_doubled,
    columnDefs_doubled, sequences_doubled]
  rfl

/-- What holds behind the run is what holds of its result. -/
theorem createTableWorker_behind_iff (ws : WalkerState) (p : WalkerState → Tree → Prop) :
    (∃ ws' tree, createTableWorker ws table.tree = some (ws', tree) ∧ p ws' tree) ↔
      p (ws.emit (table.generated ws.schemaName))
        (rooted .tCreateTable "T_CREATE_TABLE" table.rewritten) := by
  have run := table.createTableWorker_eq ws
  constructor
  · rintro ⟨ws', tree, own, behind⟩
    cases run.symm.trans own
    exact behind
  · exact fun behind => ⟨_, _, run, behind⟩

/-! ## The element list -/

/-- The same node: column definitions change inside, and DOUBLE changes its text. -/
def SameNode (original result : Tree) : Prop :=
  result.getType = original.getType ∧
    (original.getType ≠ .tCreateTableColumnDef → original.getType ≠ .kDouble → result = original)

private theorem sameNode_refl (x : Tree) : SameNode x x := ⟨rfl, fun _ _ => rfl⟩

private theorem forall₂_sameNode (l : List Tree) : List.Forall₂ SameNode l l :=
  List.forall₂_same.mpr fun x _ => sameNode_refl x

private theorem sameNode_column (columnDef : ColumnDef) :
    SameNode columnDef.tree (rewrittenColumn columnDef) := by
  refine ⟨?_, fun noColumn => (noColumn rfl).elim⟩
  rw [rewrittenColumn, getType_autoIncColumn]
  exact (dateColumn_stands (onupdateColumn_stands (enumColumn_stands columnDef))).type

private theorem length_qualifierTrees :
    table.doubled.qualifierTrees.length = table.qualifierTrees.length := by
  cases present : table.qualifier with
  | none => simp [qualifierTrees, doubled, present]
  | some qualifier => simp [qualifierTrees, doubled, present]

private theorem sameNode_qualifier :
    List.Forall₂ SameNode table.qualifierTrees table.doubled.qualifierTrees := by
  cases present : table.qualifier with
  | none => simp [qualifierTrees, doubled, present]
  | some qualifier =>
    obtain ⟨schema, dot⟩ := qualifier
    simp only [qualifierTrees, doubled, present, Option.map_some, Option.elim_some]
    refine .cons ?_ (forall₂_sameNode _)
    by_cases isDouble : schema.1.type = .kDouble
    · exact ⟨type_doubledSchema schema, fun _ noDouble => (noDouble isDouble).elim⟩
    · rw [doubledSchema_of_ne isDouble]
      exact sameNode_refl _

theorem getType_rewrittenColumn (columnDef : ColumnDef) :
    (rewrittenColumn columnDef).getType = .tCreateTableColumnDef :=
  (sameNode_column columnDef).1

theorem typed_rewrittenColumn : table.doubled.Typed rewrittenColumn :=
  fun columnDef _ => getType_rewrittenColumn columnDef

/-- The column definitions behind all passes, in order. -/
theorem rewritten_filter :
    table.rewritten.filter (hasType .tCreateTableColumnDef) =
      table.columnDefs.map rewrittenColumn :=
  table.doubled.layout_filter table.typed_rewrittenColumn

/-- What relates every node to itself and every column definition to what the passes make of it
relates the elements that stay to the result, as soon as it relates the qualifiers. -/
theorem forall₂_survivors {R : Tree → Tree → Prop} (refl : ∀ x, R x x)
    (column : ∀ columnDef ∈ table.columnDefs, R columnDef.tree (rewrittenColumn columnDef)) :
    List.Forall₂ R table.survivors table.rewritten ↔
      List.Forall₂ R table.qualifierTrees table.doubled.qualifierTrees := by
  have same (l : List Tree) : List.Forall₂ R l l := List.forall₂_same.mpr fun x _ => refl x
  have later : List.Forall₂ R (table.columns.flatMap fun pair => [leafOf pair.1, pair.2.tree])
      (table.columns.flatMap fun pair => [leafOf pair.1, rewrittenColumn pair.2]) := by
    have each := fun columnDef member => column columnDef (List.mem_cons_of_mem _ member)
    revert each
    induction table.columns with
    | nil => exact fun _ => .nil
    | cons pair rest ih =>
      intro each
      exact .cons (refl _) (.cons (each pair.2 List.mem_cons_self)
        (ih fun columnDef member => each columnDef (List.mem_cons_of_mem _ member)))
  have behind : List.Forall₂ R
      (leafOf table.name :: leafOf table.lparen :: table.first.tree ::
        table.columns.flatMap fun pair => [leafOf pair.1, pair.2.tree])
      (leafOf table.name :: leafOf table.lparen :: rewrittenColumn table.first ::
        table.columns.flatMap fun pair => [leafOf pair.1, rewrittenColumn pair.2]) :=
    .cons (refl _) (.cons (refl _) (.cons (column table.first List.mem_cons_self) later))
  have header : (table.header.map leafOf).length = (table.doubled.header.map leafOf).length := rfl
  have front : (table.front ColumnDef.tree).length = (table.doubled.front rewrittenColumn).length := by
    rw [front_eq, front_eq, List.length_append, List.length_append, List.length_append,
      List.length_append, header, length_qualifierTrees]
    exact congrArg _ behind.length_eq
  rw [survivors, rewritten, layout, layout, forall₂_append_iff (by simp [front]),
    forall₂_append_iff front, front_eq, front_eq,
    forall₂_append_iff (by simp [header, length_qualifierTrees]), forall₂_append_iff header]
  exact ⟨fun all => all.1.1.1.2, fun qualifier => ⟨⟨⟨⟨same _, qualifier⟩, behind⟩, same _⟩, same _⟩⟩

private theorem sameNode_survivors : List.Forall₂ SameNode table.survivors table.rewritten :=
  (table.forall₂_survivors sameNode_refl fun columnDef _ => sameNode_column columnDef).mpr
    table.sameNode_qualifier

/-- No comma stands behind a comma or an opening parenthesis, and none in front of a closing one. -/
def MayFollow (first second : Tree) : Prop :=
  (second.getType = .comma → first.getType ≠ .comma ∧ first.getType ≠ .lparen) ∧
    (second.getType = .rparen → first.getType ≠ .comma)

/-- A child that may stand anywhere but directly in front of nothing. -/
private def Neutral (x : Tree) : Prop :=
  x.getType ≠ .comma ∧ x.getType ≠ .lparen ∧ x.getType ≠ .rparen

/-- A stretch with well placed commas that does not end in a comma or an opening parenthesis. -/
private def Placed (l : List Tree) : Prop :=
  l.IsChain MayFollow ∧ ∀ last ∈ l.getLast?, last.getType ≠ .comma ∧ last.getType ≠ .lparen

private theorem Placed.snoc {l : List Tree} {x : Tree} (placed : Placed l)
    (noComma : x.getType ≠ .comma) (noParen : x.getType ≠ .lparen) : Placed (l ++ [x]) := by
  refine ⟨List.isChain_append.mpr ⟨placed.1, List.isChain_singleton x, ?_⟩,
    by simp [noComma, noParen]⟩
  intro last isLast y isHead
  obtain rfl : x = y := by simpa using isHead
  exact ⟨fun comma => (noComma comma).elim, fun _ => (placed.2 last isLast).1⟩

private theorem Placed.neutral {l m : List Tree} (placed : Placed l)
    (all : ∀ x ∈ m, Neutral x) : Placed (l ++ m) := by
  induction m generalizing l with
  | nil => rwa [List.append_nil]
  | cons x rest ih =>
    have here := all x List.mem_cons_self
    have tail := ih (placed.snoc here.1 here.2.1) fun y member =>
      all y (List.mem_cons_of_mem _ member)
    simpa using tail

/-- A comma, or an opening parenthesis, with a neutral child behind it. -/
private theorem Placed.between {l : List Tree} {separator x : Tree} (placed : Placed l)
    (kind : separator.getType = .comma ∨ separator.getType = .lparen) (neutral : Neutral x) :
    Placed (l ++ [separator, x]) := by
  obtain ⟨noComma, noParen, noRparen⟩ := neutral
  refine ⟨List.isChain_append.mpr ⟨placed.1, ?_, ?_⟩, by simp [noComma, noParen]⟩
  · simp [MayFollow, noComma, noRparen]
  · intro last isLast y isHead
    obtain rfl : separator = y := by simpa using isHead
    rcases kind with comma | paren
    · exact ⟨fun _ => placed.2 last isLast, by simp [comma]⟩
    · exact ⟨by simp [paren], by simp [paren]⟩

private theorem neutral_leafOf {types : List TokenType} (token : TokenIn types)
    (all : ∀ type ∈ types, type ≠ .comma ∧ type ≠ .lparen ∧ type ≠ .rparen) :
    Neutral (leafOf token) := all token.1.type token.2

private theorem getType_single {type : TokenType} (token : TokenIn [type]) :
    (leafOf token).getType = type := List.mem_singleton.mp token.2

private theorem neutral_order (column : KeyColumn) :
    ∀ x ∈ (column.order.map leafOf).toList, Neutral x := by
  intro x member
  obtain ⟨token, -, rfl⟩ := Option.map_eq_some_iff.mp (Option.mem_toList.mp member)
  exact neutral_leafOf token (by decide)

private theorem Placed.keyColumns {l : List Tree} (placed : Placed l) (columns : KeyColumns) :
    Placed (l ++ columns.trees) := by
  have rest (l : List Tree) (placed : Placed l) :
      Placed (l ++ columns.rest.flatMap fun pair => leafOf pair.1 :: pair.2.trees) := by
    induction columns.rest generalizing l with
    | nil => simpa using placed
    | cons pair rest ih =>
      have column := (placed.between (Or.inl (getType_single pair.1))
        (neutral_leafOf pair.2.name (by decide))).neutral (neutral_order pair.2)
      simpa [KeyColumn.trees] using ih _ column
  have first := (placed.between (Or.inr (getType_single columns.lparen))
    (neutral_leafOf columns.first.name (by decide))).neutral (neutral_order columns.first)
  have closed := (rest _ first).snoc (x := leafOf columns.rparen)
    (by simp only [getType_single]; decide) (by simp only [getType_single]; decide)
  simpa [KeyColumns.trees_eq, KeyColumn.trees] using closed

private theorem Placed.constraints {l : List Tree} (placed : Placed l)
    (constraints : List (TokenIn [.comma] × Constraint))
    (keys : ∀ pair ∈ constraints, pair.2.isKey = true) :
    Placed (l ++ constraintTrees constraints) := by
  induction constraints generalizing l with
  | nil => simpa [constraintTrees] using placed
  | cons pair rest ih =>
    obtain ⟨comma, constraint⟩ := pair
    have tail := fun pair member => keys pair (List.mem_cons_of_mem _ member)
    have isKey := keys (comma, constraint) List.mem_cons_self
    have single := getType_single comma
    cases constraint with
    | primaryKey primary key columns =>
      have here := ((placed.between (Or.inl single) (neutral_leafOf primary (by decide))).neutral
        (m := [leafOf key]) (by simpa using neutral_leafOf key (by decide))).keyColumns
          columns
      simpa [constraintTrees, Constraint.trees] using ih here tail
    | uniqueKey unique columns =>
      have here := (placed.between (Or.inl single)
        (neutral_leafOf unique (by decide))).keyColumns columns
      simpa [constraintTrees, Constraint.trees] using ih here tail
    | index _ => contradiction
    | fulltext _ => contradiction
    | fkey _ => contradiction

private theorem neutral_qualifier : ∀ x ∈ table.qualifierTrees, Neutral x := by
  intro x member
  obtain ⟨schema, dot, -, rfl | rfl⟩ := mem_qualifier member
  · have name := schema.2.2
    refine ⟨fun type => ?_, fun type => ?_, fun type => ?_⟩ <;>
      (rw [Tree.getType_leaf] at type; rw [type] at name; contradiction)
  · exact neutral_leafOf dot (by decide)

private theorem placed_front {column : ColumnDef → Tree} (typed : table.Typed column) :
    Placed (table.front column) := by
  have neutral_column : ∀ columnDef ∈ table.columnDefs, Neutral (column columnDef) := by
    intro columnDef member
    simp [Neutral, typed columnDef member]
  have header : ∀ x ∈ table.header.map leafOf, Neutral x := by
    intro x member
    obtain ⟨token, -, rfl⟩ := List.mem_map.mp member
    exact neutral_leafOf token (by decide)
  have columns (l : List Tree) (placed : Placed l) :
      Placed (l ++ table.columns.flatMap fun pair => [leafOf pair.1, column pair.2]) := by
    have all : ∀ pair ∈ table.columns, Neutral (column pair.2) := fun pair member =>
      neutral_column pair.2 (List.mem_cons_of_mem _ (List.mem_map_of_mem (f := Prod.snd) member))
    revert all
    induction table.columns generalizing l with
    | nil => simpa using placed
    | cons pair rest ih =>
      intro all
      have here := placed.between (Or.inl (getType_single pair.1)) (all pair List.mem_cons_self)
      have tail := ih _ here fun other member => all other (List.mem_cons_of_mem _ member)
      simpa using tail
  have start : Placed [] := ⟨List.isChain_nil, by simp⟩
  have name := (((start.neutral header).neutral table.neutral_qualifier).neutral
    (m := [leafOf table.name]) (by simpa using neutral_leafOf table.name (by decide)))
  have opened := name.between (Or.inr (getType_single table.lparen))
    (neutral_column table.first List.mem_cons_self)
  simpa [front_eq] using columns _ opened

private theorem placed_rewritten : Placed table.rewritten := by
  have tail : ∀ x ∈ table.doubled.tail, Neutral x := by
    intro x member
    simp only [tail, List.mem_append, Option.mem_toList, Option.map_eq_some_iff] at member
    rcases member with (⟨token, -, rfl⟩ | ⟨select, -, rfl⟩) | ⟨token, -, rfl⟩
    · exact neutral_leafOf token (by decide)
    · simp [Neutral, select.2]
    · exact neutral_leafOf token (by decide)
  have body := (table.doubled.placed_front table.typed_rewrittenColumn).constraints
    (table.constraints.filter fun (_, constraint) => constraint.isKey)
    fun pair member => (List.mem_filter.mp member).2
  have closed := (body.snoc (x := leafOf table.doubled.rparen)
    (by simp only [getType_single]; decide)
    (by simp only [getType_single]; decide)).neutral tail
  simpa [rewritten, layout] using closed

/-- The postbuf grows by the ON UPDATE triggers, one index for each index definition, one sequence
with its default for each AUTO_INCREMENT column and one foreign key for each constraint, in source
order within each kind. -/
theorem createTableWorker_postbuf (ws : WalkerState) :
    (createTableWorker ws table.tree).map (fun (ws', _) => ws'.postbuf) =
      some (ws.postbuf ++
        String.join ((table.onupdates ws.schemaName).map Generated.text) ++
        String.join ((table.indexes ws.schemaName).map Generated.text) ++
        String.join ((table.sequences ws.schemaName).map Generated.text) ++
        String.join (table.foreignKeys.map Generated.text)) := by
  simp [createTableWorker_eq, WalkerState.emit, generated, String.append_assoc]

end CreateTable

end Pgify.Model
