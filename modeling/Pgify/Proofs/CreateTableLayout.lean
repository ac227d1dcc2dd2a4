import Mathlib.Tactic.Tauto
import Pgify.Model.Generated

/-! # What the passes find in the children of CREATE TABLE

The passes only search for composite nodes, for identifiers and for DOUBLE. These lemmas say where
such children stand in a layout, so that a pass is reasoned about through the layout alone.
-/

namespace Pgify.Model

/-- Nodes that only a rewrite makes are no leaf of the input. -/
theorem hasType_of_imaginary {x : Tree} {lookfor : TokenType}
    (plain : x.getType.isImaginary = false) (imaginary : lookfor.isImaginary = true) :
    hasType lookfor x = false := by
  have differs : x.getType ≠ lookfor := by
    intro same
    rw [same, imaginary] at plain
    contradiction
  simpa [hasType] using differs

open SearchLoop in
theorem lookAheadIndex_eq_some {l : List Tree} {lookfor : TokenType}
    (found : ∃ x ∈ l, hasType lookfor x = true) :
    ∃ pos x, lookAheadIndex l 0 lookfor = some pos ∧ l[pos]? = some x ∧
      hasType lookfor x = true := by
  obtain ⟨x, member, hit⟩ := found
  cases search : l.findIdx? (hasType lookfor) with
  | none =>
    have miss := List.findIdx?_eq_none_iff.mp search x member
    rw [hit] at miss
    contradiction
  | some pos =>
    obtain ⟨bound, hitPos, -⟩ := List.findIdx?_eq_some_iff_getElem.mp search
    exact ⟨pos, l[pos], by simp [lookAheadIndex, findFrom, search], by simp, hitPos⟩

open SearchLoop in
theorem lookAheadIndex_eq_none {l : List Tree} {k : TokenType}
    (clear : ∀ x ∈ l, hasType k x = false) : lookAheadIndex l 0 k = none :=
  findFrom_none 0 clear

theorem lookAheadIndex_isSome (l : List Tree) (lookfor : TokenType) :
    (lookAheadIndex l 0 lookfor).isSome = l.any (hasType lookfor) := by
  simp [lookAheadIndex, SearchLoop.findFrom, List.findIdx?_isSome]

/-- A child that the passes neither delete nor search for inside. -/
def Plain (x : Tree) : Prop :=
  x.getType.isImaginary = false ∧ x.getType ≠ .kDouble

theorem plain_leafOf {types : List TokenType} (token : TokenIn types)
    (none : ∀ type ∈ types, type.isImaginary = false ∧ type ≠ .kDouble) : Plain (leafOf token) :=
  none token.1.type token.2

theorem KeyColumns.trees_eq (columns : KeyColumns) :
    columns.trees = leafOf columns.lparen :: columns.first.trees ++
      columns.rest.flatMap (fun pair => leafOf pair.1 :: pair.2.trees) ++
      [leafOf columns.rparen] := rfl

theorem KeyColumn.getType_mem (column : KeyColumn) :
    ∀ x ∈ column.trees, x.getType ∈ [TokenType.id, .kAsc, .kDesc] := by
  intro x member
  rcases List.mem_cons.mp member with rfl | order
  · exact List.mem_cons.mpr (Or.inl (List.mem_singleton.mp column.name.2))
  · obtain ⟨token, -, rfl⟩ := Option.map_eq_some_iff.mp (Option.mem_toList.mp order)
    exact List.mem_cons_of_mem _ token.2

theorem KeyColumns.getType_mem (columns : KeyColumns) :
    ∀ x ∈ columns.trees, x.getType ∈ [TokenType.lparen, .comma, .rparen, .id, .kAsc, .kDesc] := by
  intro x member
  have single {type : TokenType} (token : TokenIn [type]) : (leafOf token).getType = type :=
    List.mem_singleton.mp token.2
  simp only [KeyColumns.trees, List.cons_append, List.mem_cons, List.mem_append,
    List.mem_flatMap, List.not_mem_nil, or_false] at member
  rcases member with rfl | (first | ⟨⟨comma, column⟩, -, rfl | own⟩) | rfl
  · simp only [single]; decide
  · have type := columns.first.getType_mem x first
    simp only [List.mem_cons] at type ⊢
    tauto
  · simp only [single]; decide
  · have type := column.getType_mem x own
    simp only [List.mem_cons] at type ⊢
    tauto
  · simp only [single]; decide

theorem KeyColumns.plain (columns : KeyColumns) : ∀ x ∈ columns.trees, Plain x := by
  have all : ∀ type ∈ [TokenType.lparen, .comma, .rparen, .id, .kAsc, .kDesc],
      type.isImaginary = false ∧ type ≠ .kDouble := by decide
  exact fun x member => all x.getType (columns.getType_mem x member)

theorem Constraint.plain_of_isKey (constraint : Constraint) (isKey : constraint.isKey = true) :
    ∀ x ∈ constraint.trees, Plain x := by
  cases constraint with
  | primaryKey primary key columns =>
    intro x member
    rcases List.mem_cons.mp member with rfl | member
    · exact plain_leafOf primary (by decide)
    · rcases List.mem_cons.mp member with rfl | member
      · exact plain_leafOf key (by decide)
      · exact columns.plain x member
  | uniqueKey unique columns =>
    intro x member
    rcases List.mem_cons.mp member with rfl | member
    · exact plain_leafOf unique (by decide)
    · exact columns.plain x member
  | index _ => contradiction
  | fulltext _ => contradiction
  | fkey _ => contradiction

/-- The trees of a constraint are input tokens, or the one node of its kind. -/
theorem Constraint.getType_trees (constraint : Constraint) {x : Tree}
    (member : x ∈ constraint.trees) :
    Plain x ∨ constraint.isIndex = true ∧ x.getType = .tCreateTableIndex ∨
      constraint.isFulltext = true ∧ x.getType = .tCreateTableFulltextIndex ∨
      constraint.isFkey = true ∧ x.getType = .tCreateTableFkey := by
  cases constraint with
  | primaryKey | uniqueKey => exact Or.inl (Constraint.plain_of_isKey _ rfl x member)
  | index key => rw [List.mem_singleton.mp member]; exact Or.inr (Or.inl ⟨rfl, rfl⟩)
  | fulltext tokens =>
    rw [List.mem_singleton.mp member]; exact Or.inr (Or.inr (Or.inl ⟨rfl, rfl⟩))
  | fkey tokens =>
    rw [List.mem_singleton.mp member]; exact Or.inr (Or.inr (Or.inr ⟨rfl, rfl⟩))

/-! Both forms of CREATE TABLE have these parts. -/

/-- A qualifier is a schema name and a dot. -/
theorem mem_qualifier {qualifier : Option (SqlIdentifier × TokenIn [.dot])} {x : Tree}
    (member : x ∈ qualifier.elim [] fun pair => [Tree.leaf pair.1.1, leafOf pair.2]) :
    ∃ schema dot, qualifier = some (schema, dot) ∧ (x = .leaf schema.1 ∨ x = leafOf dot) := by
  cases qualifier with
  | none => cases member
  | some pair => exact ⟨pair.1, pair.2, rfl, by simpa using member⟩

theorem getType_tail {as : Option (TokenIn [.kAs])}
    {select : Option { tree : Tree // tree.getType = .tSelectStatement }}
    {semi : Option (TokenIn [.semi])} {x : Tree}
    (member : x ∈ (as.map leafOf).toList ++ (select.map Subtype.val).toList ++
      (semi.map leafOf).toList) :
    x.getType ∈ [TokenType.kAs, .tSelectStatement, .semi] := by
  simp only [List.mem_append, Option.mem_toList, Option.map_eq_some_iff] at member
  rcases member with (⟨token, -, rfl⟩ | ⟨select, -, rfl⟩) | ⟨token, -, rfl⟩
  · exact List.mem_cons.mpr (Or.inl (List.mem_singleton.mp token.2))
  · simp [select.2]
  · have isSemi : (leafOf token).getType = .semi := List.mem_singleton.mp token.2
    simp [isSemi]

/-- The tail holds input tokens and the select statement. -/
theorem plain_of_getType_tail {x : Tree}
    (type : x.getType ∈ [TokenType.kAs, .tSelectStatement, .semi]) :
    Plain x ∨ x.getType = .tSelectStatement := by
  simp only [List.mem_cons, List.not_mem_nil, or_false] at type
  rw [Plain]
  rcases type with type | type | type
  · exact Or.inl (by rw [type]; decide)
  · exact Or.inr type
  · exact Or.inl (by rw [type]; decide)

theorem hasType_options (options : List TableOption) :
    ∀ x ∈ options.map TableOption.tree, hasType .tCreateTableOptions x = true := by
  intro x member
  obtain ⟨option, -, rfl⟩ := List.mem_map.mp member
  rfl

namespace CreateTable

variable (table : CreateTable) {column : ColumnDef → Tree}
  {constraints : List (TokenIn [.comma] × Constraint)} {options : List TableOption}

/-- `column` puts a column definition for each column definition. -/
def Typed (column : ColumnDef → Tree) : Prop :=
  ∀ columnDef ∈ table.columnDefs, (column columnDef).getType = .tCreateTableColumnDef

theorem typed_tree : table.Typed ColumnDef.tree := fun _ _ => rfl

theorem front_ne_nil (column : ColumnDef → Tree) : table.front column ≠ [] := by
  simp [front]

theorem mem_qualifierTrees {x : Tree} (member : x ∈ table.qualifierTrees) :
    x.getType.isImaginary = false := by
  obtain ⟨schema, dot, -, rfl | rfl⟩ := mem_qualifier member
  · exact schema.2.1
  · exact (plain_leafOf dot (by decide)).1

/-- The front holds input tokens and column definitions only. -/
theorem mem_front (typed : table.Typed column) {x : Tree} (member : x ∈ table.front column) :
    x.getType.isImaginary = false ∨ x.getType = .tCreateTableColumnDef := by
  simp only [front, List.mem_append, List.mem_cons, List.mem_map, List.mem_flatMap] at member
  rcases member with (⟨token, -, rfl⟩ | qualifier) | rfl | rfl | rfl | ⟨⟨comma, def'⟩, own, member⟩
  · exact Or.inl (plain_leafOf token (by decide)).1
  · exact Or.inl (table.mem_qualifierTrees qualifier)
  · exact Or.inl (plain_leafOf table.name (by decide)).1
  · exact Or.inl (plain_leafOf table.lparen (by decide)).1
  · exact Or.inr (typed table.first List.mem_cons_self)
  · simp only [List.not_mem_nil, or_false] at member
    rcases member with rfl | rfl
    · exact Or.inl (plain_leafOf comma (by decide)).1
    · exact Or.inr (typed def' (List.mem_cons_of_mem _ (List.mem_map_of_mem (f := Prod.snd) own)))

theorem front_clear (typed : table.Typed column) {k : TokenType}
    (imaginary : k.isImaginary = true) (other : k ≠ .tCreateTableColumnDef) :
    ∀ x ∈ table.front column, hasType k x = false := by
  intro x member
  rcases table.mem_front typed member with plain | columnDef
  · exact hasType_of_imaginary plain imaginary
  · simpa [hasType, columnDef] using other.symm

theorem mem_tail {x : Tree} (member : x ∈ table.tail) :
    Plain x ∨ x.getType = .tSelectStatement :=
  plain_of_getType_tail (getType_tail member)

/-- Behind the constraints stand input tokens, options and the select statement. -/
theorem mem_back (options : List TableOption) {x : Tree}
    (member : x ∈ leafOf table.rparen :: (options.map TableOption.tree ++ table.tail)) :
    Plain x ∨ x.getType = .tCreateTableOptions ∨ x.getType = .tSelectStatement := by
  simp only [List.mem_cons, List.mem_append, List.mem_map] at member
  rcases member with rfl | ⟨option, -, rfl⟩ | member
  · exact Or.inl (plain_leafOf table.rparen (by decide))
  · exact Or.inr (Or.inl rfl)
  · exact (table.mem_tail member).imp id Or.inr

theorem back_clear {lookfor : TokenType} (imaginary : lookfor.isImaginary = true)
    (noOption : lookfor ≠ .tCreateTableOptions) (noSelect : lookfor ≠ .tSelectStatement) :
    ∀ x ∈ leafOf table.rparen :: (options.map TableOption.tree ++ table.tail),
      hasType lookfor x = false := by
  intro x member
  rcases table.mem_back options member with plain | option | select
  · exact hasType_of_imaginary plain.1 imaginary
  · simpa [hasType, option] using noOption.symm
  · simpa [hasType, select] using noSelect.symm

theorem constraintTrees_clear {lookfor : TokenType} (imaginary : lookfor.isImaginary = true)
    (clear : ∀ pair ∈ constraints, ∀ x ∈ pair.2.trees, hasType lookfor x = false) :
    ∀ x ∈ constraintTrees constraints, hasType lookfor x = false := by
  intro x member
  obtain ⟨⟨comma, constraint⟩, own, member⟩ := List.mem_flatMap.mp member
  rcases List.mem_cons.mp member with rfl | member
  · exact hasType_of_imaginary (plain_leafOf comma (by decide)).1 imaginary
  · exact clear (comma, constraint) own x member

/-- No constraint tree is a column definition, an option or a select statement. -/
theorem constraintTrees_others (constraints : List (TokenIn [.comma] × Constraint))
    {k : TokenType} (imaginary : k.isImaginary = true) (noIndex : k ≠ .tCreateTableIndex)
    (noFulltext : k ≠ .tCreateTableFulltextIndex) (noFkey : k ≠ .tCreateTableFkey) :
    ∀ x ∈ constraintTrees constraints, hasType k x = false := by
  refine constraintTrees_clear imaginary fun pair _ x member => ?_
  rcases pair.2.getType_trees member with plain | ⟨-, own⟩ | ⟨-, own⟩ | ⟨-, own⟩
  · exact hasType_of_imaginary plain.1 imaginary
  · simpa [hasType, own] using noIndex.symm
  · simpa [hasType, own] using noFulltext.symm
  · simpa [hasType, own] using noFkey.symm

theorem tail_noOption : ∀ x ∈ table.tail, hasType .tCreateTableOptions x = false := by
  intro x member
  rcases table.mem_tail member with plain | select
  · exact hasType_of_imaginary plain.1 rfl
  · simp [hasType, select]

theorem rparen_noOption : hasType .tCreateTableOptions (leafOf table.rparen) = false :=
  hasType_leafOf table.rparen (by decide)

/-! ## The columns of a layout -/

private theorem map_of_clear {p : Tree → Bool} {g : Tree → Tree} {l : List Tree}
    (clear : ∀ x ∈ l, p x = false) : l.map (fun x => if p x then g x else x) = l := by
  rw [List.map_congr_left (g := id) fun x member => by simp [clear x member], List.map_id]

theorem filter_of_clear {p : Tree → Bool} {l : List Tree} (clear : ∀ x ∈ l, p x = false) :
    l.filter p = [] :=
  List.filter_eq_nil_iff.mpr fun x member => by simp [clear x member]

private theorem qualifier_clear {lookfor : TokenType} (imaginary : lookfor.isImaginary = true) :
    ∀ x ∈ table.qualifierTrees, hasType lookfor x = false :=
  fun _ member => hasType_of_imaginary (table.mem_qualifierTrees member) imaginary

private theorem header_clear {lookfor : TokenType} (imaginary : lookfor.isImaginary = true) :
    ∀ x ∈ table.header.map leafOf, hasType lookfor x = false := by
  intro x member
  obtain ⟨token, -, rfl⟩ := List.mem_map.mp member
  exact hasType_of_imaginary (plain_leafOf token (by decide)).1 imaginary

private theorem hit_column (typed : table.Typed column) {columnDef : ColumnDef}
    (member : columnDef ∈ table.columnDefs) :
    hasType .tCreateTableColumnDef (column columnDef) = true := by
  simp [hasType, typed columnDef member]

/-- Of a comma and a column the column is a hit. -/
private theorem hit_pair (typed : table.Typed column) {pair : TokenIn [.comma] × ColumnDef}
    (own : pair ∈ table.columns) :
    hasType .tCreateTableColumnDef (leafOf pair.1) = false ∧
      hasType .tCreateTableColumnDef (column pair.2) = true := by
  constructor
  · exact hasType_leafOf pair.1 (by decide)
  · exact table.hit_column typed
      (List.mem_cons_of_mem _ (List.mem_map_of_mem (f := Prod.snd) own))

theorem front_eq (column : ColumnDef → Tree) :
    table.front column = table.header.map leafOf ++ table.qualifierTrees ++
      leafOf table.name :: leafOf table.lparen :: column table.first ::
        table.columns.flatMap fun pair => [leafOf pair.1, column pair.2] := rfl

private theorem front_map (typed : table.Typed column) (g : Tree → Tree) :
    (table.front column).map (fun x => if hasType .tCreateTableColumnDef x then g x else x) =
      table.front fun columnDef => g (column columnDef) := by
  have first := table.hit_column typed List.mem_cons_self
  have later : (table.columns.flatMap fun pair => [leafOf pair.1, column pair.2]).map
        (fun x => if hasType .tCreateTableColumnDef x then g x else x) =
      table.columns.flatMap fun pair => [leafOf pair.1, g (column pair.2)] := by
    rw [List.map_flatMap]
    refine List.flatMap_congr fun pair own => ?_
    have hits := table.hit_pair typed own
    simp [hits.1, hits.2]
  have name := hasType_leafOf table.name (k := .tCreateTableColumnDef) (by decide)
  have lparen := hasType_leafOf table.lparen (k := .tCreateTableColumnDef) (by decide)
  rw [front_eq, List.map_append, List.map_append, map_of_clear (table.header_clear rfl),
    map_of_clear (table.qualifier_clear rfl)]
  simp only [List.map_cons, first, name, lparen, later, ↓reduceIte, Bool.false_eq_true]
  rfl

private theorem front_filter (typed : table.Typed column) :
    (table.front column).filter (hasType .tCreateTableColumnDef) =
      table.columnDefs.map column := by
  have first := table.hit_column typed List.mem_cons_self
  have later : (table.columns.flatMap fun pair => [leafOf pair.1, column pair.2]).filter
        (hasType .tCreateTableColumnDef) =
      (table.columns.map Prod.snd).map column := by
    rw [List.filter_flatMap, List.map_map, ← List.flatMap_singleton' (table.columns.map _),
      List.flatMap_map]
    refine List.flatMap_congr fun pair own => ?_
    have hits := table.hit_pair typed own
    simp [hits.1, hits.2]
  have name := hasType_leafOf table.name (k := .tCreateTableColumnDef) (by decide)
  have lparen := hasType_leafOf table.lparen (k := .tCreateTableColumnDef) (by decide)
  rw [front_eq, List.filter_append, List.filter_append, filter_of_clear (table.header_clear rfl),
    filter_of_clear (table.qualifier_clear rfl)]
  simp only [List.filter_cons, first, name, lparen, later, ↓reduceIte, Bool.false_eq_true,
    columnDefs, List.map_cons, List.append_nil, List.nil_append]

/-- Rewriting the column definitions of a layout rewrites what stands for a column. -/
theorem layout_map (typed : table.Typed column) (g : Tree → Tree) :
    (table.layout column constraints options).map
        (fun x => if hasType .tCreateTableColumnDef x then g x else x) =
      table.layout (fun columnDef => g (column columnDef)) constraints options := by
  rw [layout, List.map_append, List.map_append, table.front_map typed,
    map_of_clear (constraintTrees_others _ rfl (by decide) (by decide) (by decide)),
    map_of_clear (table.back_clear rfl (by decide) (by decide))]
  rfl

/-- The column definitions of a layout, in order. -/
theorem layout_filter (typed : table.Typed column) :
    (table.layout column constraints options).filter (hasType .tCreateTableColumnDef) =
      table.columnDefs.map column := by
  rw [layout, List.filter_append, List.filter_append, table.front_filter typed,
    filter_of_clear (constraintTrees_others _ rfl (by decide) (by decide) (by decide)),
    filter_of_clear (table.back_clear rfl (by decide) (by decide))]
  simp

theorem mem_layout_column (typed : table.Typed column) {x : Tree}
    (member : x ∈ table.layout column constraints options)
    (hit : hasType .tCreateTableColumnDef x = true) :
    ∃ columnDef ∈ table.columnDefs, column columnDef = x := by
  have kept : x ∈ (table.layout column constraints options).filter
      (hasType .tCreateTableColumnDef) := List.mem_filter.mpr ⟨member, hit⟩
  rw [table.layout_filter typed] at kept
  exact List.mem_map.mp kept

/-! ## The first identifier -/

theorem createTableTablename_layout :
    createTableTablename (table.layout column constraints options) = some table.tablename := by
  have header : ∀ x ∈ table.header.map leafOf, hasType .id x = false := by
    intro x member
    obtain ⟨token, -, rfl⟩ := List.mem_map.mp member
    exact hasType_leafOf token (by decide)
  have name : hasType .id (leafOf table.name) = true := by
    simpa [hasType] using table.name.2
  have skip : ((table.header.map leafOf).find? (hasType .id)) = none :=
    List.find?_eq_none.mpr fun x member => by simp [header x member]
  simp only [createTableTablename, layout, front, List.append_assoc, List.find?_append, skip,
    Option.none_or]
  cases present : table.qualifier with
  | none =>
    simp only [qualifierTrees, present, Option.elim_none, List.find?_nil, Option.none_or,
      List.find?_cons, name, tablename]
    rfl
  | some qualifier =>
    obtain ⟨schema, dot⟩ := qualifier
    have noDot := hasType_leafOf dot (k := .id) (by decide)
    simp only [qualifierTrees, present, Option.elim_some, List.find?_cons, noDot, List.find?_nil,
      name, tablename]
    by_cases isId : schema.1.type = .id
    · have hit : hasType .id (Tree.leaf schema.1) = true := by simp [hasType, isId]
      simp [hit, isId]
    · have miss : hasType .id (Tree.leaf schema.1) = false := by simpa [hasType] using isId
      simp only [miss, Option.none_or, isId, ↓reduceIte]
      rfl

end CreateTable

end Pgify.Model
