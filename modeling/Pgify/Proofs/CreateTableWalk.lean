import Pgify.Proofs.CreateTable
import Pgify.Proofs.CreateTableLike

/-! # The walk below CREATE TABLE

Before the worker of a CREATE TABLE runs, everything below its children has been walked. That walk
gives the children of another CREATE TABLE: the same elements over walked expressions and clauses.
-/

namespace Pgify.Model

/-! ## Types survive every worker -/

private theorem createTableWorker_type {ws ws' : WalkerState} {x y : Tree}
    (run : createTableWorker ws x = some (ws', y)) : y.getType = x.getType := by
  simp only [createTableWorker, Option.bind_eq_bind, Option.bind_eq_some_iff] at run
  obtain ⟨_, _, _, _, _, _, _, _, _, _, _, _, _, _, _, _, same⟩ := run
  cases same
  rfl

theorem dispatch_type {rt : Runtime} {ws ws' : WalkerState} {x y : Tree}
    (run : dispatch rt ws x = some (ws', y)) : y.getType = x.getType := by
  rw [dispatch] at run
  split at run
  · exact createTableWorker_type run
  · cases run; rfl
  · cases run; simp [lockTablesWorker]
  · obtain ⟨_, -, same⟩ := Option.map_eq_some_iff.mp run
    cases same; rfl
  · obtain ⟨_, -, same⟩ := Option.map_eq_some_iff.mp run
    cases same; rfl
  · obtain ⟨_, -, same⟩ := Option.map_eq_some_iff.mp run
    cases same; rfl
  · obtain ⟨_, -, same⟩ := Option.map_eq_some_iff.mp run
    cases same; rfl
  · cases run; simp [rewriteFoundRows]
  · cases run; rfl

theorem walkChild_type {rt : Runtime} {ws ws' : WalkerState} {x y : Tree}
    (run : walkChild rt ws x = some (ws', y)) : y.getType = x.getType := by
  cases x with
  | node token children =>
    rw [walkChild_node] at run
    obtain ⟨⟨ws₁, children'⟩, -, run⟩ := Option.bind_eq_some_iff.mp run
    have type := dispatch_type (x := .node token children') run
    exact type

@[simp] theorem getType_walkedTree (rt : Runtime) (ws : WalkerState) (x : Tree) :
    (walkedTree rt ws x).getType = x.getType := by
  rw [walkedTree]
  cases run : walkChild rt ws x with
  | none => rfl
  | some walked => exact walkChild_type run

theorem walkChildren_types {rt : Runtime} {ws ws' : WalkerState} {l l' : List Tree}
    (run : walkChildren rt ws l = some (ws', l')) : l'.map Tree.getType = l.map Tree.getType := by
  induction l generalizing ws ws' l' with
  | nil =>
    rw [walkChildren_nil] at run
    cases run
    rfl
  | cons child rest ih =>
    rw [walkChildren_cons] at run
    obtain ⟨⟨ws₁, child'⟩, first, run⟩ := Option.bind_eq_some_iff.mp run
    obtain ⟨⟨ws₂, rest'⟩, later, same⟩ := Option.map_eq_some_iff.mp run
    cases same
    rw [List.map_cons, List.map_cons, walkChild_type first, ih later]

/-- The children of a node that no worker handles keep their types. -/
theorem walkedTree_children_types (rt : Runtime) (ws : WalkerState) {x : Tree}
    (inert : x.getType.isInert = true) :
    (walkedTree rt ws x).children.map Tree.getType = x.children.map Tree.getType := by
  cases x with
  | node token children =>
    rw [walkedTree, walkChild_inert rt ws inert]
    cases run : walkChildren rt ws children with
    | none => rfl
    | some walked => exact walkChildren_types run

/-! ## Trees of inert nodes -/

/-- The walk leaves the tree as it is. -/
structure Still (x : Tree) : Prop where
  walkable : Walkable x
  walked : ∀ rt ws, walkedTree rt ws x = x

theorem walkedTree_node (rt : Runtime) (ws : WalkerState) {token : Option Token}
    {children : List Tree} (inert : (Tree.node token children).getType.isInert = true)
    (below : ∀ x ∈ children, Walkable x) :
    walkedTree rt ws (.node token children) = .node token (children.map (walkedTree rt ws)) := by
  rw [walkedTree, walkChild_inert rt ws inert,
    walkChildren_of_walked fun x member => ((below x member).walks rt ws).1]
  rfl

theorem Still.node {token : Option Token} {children : List Tree}
    (inert : (Tree.node token children).getType.isInert = true)
    (below : ∀ x ∈ children, Still x) : Still (.node token children) where
  walkable := .inert inert fun x member => (below x member).walkable
  walked rt ws := by
    rw [walkedTree_node rt ws inert fun x member => (below x member).walkable,
      List.map_congr_left (g := id) fun x member => (below x member).walked rt ws, List.map_id]

theorem still_leaf {token : Token} (inert : token.type.isInert = true) : Still (.leaf token) :=
  .node inert (by simp)

theorem still_leafOf {types : List TokenType} (token : TokenIn types)
    (inert : ∀ type ∈ types, type.isInert = true) : Still (leafOf token) :=
  still_leaf (inert token.1.type token.2)

theorem map_walkedTree_of_still {rt : Runtime} {ws : WalkerState} {l : List Tree}
    (still : ∀ x ∈ l, Still x) : l.map (walkedTree rt ws) = l := by
  rw [List.map_congr_left (g := id) fun x member => (still x member).walked rt ws, List.map_id]

/-! ## CREATE TABLE -/

/-- A column definition with its parts walked. -/
def ColumnDef.walked (rt : Runtime) (ws : WalkerState) (columnDef : ColumnDef) : ColumnDef where
  name := columnDef.name
  parts := columnDef.parts.map (walkedTree rt ws)
  enums := by
    intro part member isEnum
    obtain ⟨original, own, rfl⟩ := List.mem_map.mp member
    have type : original.getType = .tCreateTableEnum := by simpa [hasType] using isEnum
    have types := walkedTree_children_types rt ws (x := original) (by rw [type]; rfl)
    have moved {k : TokenType} (present : ∃ child ∈ original.children, hasType k child = true) :
        ∃ child ∈ (walkedTree rt ws original).children, hasType k child = true := by
      obtain ⟨child, below, hit⟩ := present
      have typeMem : k ∈ (walkedTree rt ws original).children.map Tree.getType := by
        rw [types]
        exact List.mem_map.mpr ⟨child, below, by simpa [hasType] using hit⟩
      obtain ⟨walked, there, same⟩ := List.mem_map.mp typeMem
      exact ⟨walked, there, by simpa [hasType] using same⟩
    obtain ⟨⟨keyword, below, hit⟩, rparen⟩ := columnDef.enums original own (by simp [hasType, type])
    refine ⟨?_, moved rparen⟩
    rcases hit with isEnum | isSet
    · obtain ⟨walked, there, same⟩ := moved ⟨keyword, below, isEnum⟩
      exact ⟨walked, there, Or.inl same⟩
    · obtain ⟨walked, there, same⟩ := moved ⟨keyword, below, isSet⟩
      exact ⟨walked, there, Or.inr same⟩

def TableOption.walked (rt : Runtime) (ws : WalkerState) (option : TableOption) : TableOption :=
  ⟨option.1.map (walkedTree rt ws), by simpa using option.2⟩

def walkedSelect (rt : Runtime) (ws : WalkerState)
    (select : { tree : Tree // tree.getType = .tSelectStatement }) :
    { tree : Tree // tree.getType = .tSelectStatement } :=
  ⟨walkedTree rt ws select.1, by simpa using select.2⟩

theorem map_walkedTree_options {rt : Runtime} {ws : WalkerState} {options : List TableOption}
    (built : ∀ option ∈ options, ∀ x ∈ option.1, Walkable x) :
    (options.map TableOption.tree).map (walkedTree rt ws) =
      (options.map (TableOption.walked rt ws)).map TableOption.tree := by
  rw [List.map_map, List.map_map]
  exact List.map_congr_left fun option member => walkedTree_node rt ws rfl (built option member)

theorem walkable_options {options : List TableOption}
    (built : ∀ option ∈ options, ∀ x ∈ option.1, Walkable x) :
    ∀ x ∈ options.map TableOption.tree, Walkable x := by
  intro x member
  obtain ⟨option, own, rfl⟩ := List.mem_map.mp member
  exact .inert rfl (built option own)

/-- An optional leaf stays as it is. -/
theorem still_optional {types : List TokenType} (token : Option (TokenIn types))
    (inert : ∀ type ∈ types, type.isInert = true) :
    ∀ x ∈ (token.map leafOf).toList, Still x := by
  intro x member
  obtain ⟨token, -, rfl⟩ := Option.map_eq_some_iff.mp (Option.mem_toList.mp member)
  exact still_leafOf token inert

section Tail

variable {as : Option (TokenIn [.kAs])}
  {select : Option { tree : Tree // tree.getType = .tSelectStatement }}
  {semi : Option (TokenIn [.semi])}

theorem walkable_tail (built : ∀ tree ∈ select, Walkable tree.1) :
    ∀ x ∈ (as.map leafOf).toList ++ (select.map Subtype.val).toList ++ (semi.map leafOf).toList,
      Walkable x := by
  intro x member
  rcases List.mem_append.mp member with member | member
  · rcases List.mem_append.mp member with member | member
    · exact (still_optional as (by decide) x member).walkable
    · obtain ⟨tree, own, rfl⟩ := Option.map_eq_some_iff.mp (Option.mem_toList.mp member)
      exact built tree own
  · exact (still_optional semi (by decide) x member).walkable

theorem map_walkedTree_tail (rt : Runtime) (ws : WalkerState) :
    ((as.map leafOf).toList ++ (select.map Subtype.val).toList ++
        (semi.map leafOf).toList).map (walkedTree rt ws) =
      (as.map leafOf).toList ++ ((select.map (walkedSelect rt ws)).map Subtype.val).toList ++
        (semi.map leafOf).toList := by
  rw [List.map_append, List.map_append, map_walkedTree_of_still (still_optional as (by decide)),
    map_walkedTree_of_still (still_optional semi (by decide))]
  cases select <;> rfl

end Tail

namespace CreateTable

variable (rt : Runtime) (ws : WalkerState) (table : CreateTable)

/-- The statement with everything below its elements walked. -/
def walked : CreateTable :=
  { table with
    first := table.first.walked rt ws
    columns := table.columns.map fun (comma, columnDef) => (comma, columnDef.walked rt ws)
    options := table.options.map (TableOption.walked rt ws)
    select := table.select.map (walkedSelect rt ws) }

variable {table} (built : table.Built)

private theorem still_header : ∀ x ∈ table.header.map leafOf, Still x := by
  intro x member
  obtain ⟨token, -, rfl⟩ := List.mem_map.mp member
  exact still_leafOf token (by decide)

private theorem still_keyColumns (columns : KeyColumns) : ∀ x ∈ columns.trees, Still x := by
  intro x member
  have column (column : KeyColumn) : ∀ x ∈ column.trees, Still x := by
    intro x member
    rcases List.mem_cons.mp member with rfl | order
    · exact still_leafOf column.name (by decide)
    · exact still_optional column.order (by decide) x order
  simp only [KeyColumns.trees, List.cons_append, List.mem_cons, List.mem_append,
    List.mem_flatMap, List.not_mem_nil, or_false] at member
  rcases member with rfl | (first | ⟨⟨comma, other⟩, -, rfl | own⟩) | rfl
  · exact still_leafOf columns.lparen (by decide)
  · exact column columns.first x first
  · exact still_leafOf comma (by decide)
  · exact column other x own
  · exact still_leafOf columns.rparen (by decide)

private theorem still_indexType (indexType : IndexType) : ∀ x ∈ indexType.trees, Still x := by
  intro x member
  simp only [IndexType.trees, List.mem_cons, List.not_mem_nil, or_false] at member
  rcases member with rfl | rfl
  · exact still_leafOf indexType.using' (by decide)
  · obtain ⟨code, type⟩ := indexType.method.2
    exact still_leaf (by rw [type]; rfl)

private theorem still_indexKey (key : IndexKey) : Still key.tree := by
  have usings (indexType : Option IndexType) :
      ∀ x ∈ (indexType.map IndexType.trees).getD [], Still x := by
    intro x member
    cases indexType with
    | none => simp at member
    | some indexType => exact still_indexType indexType x member
  refine .node rfl fun x member => ?_
  simp only [IndexKey.children, List.mem_append] at member
  rcases member with ((name | before) | columns) | after
  · exact still_optional key.name (by decide) x name
  · exact usings key.typeBefore x before
  · exact still_keyColumns key.columns x columns
  · exact usings key.typeAfter x after

private theorem still_constraint {constraint : Constraint}
    (tokens : ∀ token ∈ constraint.tokens, token.type.isInert = true) :
    ∀ x ∈ constraint.trees, Still x := by
  intro x member
  have leaves {l : List Token} (own : ∀ token ∈ l, token.type.isInert = true) :
      ∀ x ∈ l.map Tree.leaf, Still x := by
    intro x member
    obtain ⟨token, there, rfl⟩ := List.mem_map.mp member
    exact still_leaf (own token there)
  cases constraint with
  | primaryKey primary key columns =>
    simp only [Constraint.trees, List.mem_cons] at member
    rcases member with rfl | rfl | own
    · exact still_leafOf primary (by decide)
    · exact still_leafOf key (by decide)
    · exact still_keyColumns columns x own
  | uniqueKey unique columns =>
    rcases List.mem_cons.mp member with rfl | own
    · exact still_leafOf unique (by decide)
    · exact still_keyColumns columns x own
  | index key =>
    obtain rfl := List.mem_singleton.mp member
    exact still_indexKey key
  | fulltext l =>
    obtain rfl := List.mem_singleton.mp member
    exact .node rfl (leaves tokens)
  | fkey l =>
    obtain rfl := List.mem_singleton.mp member
    exact .node rfl (leaves tokens)

include built in
private theorem still_constraints : ∀ x ∈ constraintTrees table.constraints, Still x := by
  intro x member
  obtain ⟨pair, own, member⟩ := List.mem_flatMap.mp member
  rcases List.mem_cons.mp member with rfl | member
  · exact still_leafOf pair.1 (by decide)
  · exact still_constraint (built.tokens pair own) x member

include built in
private theorem still_qualifier : ∀ x ∈ table.qualifierTrees, Still x := by
  intro x member
  obtain ⟨schema, dot, present, rfl | rfl⟩ := mem_qualifier member
  · exact still_leaf (built.schema schema dot present)
  · exact still_leafOf dot (by decide)

private theorem walkable_column {columnDef : ColumnDef}
    (parts : ∀ x ∈ columnDef.parts, Walkable x) : Walkable columnDef.tree := by
  refine .inert rfl fun x member => ?_
  rcases List.mem_cons.mp member with rfl | own
  · exact (still_leafOf columnDef.name (by decide)).walkable
  · exact parts x own

private theorem walkedTree_column {columnDef : ColumnDef}
    (parts : ∀ x ∈ columnDef.parts, Walkable x) :
    walkedTree rt ws columnDef.tree = (columnDef.walked rt ws).tree := by
  have below : ∀ x ∈ leafOf columnDef.name :: columnDef.parts, Walkable x := by
    intro x member
    rcases List.mem_cons.mp member with rfl | own
    · exact (still_leafOf columnDef.name (by decide)).walkable
    · exact parts x own
  have name := (still_leafOf columnDef.name (by decide)).walked rt ws
  rw [ColumnDef.tree, rooted, walkedTree_node rt ws rfl below, List.map_cons, name]
  rfl

include built in
private theorem walkable_front : ∀ x ∈ table.front ColumnDef.tree, Walkable x := by
  intro x member
  simp only [front, List.append_assoc, List.mem_append, List.mem_cons, List.mem_flatMap] at member
  rcases member with header | qualifier | rfl | rfl | rfl | ⟨pair, own, member⟩
  · exact (still_header x header).walkable
  · exact (still_qualifier built x qualifier).walkable
  · exact (still_leafOf table.name (by decide)).walkable
  · exact (still_leafOf table.lparen (by decide)).walkable
  · exact walkable_column (built.parts table.first List.mem_cons_self)
  · simp only [List.not_mem_nil, or_false] at member
    rcases member with rfl | rfl
    · exact (still_leafOf pair.1 (by decide)).walkable
    · exact walkable_column
        (built.parts pair.2 (List.mem_cons_of_mem _ (List.mem_map_of_mem (f := Prod.snd) own)))

include built in
theorem walkable_children : ∀ x ∈ table.children, Walkable x := by
  intro x member
  simp only [children, layout, List.mem_append, List.mem_cons] at member
  rcases member with (front | constraints) | rfl | options | tail
  · exact walkable_front built x front
  · exact (still_constraints built x constraints).walkable
  · exact (still_leafOf table.rparen (by decide)).walkable
  · exact walkable_options built.options x options
  · exact walkable_tail built.select x tail

include built in
private theorem map_walkedTree_front :
    (table.front ColumnDef.tree).map (walkedTree rt ws) =
      (table.walked rt ws).front ColumnDef.tree := by
  have columns : (table.columns.flatMap fun (comma, columnDef) =>
        [leafOf comma, columnDef.tree]).map (walkedTree rt ws) =
      (table.columns.map fun (comma, columnDef) =>
        (comma, columnDef.walked rt ws)).flatMap fun (comma, columnDef) =>
          [leafOf comma, columnDef.tree] := by
    rw [List.map_flatMap, List.flatMap_map]
    refine List.flatMap_congr fun pair own => ?_
    have comma := (still_leafOf pair.1 (by decide)).walked rt ws
    have column := walkedTree_column rt ws (built.parts pair.2
      (List.mem_cons_of_mem _ (List.mem_map_of_mem (f := Prod.snd) own)))
    simp only [List.map_cons, List.map_nil, comma, column]
  have name := (still_leafOf table.name (by decide)).walked rt ws
  have lparen := (still_leafOf table.lparen (by decide)).walked rt ws
  have first := walkedTree_column rt ws (built.parts table.first List.mem_cons_self)
  simp only [front, List.map_append, List.map_cons, map_walkedTree_of_still still_header,
    map_walkedTree_of_still (still_qualifier built), name, lparen, first, columns]
  rfl

include built in
theorem map_walkedTree_children :
    table.children.map (walkedTree rt ws) = (table.walked rt ws).children := by
  have rparen := (still_leafOf table.rparen (by decide)).walked rt ws
  have tail : table.tail.map (walkedTree rt ws) = (table.walked rt ws).tail :=
    map_walkedTree_tail rt ws
  simp only [children, layout, List.map_append, List.map_cons, map_walkedTree_front rt ws built,
    map_walkedTree_of_still (still_constraints built), rparen,
    map_walkedTree_options built.options, tail]
  rfl

/-- The walk leaves a statement without options and without a SELECT alone, if it does so with the
parts of its columns. -/
theorem walked_of_still (parts : ∀ columnDef ∈ table.columnDefs, ∀ x ∈ columnDef.parts, Still x)
    (options : table.options = []) (select : table.select = none) :
    table.walked rt ws = table := by
  have column : ∀ columnDef ∈ table.columnDefs, columnDef.walked rt ws = columnDef := by
    rintro ⟨name, columnParts, enums⟩ member
    have same : columnParts.map (walkedTree rt ws) = columnParts :=
      map_walkedTree_of_still (parts _ member)
    simpa only [ColumnDef.walked, ColumnDef.mk.injEq, true_and] using same
  have first := column table.first List.mem_cons_self
  have columns : table.columns.map (fun (comma, columnDef) => (comma, columnDef.walked rt ws)) =
      table.columns := by
    refine (List.map_congr_left (g := id) fun pair own => ?_).trans (List.map_id _)
    have member : pair.2 ∈ table.columnDefs :=
      List.mem_cons_of_mem _ (List.mem_map_of_mem (f := Prod.snd) own)
    exact Prod.ext rfl (column pair.2 member)
  rw [walked, first, columns, options, select]
  cases table
  cases options
  cases select
  rfl

end CreateTable

end Pgify.Model
