import Pgify.Lib.AdjacentPairs
import Pgify.Proofs.CreateTableLayout

/-! # The passes over the column definitions

One lemma for each pass that visits the column definitions: it takes a layout to a layout with other
trees for the columns, and appends the statements of its kind. Every pass leaves the name of a
column in front, where the passes behind it look for it.
-/

namespace Pgify.Model

open SearchLoop

/-- The head of a list is not changed by a change behind it. -/
private theorem head?_of_hit {α : Type*} {p : α → Bool} {head : α} {before rest l : List α}
    {x : α} (own : (before ++ x :: rest).head? = some head) (miss : p head = false)
    (hit : p x = true) : (before ++ l).head? = some head := by
  cases before with
  | nil =>
    obtain rfl := Option.some.inj own
    rw [hit] at miss
    contradiction
  | cons first before => simpa using own

/-- The tree stands for the column definition: its name in front, and AUTO_INCREMENT where the
definition has it. -/
structure ColumnDef.Stands (columnDef : ColumnDef) (x : Tree) : Prop where
  type : x.getType = .tCreateTableColumnDef
  name : x.children.head? = some (leafOf columnDef.name)
  autoIncrement : x.children.any (hasType .kAutoIncrement) = columnDef.isAutoIncrement

namespace CreateTable

variable (table : CreateTable) {column : ColumnDef → Tree}
  {constraints : List (TokenIn [.comma] × Constraint)} {options : List TableOption}

def AllStand (column : ColumnDef → Tree) : Prop :=
  ∀ columnDef ∈ table.columnDefs, columnDef.Stands (column columnDef)

variable {table}

theorem AllStand.typed (stand : table.AllStand column) : table.Typed column :=
  fun columnDef member => (stand columnDef member).type

/-- A loop that visits each column definition. -/
theorem columns_pass
    {body : ℕ → WalkerState → List Tree → Option (ℕ × WalkerState × List Tree)}
    {f : WalkerState → Tree → Option (WalkerState × Tree)} {g : Tree → Tree}
    {h : WalkerState → Tree → WalkerState} {I : List Tree → Prop}
    (step : ∀ ws before x rest, I (before ++ x :: rest) →
      hasType .tCreateTableColumnDef x = true → body before.length ws (before ++ x :: rest) =
        (f ws x).map fun (ws', x') => (before.length + 1, ws', before ++ x' :: rest))
    (keep : ∀ ws ws' before x x' rest, I (before ++ x :: rest) →
      hasType .tCreateTableColumnDef x = true → f ws x = some (ws', x') →
      I (before ++ x' :: rest))
    (ws : WalkerState) (typed : table.Typed column)
    (start : I (table.layout column constraints options))
    (visit : ∀ ws, ∀ columnDef ∈ table.columnDefs,
      f ws (column columnDef) = some (h ws (column columnDef), g (column columnDef))) :
    whileFound .tCreateTableColumnDef body ws (table.layout column constraints options) =
      some ((table.columnDefs.map column).foldl h ws,
        table.layout (fun columnDef => g (column columnDef)) constraints options) := by
  rw [whileFound, searchLoop_visit step keep ws _ start (Nat.lt_succ_self _),
    visitAll_eq_some ws _ fun ws x member hit => ?_, table.layout_filter typed,
    table.layout_map typed]
  obtain ⟨columnDef, own, rfl⟩ := table.mem_layout_column typed member hit
  exact visit ws columnDef own

end CreateTable

/-! ## ENUM and SET -/

private theorem rewriteEnumNode_isSome (name : String) (part : Tree)
    (keyword : ∃ child ∈ part.children, hasType .kEnum child = true ∨ hasType .kSet child = true)
    (rparen : ∃ child ∈ part.children, hasType .rparen child = true) :
    ∃ node, rewriteEnumNode name part = some node ∧ node.getType = part.getType := by
  obtain ⟨pos, child, position, present⟩ : ∃ pos child,
      (lookAheadIndex part.children 0 .kEnum).or (lookAheadIndex part.children 0 .kSet) =
        some pos ∧ part.children[pos]? = some child := by
    by_cases isEnum : ∃ child ∈ part.children, hasType .kEnum child = true
    · obtain ⟨pos, child, found, present, -⟩ := lookAheadIndex_eq_some isEnum
      exact ⟨pos, child, by simp [found], present⟩
    · have isSet : ∃ child ∈ part.children, hasType .kSet child = true := by
        obtain ⟨child, member, hit⟩ := keyword
        exact ⟨child, member, hit.resolve_left fun hit => isEnum ⟨child, member, hit⟩⟩
      obtain ⟨pos, child, found, present, -⟩ := lookAheadIndex_eq_some isSet
      have noEnum := lookAheadIndex_eq_none (k := .kEnum) (l := part.children)
        fun x member => Bool.eq_false_iff.mpr fun hit => isEnum ⟨x, member, hit⟩
      exact ⟨pos, child, by simp [noEnum, found], present⟩
  -- Retexting the keyword does not move the parenthesis.
  have kept : ∃ x ∈ part.children.set pos (child.setText s!"text CHECK ( {name} IN "),
      hasType .rparen x = true := by
    obtain ⟨x, member, hit⟩ := rparen
    obtain ⟨bound, value⟩ := List.getElem?_eq_some_iff.mp present
    obtain ⟨i, inside, rfl⟩ := List.mem_iff_getElem.mp member
    by_cases same : i = pos
    · subst same
      refine ⟨_, List.mem_set bound _, ?_⟩
      simpa [hasType, ← value] using hit
    · refine ⟨part.children[i], List.mem_iff_getElem.mpr ⟨i, by simpa using inside, ?_⟩, hit⟩
      rw [List.getElem_set_ne (Ne.symm same)]
  obtain ⟨paren, rtree, found, presentParen, -⟩ := lookAheadIndex_eq_some kept
  refine ⟨part.withChildren (part.children.set pos (child.setText s!"text CHECK ( {name} IN ") ++
    [rtree]), ?_, Tree.getType_withChildren part _⟩
  simp [rewriteEnumNode, position, present, found, presentParen]

/-- The text of the first child. -/
private def columnName (x : Tree) : String :=
  (x.children.head?.map Tree.getText).getD ""

private theorem ColumnDef.Stands.columnName {columnDef : ColumnDef} {x : Tree}
    (stands : columnDef.Stands x) : columnName x = columnDef.name.1.text := by
  rw [Model.columnName, stands.name]
  rfl

/-- A column definition with its ENUM and SET nodes rewritten. -/
def enumColumn (x : Tree) : Tree :=
  x.withChildren (x.children.map fun part =>
    if hasType .tCreateTableEnum part then (rewriteEnumNode (columnName x) part).getD part
    else part)

private theorem getType_enumPart (columnDef : ColumnDef) (part : Tree)
    (member : part ∈ columnDef.parts) :
    (if hasType .tCreateTableEnum part then
      (rewriteEnumNode columnDef.name.1.text part).getD part else part).getType = part.getType := by
  split
  · obtain ⟨keyword, rparen⟩ := columnDef.enums part member ‹_›
    obtain ⟨node, rewritten, same⟩ :=
      rewriteEnumNode_isSome columnDef.name.1.text part keyword rparen
    simpa [rewritten] using same
  · rfl

theorem enumColumn_children (columnDef : ColumnDef) :
    (enumColumn columnDef.tree).children =
      leafOf columnDef.name :: columnDef.parts.map fun part =>
        if hasType .tCreateTableEnum part then
          (rewriteEnumNode columnDef.name.1.text part).getD part else part := by
  have name := hasType_leafOf columnDef.name (k := .tCreateTableEnum) (by decide)
  simp only [enumColumn, ColumnDef.tree, Tree.children_withChildren, children_rooted,
    List.map_cons, name, Bool.false_eq_true, ↓reduceIte]
  rfl

private theorem whileFound_enum (columnDef : ColumnDef) (ws : WalkerState) :
    whileFound .tCreateTableEnum (fun pos ws children => do
      let ntree ← children[0]?
      let tree ← children[pos]?
      let tree ← rewriteEnumNode ntree.getText tree
      some (pos + 1, ws, children.set pos tree)) ws columnDef.tree.children =
    some (ws, (enumColumn columnDef.tree).children) := by
  have noHit := hasType_leafOf columnDef.name (k := .tCreateTableEnum) (by decide)
  rw [whileFound, searchLoop_visit (I := fun l => l.head? = some (leafOf columnDef.name))
    (f := fun ws part => (rewriteEnumNode columnDef.name.1.text part).map fun part => (ws, part))
    ?_ ?_ ws _ rfl (Nat.lt_succ_self _)]
  · rw [visitAll_eq_some (h := fun ws _ => ws)
      (g := fun part => (rewriteEnumNode columnDef.name.1.text part).getD part) ws _ ?_]
    · rw [List.foldl_fixed]
      rfl
    · intro ws part member hit
      have own : part ∈ columnDef.parts := by
        rcases List.mem_cons.mp member with rfl | own
        · rw [noHit] at hit
          contradiction
        · exact own
      obtain ⟨keyword, rparen⟩ := columnDef.enums part own hit
      obtain ⟨node, rewritten, -⟩ :=
        rewriteEnumNode_isSome columnDef.name.1.text part keyword rparen
      simp [rewritten]
  · intro ws before x rest start hit
    have head : (before ++ x :: rest)[0]? = some (leafOf columnDef.name) := by
      rw [← List.head?_eq_getElem?, start]
    simp only [head, getElem?_here, Option.bind_eq_bind, Option.bind_some, set_here]
    change (rewriteEnumNode columnDef.name.1.text x).bind _ = _
    cases rewriteEnumNode columnDef.name.1.text x <;> rfl
  · intro ws ws' before x x' rest start hit _
    exact head?_of_hit (l := x' :: rest) start noHit hit

theorem createRewriteEnum_children (table : CreateTable) (ws : WalkerState) :
    createRewriteEnum ws table.children =
      some (ws, table.layout (fun columnDef => enumColumn columnDef.tree)
        table.constraints table.options) := by
  rw [createRewriteEnum, CreateTable.children, CreateTable.columns_pass (I := fun _ => True)
    (f := fun ws x => (whileFound .tCreateTableEnum (fun pos ws children => do
      let ntree ← children[0]?
      let tree ← children[pos]?
      let tree ← rewriteEnumNode ntree.getText tree
      some (pos + 1, ws, children.set pos tree)) ws x.children).map
        fun result => (result.1, x.withChildren result.2))
    (g := enumColumn) (h := fun ws _ => ws) ?_ ?_ ws table.typed_tree trivial ?_]
  · simp
  · intro ws before x rest _ _
    simp only [getElem?_here, Option.bind_eq_bind, Option.bind_some, set_here]
    generalize whileFound _ _ ws x.children = result
    cases result <;> rfl
  · intros
    trivial
  · intro ws columnDef _
    simp only [whileFound_enum columnDef ws, Option.map_some]
    rfl

theorem enumColumn_stands (columnDef : ColumnDef) :
    columnDef.Stands (enumColumn columnDef.tree) where
  type := rfl
  name := by rw [enumColumn_children]; rfl
  autoIncrement := by
    have name := hasType_leafOf columnDef.name (k := .kAutoIncrement) (by decide)
    rw [enumColumn_children, List.any_cons, name, Bool.false_or, List.any_map,
      ColumnDef.isAutoIncrement, Bool.eq_iff_iff, List.any_eq_true, List.any_eq_true]
    refine exists_congr fun part => and_congr_right fun member => ?_
    rw [Function.comp_apply]
    change (Tree.getType _ == _) = true ↔ (part.getType == _) = true
    rw [getType_enumPart columnDef part member]

/-! ## DOUBLE -/

theorem createRewriteDatatypes_cons {x : Tree} (other : x.getType ≠ .kDouble)
    (rest : List Tree) :
    createRewriteDatatypes (x :: rest) = x :: createRewriteDatatypes rest := by
  cases rest <;> simp [createRewriteDatatypes, other]

theorem createRewriteDatatypes_append {front : List Tree}
    (other : ∀ x ∈ front, x.getType ≠ .kDouble) (rest : List Tree) :
    createRewriteDatatypes (front ++ rest) = front ++ createRewriteDatatypes rest := by
  induction front with
  | nil => rfl
  | cons x front ih =>
    rw [List.cons_append, createRewriteDatatypes_cons (other x List.mem_cons_self),
      ih fun y member => other y (List.mem_cons_of_mem _ member)]
    rfl

theorem createRewriteDatatypes_of_clear {l : List Tree}
    (other : ∀ x ∈ l, x.getType ≠ .kDouble) : createRewriteDatatypes l = l := by
  have whole := createRewriteDatatypes_append other []
  simpa [createRewriteDatatypes] using whole

/-- A schema named DOUBLE gets the word that a type of that name misses. -/
def doubledSchema (schema : SqlIdentifier) : SqlIdentifier :=
  if schema.1.type = .kDouble then
    ⟨{ schema.1 with text := schema.1.text ++ " PRECISION " }, schema.2⟩ else schema

@[simp] theorem type_doubledSchema (schema : SqlIdentifier) :
    (doubledSchema schema).1.type = schema.1.type := by
  rw [doubledSchema]
  split <;> rfl

theorem doubledSchema_of_ne {schema : SqlIdentifier} (other : schema.1.type ≠ .kDouble) :
    doubledSchema schema = schema := if_neg other

theorem createRewriteDatatypes_qualifier (qualifier : Option (SqlIdentifier × TokenIn [.dot]))
    {rest : List Tree} (other : ∀ x ∈ rest, x.getType ≠ .kDouble) :
    createRewriteDatatypes
        (qualifier.elim [] (fun (schema, dot) => [.leaf schema.1, leafOf dot]) ++ rest) =
      (qualifier.map fun (schema, dot) => (doubledSchema schema, dot)).elim []
        (fun (schema, dot) => [.leaf schema.1, leafOf dot]) ++ rest := by
  cases qualifier with
  | none => exact createRewriteDatatypes_of_clear other
  | some qualifier =>
    obtain ⟨schema, dot⟩ := qualifier
    have dotType : dot.1.type = .dot := List.mem_singleton.mp dot.2
    have step : createRewriteDatatypes (.leaf schema.1 :: leafOf dot :: rest) =
        (if schema.1.type = .kDouble then
          (Tree.leaf schema.1).setText (schema.1.text ++ " PRECISION ") else .leaf schema.1) ::
            leafOf dot :: rest := by
      rw [createRewriteDatatypes, createRewriteDatatypes_cons (by simp [dotType]),
        createRewriteDatatypes_of_clear other]
      simp [dotType]
    refine step.trans ?_
    simp only [Option.map_some, Option.elim_some, doubledSchema]
    split <;> rfl

namespace CreateTable

variable (table : CreateTable) {column : ColumnDef → Tree}
  {constraints : List (TokenIn [.comma] × Constraint)} {options : List TableOption}

/-- The only DOUBLE among the children is a schema of that name. -/
def doubled : CreateTable :=
  { table with qualifier := table.qualifier.map fun (schema, dot) => (doubledSchema schema, dot) }

private theorem behind_qualifier (typed : table.Typed column)
    (constraints : List (TokenIn [.comma] × Constraint)) (options : List TableOption) :
    ∀ x ∈ leafOf table.name :: leafOf table.lparen :: column table.first ::
        (table.columns.flatMap (fun (comma, columnDef) => [leafOf comma, column columnDef]) ++
          (constraintTrees constraints ++
            leafOf table.rparen :: (options.map TableOption.tree ++ table.tail))),
      x.getType ≠ .kDouble := by
  intro x member
  simp only [List.mem_cons, List.mem_append, List.mem_flatMap, constraintTrees] at member
  rcases member with rfl | rfl | rfl | ⟨⟨comma, def'⟩, own, member⟩ |
    ⟨⟨comma, constraint⟩, -, member⟩ | member
  · exact (plain_leafOf table.name (by decide)).2
  · exact (plain_leafOf table.lparen (by decide)).2
  · simp [typed table.first List.mem_cons_self]
  · simp only [List.not_mem_nil, or_false] at member
    rcases member with rfl | rfl
    · exact (plain_leafOf comma (by decide)).2
    · simp [typed def' (List.mem_cons_of_mem _ (List.mem_map_of_mem (f := Prod.snd) own))]
  · rcases member with rfl | member
    · exact (plain_leafOf comma (by decide)).2
    · rcases constraint.getType_trees member with plain | ⟨-, own⟩ | ⟨-, own⟩ | ⟨-, own⟩
      · exact plain.2
      · simp [own]
      · simp [own]
      · simp [own]
  · rcases table.mem_back options (by simpa using member) with plain | own | own
    · exact plain.2
    · simp [own]
    · simp [own]

theorem createRewriteDatatypes_layout (typed : table.Typed column) :
    createRewriteDatatypes (table.layout column constraints options) =
      table.doubled.layout column constraints options := by
  have header : ∀ x ∈ table.header.map leafOf, x.getType ≠ .kDouble := by
    intro x member
    obtain ⟨token, -, rfl⟩ := List.mem_map.mp member
    exact (plain_leafOf token (by decide)).2
  have qualified := createRewriteDatatypes_qualifier table.qualifier
    (table.behind_qualifier typed constraints options)
  simp only [layout, front, List.append_assoc, List.cons_append] at qualified ⊢
  rw [createRewriteDatatypes_append header]
  exact congrArg _ qualified

end CreateTable

/-! ## ON UPDATE -/

/-- A column definition without the ON UPDATE clauses that the pass takes. -/
def onupdateColumn (x : Tree) : Tree :=
  x.withChildren (takeSkip (hasType .tCreateTableOnupdate) x.children).2

/-- The ON UPDATE clauses that the pass takes. -/
def clauses (x : Tree) : List Tree :=
  (takeSkip (hasType .tCreateTableOnupdate) x.children).1

private theorem whileFound_onupdate (columnDef : ColumnDef) (tablename : String) {x : Tree}
    (stands : columnDef.Stands x) (ws : WalkerState) :
    whileFound .tCreateTableOnupdate (fun pos ws children => do
      let ntree ← children[0]?
      let tree ← children[pos]?
      some (pos + 1, ws.append (onupdateText ws.schemaName tablename ntree.getText tree.children),
        children.eraseIdx pos)) ws x.children =
    some (ws.emit ((clauses x).map fun clause =>
        .onupdate ws.schemaName tablename columnDef.name.1.text clause.children),
      (onupdateColumn x).children) := by
  have noHit := hasType_leafOf columnDef.name (k := .tCreateTableOnupdate) (by decide)
  let emitted (schemaName : String) (clause : Tree) : List Generated :=
    [.onupdate schemaName tablename columnDef.name.1.text clause.children]
  rw [whileFound, searchLoop_takeSkip (I := fun l => l.head? = some (leafOf columnDef.name))
    (f := fun ws clause => ws.emit (emitted ws.schemaName clause)) ?_ ?_ ws _ stands.name
    (Nat.lt_succ_self _), foldl_emit emitted, ← List.map_eq_flatMap]
  · rfl
  · intro ws before clause rest start hit
    have head : (before ++ clause :: rest)[0]? = some (leafOf columnDef.name) := by
      rw [← List.head?_eq_getElem?, start]
    simp only [head, getElem?_here, eraseIdx_here, Option.bind_eq_bind, Option.bind_some]
    rfl
  · intro before clause rest start hit
    exact head?_of_hit (l := rest) start noHit hit

theorem createTableRewriteOnupdate_layout {table : CreateTable} {column : ColumnDef → Tree}
    {constraints : List (TokenIn [.comma] × Constraint)} {options : List TableOption}
    (stand : table.AllStand column) (ws : WalkerState) :
    createTableRewriteOnupdate ws (table.layout column constraints options) =
      some (ws.emit (table.columnDefs.flatMap fun columnDef =>
          (clauses (column columnDef)).map fun clause =>
            .onupdate ws.schemaName table.tablename columnDef.name.1.text clause.children),
        table.layout (fun columnDef => onupdateColumn (column columnDef)) constraints options) := by
  let emitted (schemaName : String) (x : Tree) : List Generated :=
    (clauses x).map fun clause =>
      .onupdate schemaName table.tablename (columnName x) clause.children
  simp only [createTableRewriteOnupdate, table.createTableTablename_layout, Option.bind_eq_bind,
    Option.bind_some]
  rw [CreateTable.columns_pass (I := fun _ => True)
    (f := fun ws x => (whileFound .tCreateTableOnupdate (fun pos ws children => do
      let ntree ← children[0]?
      let tree ← children[pos]?
      some (pos + 1,
        ws.append (onupdateText ws.schemaName table.tablename ntree.getText tree.children),
        children.eraseIdx pos)) ws x.children).map fun result =>
          (result.1, x.withChildren result.2))
    (g := onupdateColumn) (h := fun ws x => ws.emit (emitted ws.schemaName x))
    ?_ ?_ ws stand.typed trivial ?_]
  · rw [foldl_emit emitted, List.flatMap_map]
    refine congrArg (fun texts => some (ws.emit texts, _)) (List.flatMap_congr fun def' own => ?_)
    simp only [emitted, (stand def' own).columnName]
  · intro ws before x rest _ _
    simp only [getElem?_here, Option.bind_some, set_here]
    generalize whileFound _ _ ws x.children = result
    cases result <;> rfl
  · intros
    trivial
  · intro ws columnDef own
    simp only [emitted, (stand columnDef own).columnName]
    rw [whileFound_onupdate columnDef table.tablename (stand columnDef own) ws]
    rfl

theorem onupdateColumn_stands {columnDef : ColumnDef} {x : Tree}
    (stands : columnDef.Stands x) : columnDef.Stands (onupdateColumn x) where
  type := stands.type
  name := by
    have noHit := hasType_leafOf columnDef.name (k := .tCreateTableOnupdate) (by decide)
    obtain ⟨rest, children⟩ := List.head?_eq_some_iff.mp stands.name
    rw [onupdateColumn, Tree.children_withChildren, children,
      takeSkip_cons_of_neg (Bool.eq_false_iff.mp noHit)]
    rfl
  autoIncrement := by
    have apart : ∀ y : Tree, hasType .tCreateTableOnupdate y = true →
        hasType .kAutoIncrement y = false := by
      intro y hit
      simp only [hasType, beq_iff_eq] at hit
      simp [hasType, hit]
    rw [onupdateColumn, Tree.children_withChildren, takeSkip_snd_any apart, stands.autoIncrement]

theorem clauses_enumColumn (columnDef : ColumnDef) :
    clauses (enumColumn columnDef.tree) = columnDef.onupdates := by
  have noHit := hasType_leafOf columnDef.name (k := .tCreateTableOnupdate) (by decide)
  rw [clauses, enumColumn_children, takeSkip_cons_of_neg (Bool.eq_false_iff.mp noHit), takeSkip_map _ ?_]
  · rw [ColumnDef.onupdates, List.map_congr_left (g := id) ?_, List.map_id]
    intro clause taken
    have hit := (takeSkip_fst_hit _ clause taken).2
    have noEnum : hasType .tCreateTableEnum clause = false := by
      simp only [hasType, beq_iff_eq] at hit
      simp [hasType, hit]
    simp [noEnum]
  · intro part member
    change (Tree.getType _ == _) = (part.getType == _)
    rw [getType_enumPart columnDef part member]

/-! ## Zero dates -/

/-- A column definition without its NOT NULL, when it has a zero date somewhere. -/
def dateColumn (x : Tree) : Tree :=
  if lookAheadDown x.children 0 .stupidMysqlDate = none ∧
      lookAheadDown x.children 0 .stupidMysqlTimestamp = none then x
  else x.withChildren (deleteNotNull x.children)

theorem deleteNotNull_cons {x : Tree} (other : x.getType ≠ .kNot) (rest : List Tree) :
    deleteNotNull (x :: rest) = x :: deleteNotNull rest := by
  cases rest <;> simp [deleteNotNull, other]

theorem deleteNotNull_eq (l : List Tree) :
    deleteNotNull l = AdjacentPairs.dropFirst (hasType .kNot) (hasType .kNull) l := by
  fun_induction deleteNotNull l with
  | case1 child next rest both =>
    rw [AdjacentPairs.dropFirst, if_pos (by simpa [hasType] using both)]
  | case2 child next rest apart ih =>
    rw [AdjacentPairs.dropFirst, if_neg (by simpa [hasType] using apart), ih]
  | case3 l short =>
    rw [AdjacentPairs.dropFirst]
    exact short

private theorem deleteNotNull_any {q : Tree → Bool} (notNot : ∀ x, x.getType = .kNot → q x = false)
    (notNull : ∀ x, x.getType = .kNull → q x = false) (l : List Tree) :
    (deleteNotNull l).any q = l.any q := by
  have kept : (deleteNotNull l).filter q = l.filter q := by
    rw [deleteNotNull_eq]
    exact AdjacentPairs.dropFirst_filter
      (fun x _ isNot => notNot x (by simpa [hasType] using isNot))
      fun x _ isNull => notNull x (by simpa [hasType] using isNull)
  calc
    (deleteNotNull l).any q = ((deleteNotNull l).filter q).any q := by simp [List.any_filter]
    _ = l.any q := by simp [kept, List.any_filter]

/-- The pass over any children: the column definitions with a zero date lose their NOT NULL. -/
theorem createRewriteStupidDate_eq (ws : WalkerState) (base : List Tree) :
    createRewriteStupidDate ws base =
      some (ws, base.map fun x =>
        if hasType .tCreateTableColumnDef x then dateColumn x else x) := by
  rw [createRewriteStupidDate, whileFound, searchLoop_visit (I := fun _ => True)
    (f := fun ws x => some (ws, dateColumn x)) ?_ ?_ ws base trivial (Nat.lt_succ_self _),
    visitAll_eq_some (g := dateColumn) (h := fun ws _ => ws) ws base fun _ _ _ _ => rfl]
  · simp
  · intro ws before x rest _ _
    simp only [getElem?_here, Option.bind_eq_bind, Option.bind_some, set_here,
      Option.isNone_iff_eq_none, dateColumn, Option.map_some]
    split <;> rfl
  · intros
    trivial

theorem createRewriteStupidDate_layout {table : CreateTable} {column : ColumnDef → Tree}
    {constraints : List (TokenIn [.comma] × Constraint)} {options : List TableOption}
    (typed : table.Typed column) (ws : WalkerState) :
    createRewriteStupidDate ws (table.layout column constraints options) =
      some (ws, table.layout (fun columnDef => dateColumn (column columnDef)) constraints
        options) := by
  rw [createRewriteStupidDate_eq, table.layout_map typed]

theorem dateColumn_stands {columnDef : ColumnDef} {x : Tree}
    (stands : columnDef.Stands x) : columnDef.Stands (dateColumn x) := by
  rw [dateColumn]
  split
  · exact stands
  · refine ⟨stands.type, ?_, ?_⟩
    · obtain ⟨rest, children⟩ := List.head?_eq_some_iff.mp stands.name
      have notNot : (leafOf columnDef.name).getType ≠ .kNot := by
        have type : columnDef.name.1.type = .id := List.mem_singleton.mp columnDef.name.2
        simp [type]
      rw [Tree.children_withChildren, children, deleteNotNull_cons notNot]
      rfl
    · rw [Tree.children_withChildren, deleteNotNull_any ?_ ?_, stands.autoIncrement]
      · intro y isNot
        simp [hasType, isNot]
      · intro y isNull
        simp [hasType, isNull]

/-! ## AUTO_INCREMENT -/

/-- A column definition without its first AUTO_INCREMENT. -/
def autoIncColumn (x : Tree) : Tree :=
  match lookAheadIndex x.children 0 .kAutoIncrement with
  | none => x
  | some incpos => x.withChildren (x.children.eraseIdx incpos)

/-- The search for the start over the option nodes alone. -/
private def startOf : List Tree → Option String
  | [] => some "1"
  | option :: rest =>
    if option.children.length ≥ 2 then do
      let autoinc ← option.children[0]?
      let equals ← option.children[1]?
      if autoinc.getType = .kAutoIncrement ∧ equals.getType = .eq then
        let number ← option.children[2]?
        if number.getType = .number then some number.getText else startOf rest
      else startOf rest
    else startOf rest

private theorem autoincstart_from (before rest : List Tree) (fuel : ℕ) (nonempty : before ≠ [])
    (fueled : rest.length < fuel) :
    autoincstart (before ++ rest) fuel before.length =
      startOf (rest.filter (hasType .tCreateTableOptions)) := by
  induction rest generalizing before fuel with
  | nil =>
    obtain ⟨fuel, rfl⟩ := Nat.exists_eq_succ_of_ne_zero (Nat.ne_zero_of_lt fueled)
    have missing : lookAheadIndex (before ++ []) before.length .tCreateTableOptions = none := by
      simp [lookAheadIndex, findFrom_eq_none_iff]
    simp only [autoincstart, missing, List.filter_nil, startOf]
  | cons x rest ih =>
    obtain ⟨fuel, rfl⟩ := Nat.exists_eq_succ_of_ne_zero (Nat.ne_zero_of_lt fueled)
    simp only [List.length_cons] at fueled
    have tail (fuel : ℕ) (fueled : rest.length < fuel) := ih (before ++ [x]) fuel (by simp) fueled
    simp only [List.length_append, List.length_singleton, List.append_assoc,
      List.singleton_append] at tail
    cases hit : hasType .tCreateTableOptions x with
    | false =>
      have same := findFrom_skip before rest hit
      rw [List.filter_cons_of_neg (by simp [hit]), ← tail (fuel + 1) (by omega)]
      simp only [autoincstart, lookAheadIndex, same]
    | true =>
      obtain ⟨first, before, rfl⟩ := List.exists_cons_of_ne_nil nonempty
      have found : lookAheadIndex (first :: before ++ x :: rest) (before.length + 1)
          .tCreateTableOptions = some (before.length + 1) :=
        findFrom_append (l := first :: before) (Nat.le_refl _) (by simp) hit
      have present : (first :: before ++ x :: rest)[before.length + 1]? = some x :=
        getElem?_here (first :: before) rest x
      rw [List.filter_cons_of_pos hit, List.length_cons, autoincstart, found]
      simp only [present, Option.bind_eq_bind, Option.bind_some, startOf]
      rw [← tail fuel (by omega)]
      rfl

private theorem startOf_options (options : List TableOption) :
    startOf (options.map TableOption.tree) =
      some ((options.findSome? fun option => autoIncrementNumber option.1).getD "1") := by
  induction options with
  | nil => rfl
  | cons option rest ih =>
    obtain ⟨children, bound⟩ := option
    match children, bound with
    | autoinc :: equals :: number :: more, _ =>
      have here : autoIncrementNumber (autoinc :: equals :: number :: more) =
          if autoinc.getType = .kAutoIncrement ∧ equals.getType = .eq ∧
            number.getType = .number then some number.getText else none := rfl
      simp only [List.map_cons, startOf, TableOption.tree, children_rooted, List.length_cons,
        ge_iff_le, Nat.le_add_left, ↓reduceIte, List.getElem?_cons_zero, List.getElem?_cons_succ,
        Option.bind_eq_bind, Option.bind_some, List.findSome?_cons, here]
      by_cases isStart : autoinc.getType = .kAutoIncrement ∧ equals.getType = .eq
      · by_cases isNumber : number.getType = .number
        · simp only [isStart, isNumber, and_self, ↓reduceIte, Option.getD_some]
        · simp only [isStart, isNumber, and_false, and_self, ↓reduceIte]
          exact ih
      · have other : ¬ (autoinc.getType = .kAutoIncrement ∧ equals.getType = .eq ∧
            number.getType = .number) := fun all => isStart ⟨all.1, all.2.1⟩
        simp only [if_neg isStart, if_neg other]
        exact ih

private theorem map_filter_eq_flatMap {α β : Type*} (p : α → Bool) (f : α → β) (l : List α) :
    (l.filter p).map f = l.flatMap fun x => if p x then [f x] else [] := by
  induction l with
  | nil => rfl
  | cons x rest ih => cases hit : p x <;> simp [hit, ih]

/-- What the search for the start sees: the options, behind a child that is none. -/
private def Starting (options : List TableOption) (l : List Tree) : Prop :=
  l.filter (hasType .tCreateTableOptions) = options.map TableOption.tree ∧
    ∃ head, l.head? = some head ∧ hasType .tCreateTableOptions head = false

private theorem autoincstart_starting {options : List TableOption} {l : List Tree}
    (starting : Starting options l) : autoincstart l (l.length + 1) 0 =
      some ((options.findSome? fun option => autoIncrementNumber option.1).getD "1") := by
  obtain ⟨filtered, head, own, miss⟩ := starting
  obtain ⟨rest, rfl⟩ := List.head?_eq_some_iff.mp own
  rw [List.filter_cons_of_neg (by simp [miss])] at filtered
  have skip : lookAheadIndex (head :: rest) 0 .tCreateTableOptions =
      lookAheadIndex (head :: rest) 1 .tCreateTableOptions := findFrom_skip [] rest miss
  have run := autoincstart_from [head] rest (rest.length + 2) (by simp) (by omega)
  rw [filtered, startOf_options] at run
  rw [← run]
  simp only [autoincstart, skip, List.length_cons, List.length_nil, List.cons_append,
    List.nil_append]

private theorem Starting.keep {options : List TableOption} {before rest : List Tree} {x x' : Tree}
    (starting : Starting options (before ++ x :: rest))
    (hit : hasType .tCreateTableColumnDef x = true) (same : x'.getType = x.getType) :
    Starting options (before ++ x' :: rest) := by
  obtain ⟨filtered, head, own, miss⟩ := starting
  have noOption : hasType .tCreateTableOptions x = false := by
    simp only [hasType, beq_iff_eq] at hit
    simp [hasType, hit]
  have noOption' : hasType .tCreateTableOptions x' = false := by
    simpa [hasType, same] using noOption
  refine ⟨?_, ?_⟩
  · simpa [List.filter_append, List.filter_cons, noOption, noOption'] using filtered
  · cases before with
    | nil => exact ⟨x', rfl, noOption'⟩
    | cons first before => exact ⟨head, by simpa using own, miss⟩

theorem starting_layout (table : CreateTable) {column : ColumnDef → Tree}
    {constraints : List (TokenIn [.comma] × Constraint)} (typed : table.Typed column) :
    Starting table.options (table.layout column constraints table.options) := by
  have front := table.front_clear typed (k := .tCreateTableOptions) rfl (by decide)
  have others := CreateTable.constraintTrees_others constraints
    (k := .tCreateTableOptions) rfl (by decide) (by decide) (by decide)
  have options := hasType_options table.options
  refine ⟨?_, ?_⟩
  · rw [CreateTable.layout, List.filter_append, List.filter_append, List.filter_cons,
      table.rparen_noOption, if_neg (by decide), List.filter_append,
      List.filter_eq_self.mpr options,
      CreateTable.filter_of_clear front, CreateTable.filter_of_clear others,
      CreateTable.filter_of_clear table.tail_noOption]
    simp
  · obtain ⟨head, rest, split⟩ := List.exists_cons_of_ne_nil (table.front_ne_nil column)
    refine ⟨head, by simp [CreateTable.layout, split], front head (by simp [split])⟩

theorem getType_autoIncColumn (x : Tree) : (autoIncColumn x).getType = x.getType := by
  rw [autoIncColumn]
  split <;> rfl

/-- One turn of the pass: the statements for a column and the column without its
AUTO_INCREMENT. -/
private def autoIncVisit (tablename start : String) (ws : WalkerState) (x : Tree) :
    Option (WalkerState × Tree) :=
  match lookAheadIndex x.children 0 .kAutoIncrement with
  | none => some (ws, x)
  | some incpos => (x.children[0]?).map fun id =>
      (ws.append (autoIncText ws.schemaName tablename id.getText start),
        x.withChildren (x.children.eraseIdx incpos))

private theorem autoIncVisit_snd {tablename start : String} {ws ws' : WalkerState} {x x' : Tree}
    (run : autoIncVisit tablename start ws x = some (ws', x')) : x' = autoIncColumn x := by
  rw [autoIncVisit] at run
  rw [autoIncColumn]
  cases search : lookAheadIndex x.children 0 .kAutoIncrement with
  | none =>
    rw [search] at run
    cases run
    rfl
  | some incpos =>
    simp only [search, Option.map_eq_some_iff] at run
    obtain ⟨id, -, result⟩ := run
    cases result
    rfl

/-- What one turn appends. -/
private def autoIncEmitted (table : CreateTable) (schemaName : String) (x : Tree) :
    List Generated :=
  if x.children.any (hasType .kAutoIncrement) then
    [.autoInc schemaName table.tablename (columnName x) table.start] else []

private theorem autoIncVisit_stands (table : CreateTable) {columnDef : ColumnDef} {x : Tree}
    (stands : columnDef.Stands x) (ws : WalkerState) :
    autoIncVisit table.tablename table.start ws x =
      some (ws.emit (autoIncEmitted table ws.schemaName x), autoIncColumn x) := by
  have found := lookAheadIndex_isSome x.children .kAutoIncrement
  have head : x.children[0]? = some (leafOf columnDef.name) := by
    rw [← List.head?_eq_getElem?, stands.name]
  simp only [autoIncVisit, autoIncEmitted, autoIncColumn, ← found, stands.columnName, head,
    Option.map_some]
  cases lookAheadIndex x.children 0 .kAutoIncrement with
  | none => simp
  | some incpos => rfl

theorem createTableRewriteAutoInc_layout {table : CreateTable} {column : ColumnDef → Tree}
    {constraints : List (TokenIn [.comma] × Constraint)} (stand : table.AllStand column)
    (ws : WalkerState) :
    createTableRewriteAutoInc ws (table.layout column constraints table.options) =
      some (ws.emit (table.sequences ws.schemaName),
        table.layout (fun columnDef => autoIncColumn (column columnDef)) constraints
          table.options) := by
  simp only [createTableRewriteAutoInc, table.createTableTablename_layout, Option.bind_eq_bind,
    Option.bind_some]
  rw [CreateTable.columns_pass (I := Starting table.options)
    (f := autoIncVisit table.tablename table.start) (g := autoIncColumn)
    (h := fun ws x => ws.emit (autoIncEmitted table ws.schemaName x))
    ?_ ?_ ws stand.typed (starting_layout table stand.typed) ?_]
  · rw [foldl_emit (autoIncEmitted table), List.flatMap_map]
    refine congrArg (fun texts => some (ws.emit texts, _)) ?_
    rw [CreateTable.sequences, map_filter_eq_flatMap]
    refine List.flatMap_congr fun columnDef own => ?_
    have stands := stand columnDef own
    simp only [autoIncEmitted, stands.autoIncrement, stands.columnName]
  · intro ws before x rest starting hit
    have start := autoincstart_starting starting
    simp only [getElem?_here, Option.bind_some, autoIncVisit]
    cases lookAheadIndex x.children 0 .kAutoIncrement with
    | none => rfl
    | some incpos =>
      simp only [start, Option.bind_some, set_here]
      cases x.children[0]? <;> rfl
  · intro ws ws' before x x' rest starting hit run
    apply starting.keep hit
    rw [autoIncVisit_snd run, getType_autoIncColumn]
  · intro ws columnDef own
    exact autoIncVisit_stands table (stand columnDef own) ws

end Pgify.Model
