import Pgify.Lib.CatalogScript
import Pgify.Model.TableNames

/-! # What a dump and its translation do to a database

A dump is a sequence of USE, CREATE TABLE, INSERT and DROP TABLE statements. Each of them has a
meaning as a command of the server that runs the translation, and each generated statement has one
as an alteration. The translation runs the commands and then the alterations.
-/

namespace Pgify.Model

open SearchPath

variable {ν : Type*}

/-! ## INSERT and DROP TABLE -/

private theorem walkable_leafOf {types : List TokenType} (token : TokenIn types)
    (inert : ∀ type ∈ types, type.isInert = true) : Walkable (leafOf token) :=
  walkable_leaf (inert token.1.type token.2)

private theorem walkable_toList {types : List TokenType} (token : Option (TokenIn types))
    (inert : ∀ type ∈ types, type.isInert = true) :
    ∀ x ∈ (token.map leafOf).toList, Walkable x := by
  intro x member
  obtain ⟨token, -, rfl⟩ := Option.map_eq_some_iff.mp (Option.mem_toList.mp member)
  exact walkable_leafOf token inert

/-- The names of a list behind its first one, with their commas. -/
private theorem walkable_names (names : List (TokenIn [.comma] × InertName)) :
    ∀ x ∈ names.flatMap (fun (comma, name) => [leafOf comma, .leaf name.1.1]), Walkable x := by
  intro x member
  obtain ⟨pair, -, own⟩ := List.mem_flatMap.mp member
  simp only [List.mem_cons, List.not_mem_nil, or_false] at own
  rcases own with rfl | rfl
  · exact walkable_leafOf pair.1 (by decide)
  · exact walkable_leaf pair.2.2

/-- A parenthesised list of column names. -/
structure ColumnNames where
  lparen : TokenIn [.lparen]
  first : InertName
  rest : List (TokenIn [.comma] × InertName)
  rparen : TokenIn [.rparen]

namespace ColumnNames

def names (columns : ColumnNames) : List InertName :=
  columns.first :: columns.rest.map Prod.snd

def trees (columns : ColumnNames) : List Tree :=
  leafOf columns.lparen :: .leaf columns.first.1.1 ::
    columns.rest.flatMap (fun (comma, name) => [leafOf comma, .leaf name.1.1]) ++
    [leafOf columns.rparen]

private theorem walkable_trees (columns : ColumnNames) : ∀ x ∈ columns.trees, Walkable x := by
  intro x member
  simp only [trees, List.cons_append, List.mem_cons, List.mem_append, List.not_mem_nil,
    or_false] at member
  rcases member with rfl | rfl | names | rfl
  · exact walkable_leafOf columns.lparen (by decide)
  · exact walkable_leaf columns.first.2
  · exact walkable_names columns.rest x names
  · exact walkable_leafOf columns.rparen (by decide)

end ColumnNames

/-- `insert_statement` with a `single_table_insert` into a table; `rest` is the values or the
subquery, and the semicolon. -/
structure Insert where
  keyword : { token : TokenIn [.kInsert] // token.1.text ≠ "" }
  into : TokenIn [.kInto]
  schema : Option (InertName × TokenIn [.dot])
  table : InertName
  columns : Option ColumnNames
  rest : List Tree
  walkable : ∀ x ∈ rest, Walkable x

/-- `drop_statement` with K_TABLE; RESTRICT and CASCADE are not in the tree. -/
structure DropTable where
  keyword : { token : TokenIn [.kDrop] // token.1.text ≠ "" }
  temporary : Option (TokenIn [.kTemporary])
  table : TokenIn [.kTable]
  ifExists : Option (TokenIn [.kIf] × TokenIn [.kExists])
  first : InertName
  rest : List (TokenIn [.comma] × InertName)
  semi : Option (TokenIn [.semi])

namespace Insert

variable (insert : Insert)

/-- Everything behind INSERT. -/
def trees : List Tree :=
  leafOf insert.into ::
    insert.schema.elim [] (fun (schema, dot) => [.leaf schema.1.1, leafOf dot]) ++
    .leaf insert.table.1.1 :: insert.columns.elim [] ColumnNames.trees ++ insert.rest

private theorem walkable_trees : ∀ x ∈ insert.trees, Walkable x := by
  intro x member
  simp only [trees, List.append_assoc, List.cons_append, List.mem_cons, List.mem_append] at member
  rcases member with rfl | schema | rfl | columns | rest
  · exact walkable_leafOf insert.into (by decide)
  · cases own : insert.schema with
    | none => simp [own] at schema
    | some pair =>
      simp only [own, Option.elim_some, List.mem_cons, List.not_mem_nil, or_false] at schema
      rcases schema with rfl | rfl
      · exact walkable_leaf pair.1.2
      · exact walkable_leafOf pair.2 (by decide)
  · exact walkable_leaf insert.table.2
  · cases own : insert.columns with
    | none => simp [own] at columns
    | some names => exact names.walkable_trees x (by simpa [own] using columns)
  · exact insert.walkable x rest

def clauses : Clauses where
  keyword := ⟨insert.keyword.1.1, by
    have type : insert.keyword.1.1.type = .kInsert := List.mem_singleton.mp insert.keyword.1.2
    exact ⟨by rw [type]; rfl, by rw [type]; decide, insert.keyword.2⟩⟩
  rest := insert.trees
  walkable := insert.walkable_trees

end Insert

namespace DropTable

variable (drop : DropTable)

def names : List InertName :=
  drop.first :: drop.rest.map Prod.snd

/-- Everything behind DROP. -/
def trees : List Tree :=
  (drop.temporary.map leafOf).toList ++ leafOf drop.table ::
    drop.ifExists.elim [] (fun (if', exists') => [leafOf if', leafOf exists']) ++
    .leaf drop.first.1.1 ::
    drop.rest.flatMap (fun (comma, name) => [leafOf comma, .leaf name.1.1]) ++
    (drop.semi.map leafOf).toList

private theorem walkable_trees : ∀ x ∈ drop.trees, Walkable x := by
  intro x member
  simp only [trees, List.append_assoc, List.cons_append, List.mem_append, List.mem_cons] at member
  rcases member with temporary | rfl | ifExists | rfl | names | semi
  · exact walkable_toList drop.temporary (by decide) x temporary
  · exact walkable_leafOf drop.table (by decide)
  · cases own : drop.ifExists with
    | none => simp [own] at ifExists
    | some pair =>
      simp only [own, Option.elim_some, List.mem_cons, List.not_mem_nil, or_false] at ifExists
      rcases ifExists with rfl | rfl
      · exact walkable_leafOf pair.1 (by decide)
      · exact walkable_leafOf pair.2 (by decide)
  · exact walkable_leaf drop.first.2
  · exact walkable_names drop.rest x names
  · exact walkable_toList drop.semi (by decide) x semi

def clauses : Clauses where
  keyword := ⟨drop.keyword.1.1, by
    have type : drop.keyword.1.1.type = .kDrop := List.mem_singleton.mp drop.keyword.1.2
    exact ⟨by rw [type]; rfl, by rw [type]; decide, drop.keyword.2⟩⟩
  rest := drop.trees
  walkable := drop.walkable_trees

end DropTable

/-! ## Dumps -/

inductive DumpStatement where
  | use (keyword : TokenIn [.kUse]) (schema : TokenIn [.id]) (semi : Option (TokenIn [.semi]))
    (spelled : schema.1.text ≠ "")
  | createTable (table : CreateTable) (built : table.Built)
  | createTableLike (table : CreateTableLike) (built : table.Built)
  | insert (parts : Insert)
  | dropTable (parts : DropTable)

def DumpStatement.statement : DumpStatement → Statement
  | use keyword schema semi spelled => .use keyword schema semi spelled
  | createTable table built => .createTable table built
  | createTableLike table built => .createTableLike table built
  | .insert parts => .clauses parts.clauses
  | .dropTable parts => .clauses parts.clauses

/-! ## The meaning of the body -/

/-- The column says NOT NULL or PRIMARY KEY. -/
def ColumnDef.isNotNull (columnDef : ColumnDef) : Bool :=
  notNull columnDef.parts || columnDef.parts.any (hasType .kPrimary)
where
  notNull : List Tree → Bool
    | child :: next :: rest =>
      child.getType == .kNot && next.getType == .kNull || notNull (next :: rest)
    | _ => false

def KeyColumns.names (columns : KeyColumns) : List String :=
  columns.first.name.1.text :: columns.rest.map fun (_, column) => column.name.1.text

namespace CreateTable

variable (table : CreateTable) (server : Server ν)

def ifNotExists : Bool :=
  table.header.any fun token => token.1.type == .kExists

/-- The columns of the PRIMARY KEY constraints. -/
def primaryColumns : List String :=
  table.constraints.flatMap fun (_, constraint) =>
    match constraint with
    | .primaryKey _ _ columns => columns.names
    | _ => []

/-- The table as CREATE TABLE leaves it: a NOT NULL AUTO_INCREMENT column is required, and only the
defaults in the definitions are there. -/
def contents : Catalog.Table ν where
  required := (table.columnDefs.filter fun columnDef => columnDef.isAutoIncrement &&
      (columnDef.isNotNull || table.primaryColumns.contains columnDef.name.1.text)).map
    fun columnDef => server.ident columnDef.name.1.text
  defaults := table.columnDefs.filterMap fun columnDef =>
    (columnDef.parts.find? (hasType .tCreateTableColumnDefault)).map fun part =>
      (server.ident columnDef.name.1.text, String.join (part.children.map Tree.getText))
  indexes := []
  triggers := []

end CreateTable

def CreateTableLike.ifNotExists (table : CreateTableLike) : Bool :=
  table.header.any fun token => token.1.type == .kExists

/-- What a statement of the body does. TEMPORARY and a SELECT behind CREATE TABLE have no bearing on
the catalog, and an INSERT without a column list gives every column. -/
def DumpStatement.command (server : Server ν) : DumpStatement → Catalog.Command ν
  | use _ schema _ _ => .setSearchPath (server.searchPath (some schema.1.text))
  | createTable table _ =>
    .createTable (table.reference server) table.ifNotExists (table.contents server)
  | createTableLike table _ =>
    .createTableLike
      (server.nameOf (table.qualifier.map fun (schema, _) => schema.1.text) table.name.1.text)
      table.ifNotExists (server.nameOf none table.template.1.text)
  | .insert parts =>
    .insert (server.nameOf (parts.schema.map fun (schema, _) => schema.1.1.text)
        parts.table.1.1.text)
      (parts.columns.map fun columns => columns.names.map fun name => server.ident name.1.1.text)
  | .dropTable parts =>
    .dropTables parts.ifExists.isSome
      (parts.names.map fun name => server.nameOf none name.1.1.text)

/-! ## The meaning of the generated statements -/

/-- The name behind REFERENCES, with or without a schema. -/
def referencedName : List Token → Option (Option String × String)
  | schema :: dot :: table :: _ =>
    if dot.type = .dot then some (some schema.text, table.text) else some (none, schema.text)
  | table :: _ => some (none, table.text)
  | [] => none

def referenced (tokens : List Token) : Option (Option String × String) :=
  referencedName ((tokens.dropWhile fun token => token.type != .kReferences).drop 1)

/-- What one append of an emitter does. The grammar has a name behind REFERENCES. -/
def Generated.alterations (server : Server ν) (generated : Generated) :
    List (Catalog.Alteration ν) :=
  match generated with
  | onupdate schemaName tablename column clause =>
    let function := s!"{unquote tablename}_update_{unquote column}"
    [.createFunction (server.target (schemaName, function)) (onupdateExpr clause),
      .alter (server.target generated.target)
        (.createTrigger (server.ident s!"{function}_trigger") (schemaName ++ function))]
  | index _ tablename name indexType columns =>
    [.alter (server.target generated.target)
      (.createIndex (server.ident s!"{unquote tablename}_{unquote name}_index")
        (indexType.getD "" ++ columns))]
  | autoInc schemaName tablename column _ =>
    let sequence := sequenceName tablename column
    [.createSequence (server.target (schemaName, sequence)),
      .alter (server.target generated.target)
        (.setDefault (server.ident column) s!"NEXTVAL ( '{schemaName}{sequence}' )")]
  | fkey _ tokens =>
    (referenced tokens).toList.map fun name =>
      .addForeignKey (server.target generated.target) (server.nameOf name.1 name.2)
        (fkeyTokensText tokens)

end Pgify.Model
