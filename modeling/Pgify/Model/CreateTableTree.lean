import Pgify.Model.CreateTable

/-! # The trees of CREATE TABLE statements

`CreateTable` holds what the rule `create_table_statement` accepts with a `create_definition`, and
`CreateTable.children` is the child sequence that its rewrite builds. Column definitions, indexes,
fulltext indexes, foreign keys and table options are nodes of their own; PRIMARY KEY and UNIQUE
constraints are flattened into the sequence, with the commas of their own column lists.
-/

namespace Pgify.Model

/-- The types of the roots that tree rewrites make; no token of the input has one of them. -/
def TokenType.isImaginary : TokenType → Bool
  | .invalid | .tUseDatabase | .tCreateTable | .tCreateTableIndex | .tCreateTableOptions
  | .tCreateTableFkey | .tCreateTableEnum | .tCreateTableFulltextIndex | .tCreateTableOnupdate
  | .tCreateTableColumnDefault | .tCreateTableColumnDef | .tServerVariable | .tLockTable
  | .tSelectStatement | .tShowLike | .tShowFrom | .tShowColumns | .tShowTables | .tFunctionIf
  | .tWhere | .tTransform => true
  | _ => false

def TokenType.isPunctuation : TokenType → Bool
  | .comma | .lparen | .rparen | .dot | .semi | .eq | .eof => true
  | _ => false

/-- A token of one of the given types. -/
abbrev TokenIn (types : List TokenType) := { token : Token // token.type ∈ types }

/-- What `sql_identifier` matches: an identifier, a string or a keyword. -/
abbrev SqlIdentifier :=
  { token : Token // token.type.isImaginary = false ∧ token.type.isPunctuation = false }

def leafOf {types : List TokenType} (token : TokenIn types) : Tree :=
  .leaf token.1

@[simp] theorem getType_leafOf {types : List TokenType} (token : TokenIn types) :
    (leafOf token).getType = token.1.type := rfl

theorem hasType_leafOf {types : List TokenType} (token : TokenIn types) {k : TokenType}
    (other : k ∉ types) : hasType k (leafOf token) = false := by
  have differs : token.1.type ≠ k := fun same => other (same ▸ token.2)
  simpa [hasType] using differs

/-- The root of a rewrite over its children. -/
def rooted (type : TokenType) (text : String) (children : List Tree) : Tree :=
  .node (some (.imaginary type text)) children

@[simp] theorem getType_rooted (type : TokenType) (text : String) (children : List Tree) :
    (rooted type text children).getType = type := rfl

@[simp] theorem children_rooted (type : TokenType) (text : String) (children : List Tree) :
    (rooted type text children).children = children := rfl

/-! ## Columns -/

/-- `identifier datatype column_definition_options*`; an ENUM or SET datatype is a node. -/
structure ColumnDef where
  name : TokenIn [.id]
  parts : List Tree
  enums : ∀ part ∈ parts, hasType .tCreateTableEnum part = true →
    (∃ child ∈ part.children, hasType .kEnum child = true ∨ hasType .kSet child = true) ∧
      ∃ child ∈ part.children, hasType .rparen child = true

def ColumnDef.tree (columnDef : ColumnDef) : Tree :=
  rooted .tCreateTableColumnDef "T_CREATE_TABLE_COLUMN_DEF"
    (leafOf columnDef.name :: columnDef.parts)

/-! ## Keys -/

/-- `constraint_index_colname`; its length is not kept. -/
structure KeyColumn where
  name : TokenIn [.id]
  order : Option (TokenIn [.kAsc, .kDesc])

def KeyColumn.trees (column : KeyColumn) : List Tree :=
  leafOf column.name :: (column.order.map leafOf).toList

/-- A parenthesised list of columns. -/
structure KeyColumns where
  lparen : TokenIn [.lparen]
  first : KeyColumn
  rest : List (TokenIn [.comma] × KeyColumn)
  rparen : TokenIn [.rparen]

def KeyColumns.trees (columns : KeyColumns) : List Tree :=
  leafOf columns.lparen :: columns.first.trees ++
    columns.rest.flatMap (fun (comma, column) => leafOf comma :: column.trees) ++
    [leafOf columns.rparen]

/-- `USING ( BTREE | HASH )`; the methods are literals of the parser. -/
structure IndexType where
  using' : TokenIn [.kUsing]
  method : { token : Token // ∃ code, token.type = .other code }

def IndexType.trees (indexType : IndexType) : List Tree :=
  [leafOf indexType.using', .leaf indexType.method.1]

structure IndexKey where
  name : Option (TokenIn [.id])
  typeBefore : Option IndexType
  columns : KeyColumns
  typeAfter : Option IndexType

def IndexKey.children (key : IndexKey) : List Tree :=
  (key.name.map leafOf).toList ++ (key.typeBefore.map IndexType.trees).getD [] ++
    key.columns.trees ++ (key.typeAfter.map IndexType.trees).getD []

def IndexKey.tree (key : IndexKey) : Tree :=
  rooted .tCreateTableIndex "T_CREATE_TABLE_INDEX" key.children

/-- `column_constraint_definition`, with the constraint names that the rewrites drop left out. -/
inductive Constraint where
  | primaryKey (primary : TokenIn [.kPrimary]) (key : TokenIn [.kKey]) (columns : KeyColumns)
  | uniqueKey (unique : TokenIn [.kUnique]) (columns : KeyColumns)
  | index (key : IndexKey)
  | fulltext (tokens : List Token)
  | fkey (tokens : List Token)

namespace Constraint

def trees : Constraint → List Tree
  | primaryKey primary key columns => leafOf primary :: leafOf key :: columns.trees
  | uniqueKey unique columns => leafOf unique :: columns.trees
  | index key => [key.tree]
  | fulltext tokens =>
    [rooted .tCreateTableFulltextIndex "T_CREATE_TABLE_FULLTEXT_INDEX" (tokens.map .leaf)]
  | fkey tokens => [rooted .tCreateTableFkey "T_CREATE_TABLE_FKEY" (tokens.map .leaf)]

def isKey : Constraint → Bool
  | primaryKey .. | uniqueKey .. => true
  | _ => false

def isIndex : Constraint → Bool
  | index _ => true
  | _ => false

def isFulltext : Constraint → Bool
  | fulltext _ => true
  | _ => false

def isFkey : Constraint → Bool
  | fkey _ => true
  | _ => false

def indexKey? : Constraint → Option IndexKey
  | index key => some key
  | _ => none

def fkeyTokens? : Constraint → Option (List Token)
  | fkey tokens => some tokens
  | _ => none

end Constraint

/-! ## The statement -/

/-- The children of one T_CREATE_TABLE_OPTIONS node; no option has fewer than three. -/
abbrev TableOption := { children : List Tree // 3 ≤ children.length }

def TableOption.tree (option : TableOption) : Tree :=
  rooted .tCreateTableOptions "T_CREATE_TABLE_OPTIONS" option.1

structure CreateTable where
  header : List (TokenIn [.kCreate, .kTemporary, .kTable, .kIf, .kNot, .kExists])
  qualifier : Option (SqlIdentifier × TokenIn [.dot])
  name : TokenIn [.id]
  lparen : TokenIn [.lparen]
  first : ColumnDef
  columns : List (TokenIn [.comma] × ColumnDef)
  constraints : List (TokenIn [.comma] × Constraint)
  rparen : TokenIn [.rparen]
  options : List TableOption
  as : Option (TokenIn [.kAs])
  select : Option { tree : Tree // tree.getType = .tSelectStatement }
  semi : Option (TokenIn [.semi])

namespace CreateTable

variable (table : CreateTable)

def columnDefs : List ColumnDef :=
  table.first :: table.columns.map Prod.snd

def qualifierTrees : List Tree :=
  table.qualifier.elim [] fun (schema, dot) => [.leaf schema.1, leafOf dot]

/-- Everything up to the last column definition; `column` says what stands for a definition. -/
def front (column : ColumnDef → Tree) : List Tree :=
  table.header.map leafOf ++ table.qualifierTrees ++
    leafOf table.name :: leafOf table.lparen :: column table.first ::
    table.columns.flatMap fun (comma, columnDef) => [leafOf comma, column columnDef]

def constraintTrees (constraints : List (TokenIn [.comma] × Constraint)) : List Tree :=
  constraints.flatMap fun (comma, constraint) => leafOf comma :: constraint.trees

/-- `K_AS? select_statement? SEMI?` -/
def tail : List Tree :=
  (table.as.map leafOf).toList ++ (table.select.map Subtype.val).toList ++
    (table.semi.map leafOf).toList

/-- The child sequence with the given trees for columns, constraints and options. -/
def layout (column : ColumnDef → Tree) (constraints : List (TokenIn [.comma] × Constraint))
    (options : List TableOption) : List Tree :=
  table.front column ++ constraintTrees constraints ++
    leafOf table.rparen :: (options.map TableOption.tree ++ table.tail)

/-- The children that the grammar's rewrite builds. -/
def children : List Tree :=
  table.layout ColumnDef.tree table.constraints table.options

def tree : Tree :=
  rooted .tCreateTable "T_CREATE_TABLE" table.children

/-- The children without the elements that have no place in the statement: each goes with the comma
in front of it. -/
def survivors : List Tree :=
  table.layout ColumnDef.tree (table.constraints.filter fun (_, constraint) => constraint.isKey) []

end CreateTable

end Pgify.Model
