import Pgify.Model.Generated
import Pgify.Model.Walkable

/-! # Statements and the AST of an input

A statement holds what its rule accepts, and `Statement.trees` is the forest that the rule's rewrite
adds to the AST. The AST of an accepted input is the forest of its statements followed by EOF, under
a nil root where there is more than one tree.
-/

namespace Pgify.Model

/-- A keyword and the expressions and clauses behind it. -/
structure Clauses where
  keyword : { token : Token // token.type.isInert = true ∧ token.type ≠ .eof ∧ token.text ≠ "" }
  rest : List Tree
  walkable : ∀ x ∈ rest, Walkable x

def Clauses.trees (clauses : Clauses) : List Tree :=
  .leaf clauses.keyword.1 :: clauses.rest

/-! ## CREATE TABLE -/

/-- The input tokens below the node of a constraint. -/
def Constraint.tokens : Constraint → List Token
  | .fulltext tokens | .fkey tokens => tokens
  | _ => []

/-- What the grammar puts below the elements of a CREATE TABLE. -/
structure CreateTable.Built (table : CreateTable) : Prop where
  spelled : table.name.1.text ≠ ""
  schema : ∀ schema dot, table.qualifier = some (schema, dot) → schema.1.type.isInert = true
  parts : ∀ columnDef ∈ table.columnDefs, ∀ x ∈ columnDef.parts, Walkable x
  tokens : ∀ pair ∈ table.constraints, ∀ token ∈ pair.2.tokens, token.type.isInert = true
  options : ∀ option ∈ table.options, ∀ x ∈ option.1, Walkable x
  select : ∀ select ∈ table.select, Walkable select.1

/-- `create_table_statement` with a `table_create_like`. -/
structure CreateTableLike where
  header : List (TokenIn [.kCreate, .kTemporary, .kTable, .kIf, .kNot, .kExists])
  qualifier : Option (SqlIdentifier × TokenIn [.dot])
  name : TokenIn [.id]
  like : TokenIn [.kLike]
  template : TokenIn [.id]
  parens : Option (TokenIn [.lparen] × TokenIn [.rparen])
  options : List TableOption
  as : Option (TokenIn [.kAs])
  select : Option { tree : Tree // tree.getType = .tSelectStatement }
  semi : Option (TokenIn [.semi])

namespace CreateTableLike

variable (table : CreateTableLike)

/-- `LIKE identifier`, with or without parentheses. -/
def body : List Tree :=
  match table.parens with
  | none => [leafOf table.like, leafOf table.template]
  | some (lparen, rparen) =>
    [leafOf lparen, leafOf table.like, leafOf table.template, leafOf rparen]

def qualifierTrees : List Tree :=
  table.qualifier.elim [] fun (schema, dot) => [.leaf schema.1, leafOf dot]

def front : List Tree :=
  table.header.map leafOf ++ table.qualifierTrees ++ leafOf table.name :: table.body

/-- `K_AS? select_statement? SEMI?` -/
def tail : List Tree :=
  (table.as.map leafOf).toList ++ (table.select.map Subtype.val).toList ++
    (table.semi.map leafOf).toList

def children : List Tree :=
  table.front ++ (table.options.map TableOption.tree ++ table.tail)

def tree : Tree :=
  rooted .tCreateTable "T_CREATE_TABLE" table.children

structure Built : Prop where
  spelled : table.name.1.text ≠ ""
  schema : ∀ schema dot, table.qualifier = some (schema, dot) → schema.1.type.isInert = true
  options : ∀ option ∈ table.options, ∀ x ∈ option.1, Walkable x
  select : ∀ select ∈ table.select, Walkable select.1

end CreateTableLike

/-! ## SHOW -/

/-- A name whose type no worker handles. -/
abbrev InertName := { name : SqlIdentifier // name.1.type.isInert = true }

def InertName.showFrom (name : InertName) : Tree :=
  rooted .tShowFrom "T_SHOW_FROM" [.leaf name.1.1]

/-- `( show_tables_like | show_where )?` -/
abbrev ShowFilter := { tree : Tree // tree.getType = .tShowLike ∨ tree.getType = .tWhere }

structure ShowTables where
  show' : TokenIn [.kShow]
  full : Option (TokenIn [.kFull])
  tables : TokenIn [.kTables]
  schema : Option InertName
  filter : Option ShowFilter
  semi : Option (TokenIn [.semi])

def ShowTables.children (show' : ShowTables) : List Tree :=
  leafOf show'.show' :: (show'.full.map leafOf).toList ++ leafOf show'.tables ::
    (show'.schema.map InertName.showFrom).toList ++ (show'.filter.map Subtype.val).toList ++
    (show'.semi.map leafOf).toList

/-- The literal COLUMNS or FIELDS is not in the tree. -/
structure ShowColumns where
  show' : TokenIn [.kShow]
  full : Option (TokenIn [.kFull])
  table : InertName
  schema : Option InertName
  filter : Option ShowFilter
  semi : Option (TokenIn [.semi])

def ShowColumns.children (show' : ShowColumns) : List Tree :=
  leafOf show'.show' :: (show'.full.map leafOf).toList ++ show'.table.showFrom ::
    (show'.schema.map InertName.showFrom).toList ++ (show'.filter.map Subtype.val).toList ++
    (show'.semi.map leafOf).toList

/-! ## Statements -/

/-- A statement of the loop. `clauses` is every statement whose tokens go into the AST one after the
other, a single semicolon among them. -/
inductive Statement where
  | clauses (parts : Clauses)
  | select (parts : Clauses)
  | createTable (table : CreateTable) (built : table.Built)
  | createTableLike (table : CreateTableLike) (built : table.Built)
  | use (keyword : TokenIn [.kUse]) (schema : TokenIn [.id]) (semi : Option (TokenIn [.semi]))
    (spelled : schema.1.text ≠ "")
  | showTables (show' : ShowTables) (walkable : ∀ filter ∈ show'.filter, Walkable filter.1)
  | showColumns (show' : ShowColumns) (walkable : ∀ filter ∈ show'.filter, Walkable filter.1)
  | lockTables (tokens : List Token) (inert : ∀ token ∈ tokens, token.type.isInert = true)
  | unlockTables (semi : Option (TokenIn [.semi]))

/-- The forest of a statement. -/
def Statement.trees : Statement → List Tree
  | .clauses parts => parts.trees
  | .select parts => [rooted .tSelectStatement "T_SELECT_STATEMENT" parts.trees]
  | .createTable table _ => [table.tree]
  | .createTableLike table _ => [table.tree]
  | .use keyword schema semi _ =>
    [rooted .tTransform "" [],
      rooted .tUseDatabase "T_USE_DATABASE"
        (leafOf keyword :: leafOf schema :: (semi.map leafOf).toList)]
  | .showTables show' _ => [rooted .tShowTables "T_SHOW_TABLES" show'.children]
  | .showColumns show' _ => [rooted .tShowColumns "T_SHOW_COLUMNS" show'.children]
  | .lockTables tokens _ => [rooted .tLockTable "T_LOCK_TABLE" (tokens.map .leaf)]
  | .unlockTables _ => []

/-- A nil root over one tree gives way to the tree, and over none to NULL. -/
def rulePostProcessing : List Tree → Option Tree
  | [] => none
  | [tree] => some tree
  | trees => some (.node none trees)

/-- The AST of an accepted input: its statements, and the EOF that the loop matches behind the last
one. Without a statement the loop is not entered. -/
def startRuleTree (eof : TokenIn [.eof]) : List Statement → Option Tree
  | [] => none
  | statements => rulePostProcessing (statements.flatMap Statement.trees ++ [leafOf eof])

end Pgify.Model
