import Pgify.Model.Statement

/-! # The clauses of SHOW TABLES and SHOW COLUMNS

The children of the two nodes by what the rules accept, with any `sql_identifier` for the table and
the schema, and the queries that take the place of K_SHOW.
-/

namespace Pgify.Model

/-- `( K_FROM | K_IN ) sql_identifier`; the keyword is not in the tree. -/
def showFromTree (name : SqlIdentifier) : Tree :=
  rooted .tShowFrom "T_SHOW_FROM" [.leaf name.1]

/-- What follows the names of a SHOW statement. -/
def showTail (filter : Option ShowFilter) (semi : Option (TokenIn [.semi])) : List Tree :=
  (filter.map Subtype.val).toList ++ (semi.map leafOf).toList

/-- A filter LIKE is a condition on the names of the outer query; WHERE has its own keyword. -/
def likeText (filter : Option ShowFilter) (text : String) : String :=
  if filter.any fun filter => hasType .tShowLike filter.1 then text else ""

/-- SHOW TABLES without its FROM. -/
structure ShowTablesClauses where
  show' : TokenIn [.kShow]
  full : Option (TokenIn [.kFull])
  tables : TokenIn [.kTables]
  filter : Option ShowFilter
  semi : Option (TokenIn [.semi])

namespace ShowTablesClauses

variable (clauses : ShowTablesClauses)

def children (schema : Option SqlIdentifier) : List Tree :=
  leafOf clauses.show' :: (clauses.full.map leafOf).toList ++ leafOf clauses.tables ::
    (schema.map showFromTree).toList ++ showTail clauses.filter clauses.semi

/-- The query with an operand for `table_schema`. -/
def query (operand : String) : String :=
  showTablesText (if clauses.full.isSome then "sub.tables, sub.table_type" else "sub.tables")
    operand (likeText clauses.filter "WHERE sub.tables ")

/-- The query in place of K_SHOW, the filter and the semicolon. -/
def rewritten (operand : String) : List Tree :=
  .leaf { clauses.show'.1 with text := clauses.query operand } ::
    showTail clauses.filter clauses.semi

end ShowTablesClauses

/-- SHOW COLUMNS without its second FROM. -/
structure ShowColumnsClauses where
  show' : TokenIn [.kShow]
  full : Option (TokenIn [.kFull])
  table : SqlIdentifier
  filter : Option ShowFilter
  semi : Option (TokenIn [.semi])

namespace ShowColumnsClauses

variable (clauses : ShowColumnsClauses)

def children (schema : Option SqlIdentifier) : List Tree :=
  leafOf clauses.show' :: (clauses.full.map leafOf).toList ++ showFromTree clauses.table ::
    (schema.map showFromTree).toList ++ showTail clauses.filter clauses.semi

/-- The query for a table with an operand for `table_schema`. -/
def query (table operand : String) : String :=
  showColumnsText
    (if clauses.full.isSome then "*" else "field, type, \"null\", key, \"default\", extra")
    table operand (likeText clauses.filter "WHERE sub.field ")

/-- The query in place of K_SHOW, the filter and the semicolon. -/
def rewritten (table operand : String) : List Tree :=
  .leaf { clauses.show'.1 with text := clauses.query table operand } ::
    showTail clauses.filter clauses.semi

end ShowColumnsClauses

/-- The value that a name is compared by: lower-cased and without quotes. -/
def shownName (rt : Runtime) (name : SqlIdentifier) : String :=
  unquote (rt.utf8Strdown name.1.text)

end Pgify.Model
