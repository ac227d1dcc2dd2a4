import Pgify.Lib.SearchPath
import Pgify.Model.Statement

/-! # The tables that statements name

The server that runs the output reads a name with a schema as it stands and a name without one
through its search path, which every USE of the input sets. A generated statement names its table by
a schema prefix and a table name; the prefix is empty or ends in a dot.
-/

namespace Pgify.Model

open SearchPath

variable {ν : Type*}

/-- How the server reads identifiers, and its search path in front of the output. -/
structure Server (ν : Type*) where
  ident : String → ν
  current : ν
  others : List ν

/-- The schema that a USE statement names. -/
def Statement.use? : Statement → Option String
  | .use _ schema _ _ => some schema.1.text
  | _ => none

def lastUse (statements : List Statement) : Option String :=
  (statements.filterMap Statement.use?).getLast?

namespace Server

variable (server : Server ν)

/-- The search path behind the last USE: its schema and `public`. -/
def searchPath (use : Option String) : List ν :=
  match use with
  | some schema => [server.ident schema, server.ident "public"]
  | none => server.current :: server.others

/-- A name as the grammar reads it, with or without `schema.` in front. -/
def nameOf (qualifier : Option String) (name : String) : Reference ν :=
  ⟨qualifier.map server.ident, server.ident name⟩

/-- The name that an emitter writes: a schema prefix with its dot, and a table name. -/
def target (written : String × String) : Reference ν :=
  server.nameOf (if written.1 = "" then none
    else some (String.ofList written.1.toList.dropLast)) written.2

end Server

/-- The schema prefix and the table name that a generated statement names its table by. -/
def Generated.target : Generated → String × String
  | onupdate schemaName tablename _ _ => (schemaName, tablename)
  | index schemaName tablename _ _ _ => (schemaName, tablename)
  | autoInc schemaName tablename _ _ => (schemaName, tablename)
  | fkey tablename _ => ("", tablename)

namespace CreateTable

variable (table : CreateTable)

def schema? : Option String :=
  table.qualifier.map fun (schema, _) => schema.1.text

/-- The name under which the statement creates its table. -/
def reference (server : Server ν) : Reference ν :=
  server.nameOf table.schema? table.name.1.text

/-- Whether a statement with a schema prefix is split out: for an ON UPDATE clause, an index or an
AUTO_INCREMENT column. -/
def hasPrefixed : Bool :=
  table.columnDefs.any (fun columnDef =>
    columnDef.parts.any (hasType .tCreateTableOnupdate) || columnDef.isAutoIncrement) ||
  table.constraints.any fun (_, constraint) => constraint.isIndex

/-- Whether a foreign key is split out, whose statement has no schema prefix. -/
def hasFkey : Bool :=
  table.constraints.any fun (_, constraint) => constraint.isFkey

end CreateTable

end Pgify.Model
