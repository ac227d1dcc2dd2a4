import Pgify.Model.CreateTableTree

/-! # The statements generated for a table

The four emitters append whole statements to the postbuf. `Generated` names them by what they are
filled with, and `CreateTable.generated` lists those of one CREATE TABLE in the order of the passes.
-/

namespace Pgify.Model

/-- The foreign key's tokens, each behind a blank. -/
def fkeyTokensText (tokens : List Token) : String :=
  String.join (tokens.map fun token => s!" {token.text}")

/-- One append of an emitter: a function with its trigger, an index, a sequence with the column
default that draws from it, or a foreign key. -/
inductive Generated where
  | onupdate (schemaName tablename column : String) (clause : List Tree)
  | index (schemaName tablename name : String) (indexType : Option String) (columns : String)
  | autoInc (schemaName tablename column start : String)
  | fkey (tablename : String) (tokens : List Token)

def Generated.text : Generated → String
  | onupdate schemaName tablename column clause => onupdateText schemaName tablename column clause
  | index schemaName tablename name indexType columns =>
    indexText schemaName tablename name indexType columns
  | autoInc schemaName tablename column start => autoIncText schemaName tablename column start
  | fkey tablename tokens => fkeyText tablename (fkeyTokensText tokens)

/-- Append generated statements to the postbuf. -/
def WalkerState.emit (ws : WalkerState) (generated : List Generated) : WalkerState :=
  ws.append (String.join (generated.map Generated.text))

@[simp] theorem WalkerState.emit_schemaName (ws : WalkerState) (generated : List Generated) :
    (ws.emit generated).schemaName = ws.schemaName := rfl

@[simp] theorem WalkerState.emit_nil (ws : WalkerState) : ws.emit [] = ws :=
  ws.append_empty

@[simp] theorem WalkerState.emit_emit (ws : WalkerState) (first second : List Generated) :
    (ws.emit first).emit second = ws.emit (first ++ second) := by
  simp [WalkerState.emit]

/-- A fold that appends statements depends on the schema name alone. -/
theorem foldl_emit {α : Type*} (texts : String → α → List Generated) (l : List α)
    (ws : WalkerState) :
    l.foldl (fun ws x => ws.emit (texts ws.schemaName x)) ws =
      ws.emit (l.flatMap (texts ws.schemaName)) := by
  induction l generalizing ws with
  | nil => simp
  | cons x rest ih => simp [ih]

/-- The name of an unnamed index is its first column. -/
def IndexKey.generated (schemaName tablename : String) (key : IndexKey) : Generated :=
  .index schemaName tablename (key.name.getD key.columns.first.name).1.text
    ((key.typeBefore.or key.typeAfter).map fun indexType => indexType.method.1.text)
    (indexScan key.children).columns

/-- The ON UPDATE clauses that are taken out of a column: one right behind a taken one stays. -/
def ColumnDef.onupdates (columnDef : ColumnDef) : List Tree :=
  (SearchLoop.takeSkip (hasType .tCreateTableOnupdate) columnDef.parts).1

def ColumnDef.isAutoIncrement (columnDef : ColumnDef) : Bool :=
  columnDef.parts.any (hasType .kAutoIncrement)

/-- The number of an option `AUTO_INCREMENT = n`. -/
def autoIncrementNumber : List Tree → Option String
  | autoinc :: equals :: number :: _ =>
    if autoinc.getType = .kAutoIncrement ∧ equals.getType = .eq ∧ number.getType = .number then
      some number.getText
    else none
  | _ => none

namespace CreateTable

variable (table : CreateTable)

/-- The first identifier of the statement: the qualifier, when it is one. -/
def tablename : String :=
  match table.qualifier with
  | some (schema, _) => if schema.1.type = .id then schema.1.text else table.name.1.text
  | none => table.name.1.text

/-- The start of the sequences. -/
def start : String :=
  (table.options.findSome? fun option => autoIncrementNumber option.1).getD "1"

def onupdates (schemaName : String) : List Generated :=
  table.columnDefs.flatMap fun columnDef => columnDef.onupdates.map fun clause =>
    .onupdate schemaName table.tablename columnDef.name.1.text clause.children

def indexes (schemaName : String) : List Generated :=
  (table.constraints.filterMap fun (_, constraint) => constraint.indexKey?).map
    (IndexKey.generated schemaName table.tablename)

def sequences (schemaName : String) : List Generated :=
  (table.columnDefs.filter ColumnDef.isAutoIncrement).map fun columnDef =>
    .autoInc schemaName table.tablename columnDef.name.1.text table.start

def foreignKeys : List Generated :=
  (table.constraints.filterMap fun (_, constraint) => constraint.fkeyTokens?).map
    (Generated.fkey table.tablename)

/-- Everything split out of the statement, in the order of the passes. -/
def generated (schemaName : String) : List Generated :=
  table.onupdates schemaName ++ table.indexes schemaName ++ table.sequences schemaName ++
    table.foreignKeys

end CreateTable

end Pgify.Model
