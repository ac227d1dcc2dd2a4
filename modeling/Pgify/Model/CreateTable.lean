import Pgify.Model.Walker

/-! # The passes over a CREATE TABLE node

Each pass is written over the children of the T_CREATE_TABLE node, which is all of the node that it
reads or changes. The statements that PostgreSQL wants apart from the table are appended to the
postbuf; the nodes they came from are deleted together with the comma in front of them.
-/

namespace Pgify.Model

/-- The text of the first ID child. -/
def createTableTablename (base : List Tree) : Option String :=
  (base.find? (hasType .id)).map Tree.getText

/-! ## Passes that stay inside the column definitions -/

/-- Retext the ENUM or SET token and close the parenthesis that its new text opens. -/
def rewriteEnumNode (name : String) (tree : Tree) : Option Tree := do
  let enumpos ← (lookAheadIndex tree.children 0 .kEnum).or (lookAheadIndex tree.children 0 .kSet)
  let enumtree ← tree.children[enumpos]?
  let retexted := tree.children.set enumpos (enumtree.setText s!"text CHECK ( {name} IN ")
  let rparen ← lookAheadIndex retexted 0 .rparen
  let rtree ← retexted[rparen]?
  some (tree.withChildren (retexted ++ [rtree]))

def createRewriteEnum (ws : WalkerState) (base : List Tree) : Option (WalkerState × List Tree) :=
  whileFound .tCreateTableColumnDef (fun defpos ws base => do
    let columnDef ← base[defpos]?
    let (ws, children) ← whileFound .tCreateTableEnum (fun pos ws children => do
      let ntree ← children[0]?
      let tree ← children[pos]?
      let tree ← rewriteEnumNode ntree.getText tree
      some (pos + 1, ws, children.set pos tree)) ws columnDef.children
    some (defpos + 1, ws, base.set defpos (columnDef.withChildren children))) ws base

/-- DOUBLE in front of anything but PRECISION, and not in the last place, gets the missing word. -/
def createRewriteDatatypes : List Tree → List Tree
  | child :: next :: rest =>
    (if child.getType = .kDouble ∧ next.getType ≠ .kPrecision then
      child.setText (child.getText ++ " PRECISION ") else child)
      :: createRewriteDatatypes (next :: rest)
  | children => children

/-- `tfunction`, filled in. -/
def onupdateFunctionText (schemaName utablename uname name expr : String) : String :=
  s!"CREATE OR REPLACE FUNCTION {schemaName}{utablename}_update_{uname}()\n" ++
  "RETURNS TRIGGER AS $$\n" ++
  "BEGIN\n" ++
  s!"   NEW.{name} = {expr}; \n" ++
  "   RETURN NEW;\n" ++
  "END;\n" ++
  "$$ language 'plpgsql';\n"

/-- `ttrigger`, filled in. -/
def onupdateTriggerText (schemaName tablename utablename uname : String) : String :=
  s!"CREATE TRIGGER {utablename}_update_{uname}_trigger BEFORE UPDATE\n" ++
  s!"   ON {schemaName}{tablename} FOR EACH ROW EXECUTE PROCEDURE " ++
  s!"{schemaName}{utablename}_update_{uname}();\n"

/-- The expression of an ON UPDATE clause: every token but ON and UPDATE between blanks. -/
def onupdateExpr (children : List Tree) : String :=
  String.join ((children.filter fun child =>
    child.getType != .kOn && child.getType != .kUpdate).map fun child => s!" {child.getText} ")

/-- The function and trigger appended for one ON UPDATE clause. -/
def onupdateText (schemaName tablename name : String) (children : List Tree) : String :=
  onupdateFunctionText schemaName (unquote tablename) (unquote name) name (onupdateExpr children) ++
    onupdateTriggerText schemaName tablename (unquote tablename) (unquote name)

def createTableRewriteOnupdate (ws : WalkerState) (base : List Tree) :
    Option (WalkerState × List Tree) := do
  let tablename ← createTableTablename base
  whileFound .tCreateTableColumnDef (fun defpos ws base => do
    let columnDef ← base[defpos]?
    let (ws, children) ← whileFound .tCreateTableOnupdate (fun pos ws children => do
      let ntree ← children[0]?
      let tree ← children[pos]?
      -- The deletion moves the next child to `pos`, and the loop goes on at `pos + 1`.
      some (pos + 1, ws.append (onupdateText ws.schemaName tablename ntree.getText tree.children),
        children.eraseIdx pos)) ws columnDef.children
    some (defpos + 1, ws, base.set defpos (columnDef.withChildren children))) ws base

/-- Delete the first NOT that a NULL follows, and that NULL. -/
def deleteNotNull : List Tree → List Tree
  | child :: next :: rest =>
    if child.getType = .kNot ∧ next.getType = .kNull then rest
    else child :: deleteNotNull (next :: rest)
  | children => children

def createRewriteStupidDate (ws : WalkerState) (base : List Tree) :
    Option (WalkerState × List Tree) :=
  whileFound .tCreateTableColumnDef (fun defpos ws base => do
    let columnDef ← base[defpos]?
    let pos1 := lookAheadDown columnDef.children 0 .stupidMysqlDate
    let pos2 := lookAheadDown columnDef.children 0 .stupidMysqlTimestamp
    if pos1.isNone ∧ pos2.isNone then some (defpos + 1, ws, base)
    else some (defpos + 1, ws,
      base.set defpos (columnDef.withChildren (deleteNotNull columnDef.children)))) ws base

/-- The START value: the NUMBER of the first option `AUTO_INCREMENT = n`, and 1 without one. -/
def autoincstart (tree : List Tree) : (fuel lastpos : ℕ) → Option String
  | 0, _ => none
  | fuel + 1, lastpos =>
    match lookAheadIndex tree lastpos .tCreateTableOptions with
    | none | some 0 => some "1"
    | some optpos => do
      let options := ((← tree[optpos]?).children)
      if options.length ≥ 2 then
        let autoinc ← options[0]?
        let equals ← options[1]?
        if autoinc.getType = .kAutoIncrement ∧ equals.getType = .eq then
          let number ← options[2]?
          if number.getType = .number then some number.getText
          else autoincstart tree fuel (optpos + 1)
        else autoincstart tree fuel (optpos + 1)
      else autoincstart tree fuel (optpos + 1)

/-- The name of the sequence of an AUTO_INCREMENT column. -/
def sequenceName (tablename column : String) : String :=
  s!"{unquote tablename}_{unquote column}_seq"

def createSequenceText (schemaName sequence start : String) : String :=
  s!"CREATE SEQUENCE {schemaName}{sequence} START {start} ;\n"

def setDefaultText (schemaName tablename column sequence : String) : String :=
  s!"ALTER TABLE {schemaName}{tablename} ALTER COLUMN {column} SET DEFAULT NEXTVAL " ++
  s!"( '{schemaName}{sequence}' ) ;\n"

/-- The sequence and the column default appended for one AUTO_INCREMENT column. -/
def autoIncText (schemaName tablename column start : String) : String :=
  createSequenceText schemaName (sequenceName tablename column) start ++
    setDefaultText schemaName tablename column (sequenceName tablename column)

def createTableRewriteAutoInc (ws : WalkerState) (tree : List Tree) :
    Option (WalkerState × List Tree) := do
  let tablename ← createTableTablename tree
  whileFound .tCreateTableColumnDef (fun pos ws tree => do
    let child ← tree[pos]?
    match lookAheadIndex child.children 0 .kAutoIncrement with
    | none => some (pos + 1, ws, tree)
    | some incpos =>
      let id ← child.children[0]?
      let start ← autoincstart tree (tree.length + 1) 0
      some (pos + 1, ws.append (autoIncText ws.schemaName tablename id.getText start),
        tree.set pos (child.withChildren (child.children.eraseIdx incpos)))) ws tree

/-! ## Passes that delete elements -/

/-- What the scan of an index definition has found: its name, the column list built so far and the
first column in it. -/
structure IndexScan where
  name : Option String
  columns : String
  firstcolumn : Option String
deriving DecidableEq, Repr

/-- One child of an index definition. An ID is the name as long as no column has been built. -/
def IndexScan.step (scan : IndexScan) (index : Tree) : IndexScan :=
  if index.getType = .id then
    if scan.name = none ∧ scan.columns = "" then { scan with name := some index.getText }
    else
      { scan with
        columns := (if scan.columns = "" then "" else scan.columns ++ ", ") ++ index.getText
        firstcolumn := scan.firstcolumn.or (some index.getText) }
  else if index.getType = .kAsc ∨ index.getType = .kDesc then
    { scan with columns := scan.columns ++ s!" {index.getText}" }
  else scan

def indexScan (children : List Tree) : IndexScan :=
  children.foldl IndexScan.step ⟨none, "", none⟩

/-- The statement appended for one index definition. -/
def indexText (schemaName tablename name : String) (indexType : Option String)
    (columns : String) : String :=
  let utablename := unquote tablename
  let uname := unquote name
  "CREATE INDEX " ++ s!"{utablename}_{uname}_index ON {schemaName}{tablename} " ++
  (match indexType with
    | some indexType => s!" USING {indexType} "
    | none => "") ++
  s!" ( {columns} ) ;\n"

/-- The statement with its name and its column list apart from the rest. -/
theorem indexText_eq (schemaName tablename name : String) (indexType : Option String)
    (columns : String) : indexText schemaName tablename name indexType columns =
      "CREATE INDEX " ++ (unquote tablename ++ "_" ++ unquote name ++ "_index") ++ " ON " ++
        schemaName ++ tablename ++
          (" " ++ (indexType.elim "" fun indexType => s!" USING {indexType} ") ++ " ( ") ++
            (columns ++ " ) ;\n") := by
  have opens : "_index ON " = "_index" ++ " ON " := by decide
  cases indexType <;>
  · unfold indexText
    rw [opens]
    simp only [toString, Option.elim_none, Option.elim_some, String.append_assoc,
      -String.reduceAppend]

/-- The child behind USING, if there is a USING. -/
def indexTypeOf (children : List Tree) : Option (Option String) :=
  match lookAheadIndex children 0 .kUsing with
  | none => some none
  | some p => (children[p + 1]?).map fun indexChild => some indexChild.getText

def createTableIndex (ws : WalkerState) (base : List Tree) : Option (WalkerState × List Tree) := do
  let tablename ← createTableTablename base
  whileFound .tCreateTableIndex (fun pos ws base => do
    let child ← base[pos]?
    let indexType ← indexTypeOf child.children
    let scan := indexScan child.children
    let name ← scan.name.or scan.firstcolumn
    let ws := ws.append (indexText ws.schemaName tablename name indexType scan.columns)
    let base := base.eraseIdx pos
    -- `getChild(base, -1)` is NULL
    if pos = 0 then none
    else
      let comma ← base[pos - 1]?
      some (0, ws, if comma.getType = .comma then base.eraseIdx (pos - 1) else base)) ws base

def createTableFulltextIndex (ws : WalkerState) (base : List Tree) :
    Option (WalkerState × List Tree) :=
  whileFound .tCreateTableFulltextIndex (fun pos ws base => do
    let base := base.eraseIdx pos
    if pos - 1 > 0 then
      let comma ← base[pos - 1]?
      some (pos, ws, if comma.getType = .comma then base.eraseIdx (pos - 1) else base)
    else some (pos, ws, base)) ws base

/-- The texts of the constraint's tokens; a nil child has no token to read. -/
def fkeyTokens : List Tree → Option String
  | [] => some ""
  | tokenTree :: rest => do
    let token ← tokenTree.token
    let tail ← fkeyTokens rest
    some (s!" {token.text}" ++ tail)

/-- The statement appended for one foreign key. -/
def fkeyText (tablename tokens : String) : String :=
  s!"ALTER TABLE {tablename} ADD" ++ tokens ++ ";\n"

def createTableRewriteFkey (ws : WalkerState) (tree : List Tree) :
    Option (WalkerState × List Tree) :=
  -- `%s` prints a NULL name as `(null)`
  let tablename := (createTableTablename tree).getD "(null)"
  whileFound .tCreateTableFkey (fun pos ws tree => do
    let fkey ← tree[pos]?
    let tokens ← fkeyTokens fkey.children
    let ws := ws.append (fkeyText tablename tokens)
    let tree := tree.eraseIdx pos
    if pos = 0 then none
    else
      let comma ← tree[pos - 1]?
      some (0, ws, if comma.getType = .comma then tree.eraseIdx (pos - 1) else tree)) ws tree

def createTableRemoveTableOptions (ws : WalkerState) (base : List Tree) :
    Option (WalkerState × List Tree) :=
  whileFound .tCreateTableOptions (fun pos ws base => some (pos, ws, base.eraseIdx pos)) ws base

/-- All passes, in the source's order. -/
def createTableWorker (ws : WalkerState) (tree : Tree) : Option (WalkerState × Tree) := do
  let (ws, base) ← createRewriteEnum ws tree.children
  let base := createRewriteDatatypes base
  let (ws, base) ← createTableRewriteOnupdate ws base
  let (ws, base) ← createRewriteStupidDate ws base
  let (ws, base) ← createTableIndex ws base
  let (ws, base) ← createTableRewriteAutoInc ws base
  let (ws, base) ← createTableFulltextIndex ws base
  let (ws, base) ← createTableRewriteFkey ws base
  let (ws, base) ← createTableRemoveTableOptions ws base
  some (ws, tree.withChildren base)

end Pgify.Model
