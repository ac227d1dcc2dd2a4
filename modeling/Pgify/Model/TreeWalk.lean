import Pgify.Model.CreateTable

/-! # The tree walk

`treeWalkWorker` visits the children of a node in order, each after its own descendants, and hands a
child to the worker of its type. Workers change the child they are given and the walker state.
-/

namespace Pgify.Model

/-- `show_tables`, with its columns, schema and filter filled in. -/
def showTablesText (columns schema filter : String) : String :=
  s!"SELECT {columns}\n" ++
  "  FROM ( SELECT table_name AS tables,\n" ++
  "                'BASE TABLE' AS table_type\n" ++
  "           FROM information_schema.tables\n" ++
  s!"          WHERE table_schema = {schema}\n" ++
  "          UNION SELECT table_name,\n" ++
  "                'VIEW'\n" ++
  "           FROM information_schema.views\n" ++
  s!"          WHERE table_schema = {schema}\n" ++
  "          ORDER BY 1 ) sub\n" ++
  s!"{filter}\n"

/-- `show_columns`, with its columns, table, schema and filter filled in. -/
def showColumnsText (columns table schema filter : String) : String :=
  s!"SELECT {columns} FROM (\n" ++
  "SELECT c.column_name AS field,\n" ++
  "       udt_name || COALESCE ( '(' || character_maximum_length || ')', '' ) AS TYPE,\n" ++
  "       current_setting ( 'LC_COLLATE' ) AS collation,\n" ++
  "       is_nullable AS NULL,\n" ++
  "       ( SELECT CASE WHEN count ( * ) > 0 THEN 'PRI'\n" ++
  "\t\t     ELSE ''\n" ++
  "\t\tEND\n" ++
  "           FROM information_schema.key_column_usage u\n" ++
  "          WHERE c.table_catalog = u.table_catalog\n" ++
  "            AND c.table_schema = u.table_schema\n" ++
  "            AND c.column_name = u.column_name ) AS KEY,\n" ++
  "       column_default AS DEFAULT,\n" ++
  "       '' AS extra,\n" ++
  "       ( SELECT array_to_string ( array_agg ( cp.privilege_type::text ), ',' )\n" ++
  "           FROM information_schema.column_privileges cp\n" ++
  "          WHERE c.table_catalog = cp.table_catalog\n" ++
  "            AND c.table_schema = cp.table_schema\n" ++
  "            AND c.column_name = cp.column_name ) AS priv,\n" ++
  "       '' AS comment\n" ++
  "  FROM information_schema.COLUMNS c\n" ++
  " WHERE c.table_catalog = current_database ( )\n" ++
  s!"   AND c.table_name = '{table}'\n" ++
  s!"   AND c.table_schema = {schema}\n" ++
  " ORDER BY c.ordinal_position ) SUB\n" ++
  s!"{filter}\n"

/-- Remove the first child of the type; `deleteChild(-1)` removes nothing. -/
def deleteFirst (lookfor : TokenType) (base : List Tree) : List Tree :=
  match lookAheadIndex base 0 lookfor with
  | some pos => base.eraseIdx pos
  | none => base

/-- The unquoted lower-cased name under the first T_SHOW_FROM, and the children without that
node. -/
def takeShowFrom (rt : Runtime) (base : List Tree) : Option (Option String × List Tree) :=
  match lookAheadIndex base 0 .tShowFrom with
  | none => some (none, base)
  | some pos => do
    let fromchild ← base[pos]?
    let child ← fromchild.children[0]?
    some (some (unquote (getLowerText rt child)), base.eraseIdx pos)

/-- Set the text of the first child of the type. -/
def retextFirst (lookfor : TokenType) (text : String) (base : List Tree) : Option (List Tree) := do
  let pos ← lookAheadIndex base 0 lookfor
  let child ← base[pos]?
  some (base.set pos (child.setText text))

def showTablesRewrite (rt : Runtime) (base : List Tree) : Option (List Tree) := do
  let (unquoted, base) ← takeShowFrom rt base
  let schema := match unquoted with
    | some unquoted => s!"\"{unquoted}\""
    | none => "current_schema()"
  let filter := if (lookAheadIndex base 0 .tShowLike).isSome then "WHERE sub.tables " else ""
  let full := (lookAheadIndex base 0 .kFull).isSome
  let columns := if full then "sub.tables, sub.table_type" else "sub.tables"
  let base := deleteFirst .kFull base
  let base ← retextFirst .kShow (showTablesText columns schema filter) base
  some (deleteFirst .kTables base)

def showColumnsRewrite (rt : Runtime) (base : List Tree) : Option (List Tree) := do
  let full := (lookAheadIndex base 0 .kFull).isSome
  let columns := if full then "*" else "field, type, \"null\", key, \"default\", extra"
  let base := deleteFirst .kFull base
  let (table, base) ← takeShowFrom rt base
  let (unquoted, base) ← takeShowFrom rt base
  let schema := match unquoted with
    | some unquoted => s!"'{unquoted}'"
    | none => "current_schema()"
  let filter := if (lookAheadIndex base 0 .tShowLike).isSome then "WHERE sub.field " else ""
  let statement := showColumnsText columns (table.getD "") schema filter
  some ((retextFirst .kShow statement base).getD base)

/-- Retext USE, remember the first ID as the schema prefix and extend that ID to a search path. -/
def useDatabaseWorker (ws : WalkerState) (tree : List Tree) : WalkerState × List Tree :=
  match retextFirst .kUse "SET search_path TO" tree with
  | none => (ws, tree)
  | some tree =>
    match lookAheadIndex tree 0 .id with
    | none => (ws, tree)
    | some pos =>
      match tree[pos]? with
      | none => (ws, tree)
      | some schema =>
        ({ ws with schemaName := s!"{schema.getText}." },
          tree.set pos (schema.setText (schema.getText ++ ",public")))

/-- Empty the node's text and delete its children. -/
def lockTablesWorker (tree : Tree) : Tree :=
  (tree.setText "").withChildren []

def versionSql : String :=
  " ( select character_value from information_schema.sql_implementation_info " ++
  "where implementation_info_name = 'DBMS VERSION') "

def asciiLower (string : String) : String :=
  String.ofList (string.toList.map Char.toLower)

/-- `pos` is read before it is assigned: the search starts at an indeterminate index. -/
def rewriteServerVariables (rt : Runtime) (tree : List Tree) : Option (List Tree) :=
  match lookAheadDown tree rt.indeterminate .id with
  | none => some tree
  | some pos => do
    let child ← tree[pos]?
    let ustr := asciiLower (unquote child.getText)
    if ustr = "version" ∨ ustr = "version_comment" then
      let _ ← child.token
      some (tree.set pos (child.setText versionSql))
    else some tree

def ifText (s1 s2 s3 : String) : String :=
  s!"case when ( {s1} ) is of (int) then case when {s1} then {s2} else {s3} end else case when " ++
  s!"( {s1} )::text is not null then ( {s2} )::text else ( {s3} )::text end end"

/-- The first argument node takes the text; the node at index 1 is deleted twice. -/
def rewriteIfFunction (tree : List Tree) : Option (List Tree) := do
  let expr1 ← tree[0]?
  let expr2 ← tree[1]?
  let expr3 ← tree[2]?
  let _ ← expr1.token
  let retexted := expr1.setText (ifText expr1.getText expr2.getText expr3.getText)
  some (((tree.set 0 retexted).eraseIdx 1).eraseIdx 1)

def rewriteFoundRows (ws : WalkerState) (tree : Tree) : Tree :=
  tree.setText s!"{ws.foundRows} AS \"found_rows()\""

/-- Hand a child to the worker of its type. -/
def dispatch (rt : Runtime) (ws : WalkerState) (child : Tree) : Option (WalkerState × Tree) :=
  match child.getType with
  | .tCreateTable => createTableWorker ws child
  | .tUseDatabase =>
    let (ws, children) := useDatabaseWorker ws child.children
    some (ws, child.withChildren children)
  | .tLockTable => some (ws, lockTablesWorker child)
  | .tServerVariable =>
    (rewriteServerVariables rt child.children).map fun children => (ws, child.withChildren children)
  | .tShowTables =>
    (showTablesRewrite rt child.children).map fun children => (ws, child.withChildren children)
  | .tShowColumns =>
    (showColumnsRewrite rt child.children).map fun children => (ws, child.withChildren children)
  | .tFunctionIf =>
    (rewriteIfFunction child.children).map fun children => (ws, child.withChildren children)
  | .kFoundRows => some (ws, rewriteFoundRows ws child)
  | _ => some (ws, child)

mutual

/-- Walk the children of a node; the node itself is its parent's business. -/
def treeWalkWorker (rt : Runtime) : WalkerState → Tree → Option (WalkerState × Tree)
  | ws, .node token children => do
    let (ws, children) ← walkChildren rt ws children
    some (ws, .node token children)

/-- Each child after its own descendants, with the state left by the children before it. -/
def walkChildren (rt : Runtime) : WalkerState → List Tree → Option (WalkerState × List Tree)
  | ws, [] => some (ws, [])
  | ws, child :: rest => do
    let (ws, child) ← treeWalkWorker rt ws child
    let (ws, child) ← dispatch rt ws child
    let (ws, rest) ← walkChildren rt ws rest
    some (ws, child :: rest)

end

/-- The turn of the loop for one child: its descendants first, then its own worker. -/
def walkChild (rt : Runtime) (ws : WalkerState) (child : Tree) : Option (WalkerState × Tree) :=
  (treeWalkWorker rt ws child).bind fun (ws, child) => dispatch rt ws child

theorem walkChildren_nil (rt : Runtime) (ws : WalkerState) :
    walkChildren rt ws [] = some (ws, []) := by
  rw [walkChildren]

theorem walkChildren_cons (rt : Runtime) (ws : WalkerState) (child : Tree) (rest : List Tree) :
    walkChildren rt ws (child :: rest) =
      (walkChild rt ws child).bind fun (ws, child) =>
        (walkChildren rt ws rest).map fun (ws, rest) => (ws, child :: rest) := by
  rw [walkChildren, walkChild]
  cases treeWalkWorker rt ws child with
  | none => rfl
  | some walked =>
    simp only [Option.bind_eq_bind, Option.bind_some]
    cases dispatch rt walked.1 walked.2 with
    | none => rfl
    | some dispatched =>
      simp only [Option.bind_some]
      cases walkChildren rt dispatched.1 rest <;> rfl

/-- Walking a sequence of children is walking its parts one after the other. -/
theorem walkChildren_append (rt : Runtime) (ws : WalkerState) (first second : List Tree) :
    walkChildren rt ws (first ++ second) =
      (walkChildren rt ws first).bind fun (ws, first) =>
        (walkChildren rt ws second).map fun (ws, second) => (ws, first ++ second) := by
  induction first generalizing ws with
  | nil => simp [walkChildren]
  | cons child rest ih =>
    simp only [List.cons_append, walkChildren_cons]
    cases walkChild rt ws child with
    | none => rfl
    | some walked =>
      simp only [Option.bind_some, ih]
      cases walkChildren rt walked.1 rest with
      | none => rfl
      | some walkedRest =>
        simp only [Option.bind_some, Option.map_some, Option.map_map]
        rfl

end Pgify.Model
