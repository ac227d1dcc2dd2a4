import Pgify.Lib.PostgresTokens
import Pgify.Proofs.Backquotes
import Pgify.Proofs.IndexColumns
import Pgify.Proofs.Names
import Pgify.Proofs.ShowRewrites

/-! # Names in generated statements

Every statement that is generated for a name is split into fixed pieces and the tokens that names
are put into: the name as it stands, unquoted names in one word, a name inside a string literal, and
the name of a column in the body of a trigger function.
-/

namespace Pgify.Splices

open Model PostgresScan PostgresTokens

/-! ## The texts of identifiers -/

/-- What the lexer gives an ID for its text: a word, or anything between double quotes. -/
inductive IdText : List Char → Prop
  | word {first : Char} {rest : List Char} (letter : first.toUpper.isUpper = true)
      (word : ∀ c ∈ rest, (c.toUpper.isUpper || c.isDigit || c ∈ ['_', '$', '#']) = true) :
      IdText (first :: rest)
  | quoted (content : List Char) : IdText ('"' :: content ++ ['"'])

abbrev IdName := { text : String // IdText text.toList }

/-- A key with identifiers of the lexer for its columns. -/
structure LexedKey where
  key : IndexKey
  columns : ∀ column ∈ key.columns.columns, IdText column.name.1.text.toList

abbrev LexedToken := { token : Token // token.type = .id → IdText token.text.toList }

/-- The children of an ON UPDATE clause. -/
abbrev LexedClause :=
  { clause : List Tree // ∀ child ∈ clause, child.getType = .id → IdText child.getText.toList }

/-! ## The statements -/

/-- The statements that names are put into. -/
inductive Splicing where
  | onupdate (schema : Option IdName) (tablename column : IdName) (clause : LexedClause)
  | index (schema : Option IdName) (tablename : IdName) (key : LexedKey)
  | autoInc (schema : Option IdName) (tablename column : IdName) (start : String)
  | fkey (tablename : IdName) (tokens : List LexedToken)
  | showTables (columns filter : String) (schema : IdName)
  | showColumns (columns filter : String) (table : IdName) (schema : Option IdName)

/-- What a USE statement leaves for the schema name. -/
def schemaPrefix (schema : Option IdName) : String :=
  schema.elim "" fun name => s!"{name.1}."

/-- The name in a query on the catalog. -/
def shown (rt : Runtime) (name : IdName) : String :=
  unquote (rt.utf8Strdown name.1)

def Splicing.text (rt : Runtime) : Splicing → String
  | onupdate schema tablename column clause =>
    onupdateText (schemaPrefix schema) tablename.1 column.1 clause.1
  | index schema tablename key => (key.key.generated (schemaPrefix schema) tablename.1).text
  | autoInc schema tablename column start =>
    autoIncText (schemaPrefix schema) tablename.1 column.1 start
  | fkey tablename tokens => fkeyText tablename.1 (fkeyTokensText (tokens.map Subtype.val))
  | showTables columns filter schema =>
    showTablesText columns s!"\"{shown rt schema}\"" filter
  | showColumns columns filter table schema =>
    showColumnsText columns (shown rt table)
      (schema.elim "current_schema()" fun name => s!"'{shown rt name}'") filter

/-! ## Their pieces -/

/-- Unquoted names in one word. -/
def joined (table part separator ending : String) : String :=
  unquote table ++ separator ++ unquote part ++ ending

def schemaPieces (schema : Option IdName) : List Piece :=
  schema.elim [] fun name => [.identifier name.1, .fixed "."]

def orderText (column : KeyColumn) : String :=
  column.order.elim "" fun order => s!" {order.1.text}"

/-- Columns up to the end of the list. -/
def columnPieces (column : KeyColumn) : List KeyColumn → List Piece
  | [] => [.identifier column.name.1.text, .fixed (orderText column ++ " ) ;\n")]
  | next :: rest =>
    .identifier column.name.1.text :: .fixed (orderText column ++ ", ") :: columnPieces next rest

/-- The columns of an index that are left for its list: without a name the first is not. -/
def listed (key : IndexKey) : List KeyColumn :=
  if key.name.isSome then key.columns.columns else key.columns.rest.map Prod.snd

/-- The list of an index; what is left of a first column that is taken for the name is its order. -/
def keyPieces (key : IndexKey) : List Piece :=
  if key.name.isSome then columnPieces key.columns.first (key.columns.rest.map Prod.snd)
  else
    match key.columns.rest.map Prod.snd with
    | [] => [.fixed (orderText key.columns.first ++ " ) ;\n")]
    | column :: rest =>
      .fixed (if orderText key.columns.first = "" then "" else
        orderText key.columns.first ++ ", ") :: columnPieces column rest

def methodText (key : IndexKey) : String :=
  (key.typeBefore.or key.typeAfter).elim "" fun indexType => s!" USING {indexType.method.1.text} "

/-- The name of a key, or of its first column. -/
def keyName (key : IndexKey) : String :=
  (key.name.getD key.columns.first.name).1.text

def tokenPiece (type : TokenType) (text : String) : Piece :=
  if type = .id then .identifier text else .fixed text

def tokenPieces : List LexedToken → List Piece
  | [] => []
  | token :: rest => .fixed " " :: tokenPiece token.1.type token.1.text :: tokenPieces rest

/-- The children that are printed for the new value. -/
def updateTerms (clause : List Tree) : List Tree :=
  clause.filter fun child => child.getType != .kOn && child.getType != .kUpdate

def termPieces : List Tree → List Piece
  | [] => []
  | child :: rest =>
    .fixed " " :: tokenPiece child.getType child.getText :: .fixed " " :: termPieces rest

/-- The body of the trigger function, between the dollar signs. -/
def bodyPieces (column : String) (clause : List Tree) : List Piece :=
  .fixed ("\n" ++ "BEGIN\n" ++ "   NEW.") :: .identifier column :: .fixed " = " ::
    termPieces (updateTerms clause) ++
      [.fixed ("; \n" ++ "   RETURN NEW;\n" ++ "END;\n")]

/-- `current_schema()` or a literal. -/
def operandPiece (rt : Runtime) (schema : Option IdName) : Piece :=
  schema.elim (.fixed "current_schema()") fun name => .literal s!"'{shown rt name}'"

/-- The query for columns up to the name of the table. -/
def columnsFront (columns : String) : String :=
  s!"SELECT {columns} FROM (\n" ++
  "SELECT c.column_name AS field,\n" ++
  "       udt_name || COALESCE ( '(' || character_maximum_length || ')', '' ) AS TYPE,\n" ++
  "       current_setting ( 'LC_COLLATE' ) AS collation,\n" ++
  "       is_nullable AS NULL,\n" ++
  "       ( SELECT CASE WHEN count ( * ) > 0 THEN 'PRI'\n" ++
  "\t\t     ELSE ''\n" ++
  "\t\tEND\n" ++
  "           FROM information_schema.key_column_usage u\n" ++
  "          WHERE c.table_catalog = u.table_catalog\n" ++
  "            AND c.table_schema = u.table_schema\n" ++
  "            AND c.column_name = u.column_name ) AS KEY,\n" ++
  "       column_default AS DEFAULT,\n" ++
  "       '' AS extra,\n" ++
  "       ( SELECT array_to_string ( array_agg ( cp.privilege_type::text ), ',' )\n" ++
  "           FROM information_schema.column_privileges cp\n" ++
  "          WHERE c.table_catalog = cp.table_catalog\n" ++
  "            AND c.table_schema = cp.table_schema\n" ++
  "            AND c.column_name = cp.column_name ) AS priv,\n" ++
  "       '' AS comment\n" ++
  "  FROM information_schema.COLUMNS c\n" ++
  " WHERE c.table_catalog = current_database ( )\n" ++
  "   AND c.table_name = "

def Splicing.pieces (rt : Runtime) : Splicing → List Piece
  | onupdate schema tablename column clause =>
    .fixed "CREATE OR REPLACE FUNCTION " :: schemaPieces schema ++
      [.identifier (joined tablename.1 column.1 "_update_" ""),
        .fixed ("()\n" ++ "RETURNS TRIGGER AS "),
        .literal ("$$" ++ textOf (bodyPieces column.1 clause.1) ++ "$$"),
        .fixed (" language 'plpgsql';\n" ++ "CREATE TRIGGER "),
        .identifier (joined tablename.1 column.1 "_update_" "_trigger"),
        .fixed (" BEFORE UPDATE\n" ++ "   ON ")] ++ schemaPieces schema ++
      [.identifier tablename.1, .fixed " FOR EACH ROW EXECUTE PROCEDURE "] ++
      schemaPieces schema ++
      [.identifier (joined tablename.1 column.1 "_update_" ""), .fixed "();\n"]
  | index schema tablename key =>
    [.fixed "CREATE INDEX ", .identifier (joined tablename.1 (keyName key.key) "_" "_index"),
      .fixed " ON "] ++ schemaPieces schema ++
      [.identifier tablename.1, .fixed (" " ++ methodText key.key ++ " ( ")] ++ keyPieces key.key
  | autoInc schema tablename column start =>
    .fixed "CREATE SEQUENCE " :: schemaPieces schema ++
      [.identifier (joined tablename.1 column.1 "_" "_seq"),
        .fixed (" START " ++ start ++ " ;\n" ++ "ALTER TABLE ")] ++ schemaPieces schema ++
      [.identifier tablename.1, .fixed " ALTER COLUMN ", .identifier column.1,
        .fixed (" SET DEFAULT NEXTVAL " ++ "( "),
        .literal ("'" ++ schemaPrefix schema ++ joined tablename.1 column.1 "_" "_seq" ++ "'"),
        .fixed " ) ;\n"]
  | fkey tablename tokens =>
    [.fixed "ALTER TABLE ", .identifier tablename.1, .fixed " ADD"] ++ tokenPieces tokens ++
      [.fixed ";\n"]
  | showTables columns filter schema =>
    [.fixed (s!"SELECT {columns}\n" ++
        "  FROM ( SELECT table_name AS tables,\n" ++
        "                'BASE TABLE' AS table_type\n" ++
        "           FROM information_schema.tables\n" ++
        "          WHERE table_schema = "),
      .identifier s!"\"{shown rt schema}\"",
      .fixed ("\n" ++ "          UNION SELECT table_name,\n" ++
        "                'VIEW'\n" ++
        "           FROM information_schema.views\n" ++
        "          WHERE table_schema = "),
      .identifier s!"\"{shown rt schema}\"",
      .fixed ("\n" ++ "          ORDER BY 1 ) sub\n" ++ s!"{filter}\n")]
  | showColumns columns filter table schema =>
    [.fixed (columnsFront columns), .literal s!"'{shown rt table}'",
      .fixed ("\n" ++ "   AND c.table_schema = "), operandPiece rt schema,
      .fixed ("\n" ++ " ORDER BY c.ordinal_position ) SUB\n" ++ s!"{filter}\n")]

/-! ## The pieces of a statement are its text -/

theorem textOf_schemaPieces (schema : Option IdName) :
    textOf (schemaPieces schema) = schemaPrefix schema := by
  cases schema with
  | none => rfl
  | some name => simp [schemaPieces, schemaPrefix, textOf, Piece.text, toString]

theorem text_tokenPiece (type : TokenType) (text : String) :
    (tokenPiece type text).text = text := by
  rw [tokenPiece]
  split <;> rfl

theorem textOf_tokenPieces (tokens : List LexedToken) :
    textOf (tokenPieces tokens) = fkeyTokensText (tokens.map Subtype.val) := by
  induction tokens with
  | nil => rfl
  | cons token rest ih =>
    have more : fkeyTokensText ((token :: rest).map Subtype.val) =
        " " ++ token.1.text ++ fkeyTokensText (rest.map Subtype.val) := by
      simp [fkeyTokensText, toString, String.append_assoc]
    rw [more, ← ih, tokenPieces, textOf, textOf, text_tokenPiece, String.append_assoc]
    rfl

theorem textOf_termPieces (terms : List Tree) :
    textOf (termPieces terms) = String.join (terms.map fun child => s!" {child.getText} ") := by
  induction terms with
  | nil => rfl
  | cons child rest ih =>
    rw [termPieces, textOf, textOf, textOf, text_tokenPiece, ih]
    simp [Piece.text, toString, String.append_assoc]

theorem textOf_body (column : String) (clause : List Tree) :
    textOf (bodyPieces column clause) = "\n" ++ "BEGIN\n" ++ "   NEW." ++ column ++ " = " ++
      onupdateExpr clause ++ "; \n" ++ "   RETURN NEW;\n" ++ "END;\n" := by
  have terms : textOf (termPieces (updateTerms clause)) = onupdateExpr clause :=
    textOf_termPieces _
  rw [bodyPieces]
  simp only [textOf_append, textOf, Piece.text, terms, String.append_assoc, String.append_empty,
    List.cons_append, -String.reduceAppend]

theorem textOf_onupdate (schema : Option IdName) (tablename column : IdName) (clause : LexedClause)
    (rt : Runtime) : (Splicing.onupdate schema tablename column clause).text rt =
      textOf ((Splicing.onupdate schema tablename column clause).pieces rt) := by
  have line : s!"   NEW.{column.1} = {onupdateExpr clause.1}; \n" =
      "   NEW." ++ column.1 ++ " = " ++ onupdateExpr clause.1 ++ "; \n" := rfl
  have opens : "RETURNS TRIGGER AS $$\n" = "RETURNS TRIGGER AS " ++ "$$" ++ "\n" := by decide
  have closes : "$$ language 'plpgsql';\n" = "$$" ++ " language 'plpgsql';\n" := by decide
  have trigger : "_trigger BEFORE UPDATE\n" = "_trigger" ++ " BEFORE UPDATE\n" := by decide
  unfold Splicing.text onupdateText onupdateFunctionText onupdateTriggerText
  rw [opens, closes, trigger]
  unfold Splicing.pieces
  simp only [textOf_append, textOf_schemaPieces, textOf, Piece.text, textOf_body, joined, toString,
    String.append_assoc, String.append_empty, List.cons_append, -String.reduceAppend]

theorem textOf_autoInc (schema : Option IdName) (tablename column : IdName) (start : String)
    (rt : Runtime) : (Splicing.autoInc schema tablename column start).text rt =
      textOf ((Splicing.autoInc schema tablename column start).pieces rt) := by
  have opens : "( '" = "( " ++ "'" := by decide
  have closes : "' ) ;\n" = "'" ++ " ) ;\n" := by decide
  unfold Splicing.text autoIncText createSequenceText setDefaultText sequenceName
  rw [opens, closes]
  unfold Splicing.pieces
  simp only [textOf_append, textOf_schemaPieces, textOf, Piece.text, joined, toString,
    String.append_assoc, String.append_empty, List.cons_append, -String.reduceAppend]

theorem textOf_showTables (columns filter : String) (schema : IdName) (rt : Runtime) :
    (Splicing.showTables columns filter schema).text rt =
      textOf ((Splicing.showTables columns filter schema).pieces rt) := by
  unfold Splicing.text showTablesText Splicing.pieces
  simp only [textOf, Piece.text, toString, String.append_assoc, String.append_empty,
    -String.reduceAppend]

theorem textOf_showColumns (columns filter : String) (table : IdName) (schema : Option IdName)
    (rt : Runtime) : (Splicing.showColumns columns filter table schema).text rt =
      textOf ((Splicing.showColumns columns filter table schema).pieces rt) := by
  have opens : "   AND c.table_name = '" = "   AND c.table_name = " ++ "'" := by decide
  have closes : "'\n" = "'" ++ "\n" := by decide
  have operand : (schema.elim "current_schema()" fun name => s!"'{shown rt name}'") =
      (operandPiece rt schema).text := by
    cases schema <;> rfl
  have text : (Splicing.showColumns columns filter table schema).text rt =
      showColumnsText columns (shown rt table)
        (schema.elim "current_schema()" fun name => s!"'{shown rt name}'") filter := rfl
  rw [text, operand]
  unfold showColumnsText Splicing.pieces columnsFront
  rw [opens, closes]
  simp only [textOf, Piece.text, toString, String.append_assoc, String.append_empty,
    -String.reduceAppend]

theorem textOf_fkey (tablename : IdName) (tokens : List LexedToken) (rt : Runtime) :
    (Splicing.fkey tablename tokens).text rt =
      textOf ((Splicing.fkey tablename tokens).pieces rt) := by
  unfold Splicing.text fkeyText Splicing.pieces
  simp only [textOf_append, textOf_tokenPieces, textOf, Piece.text, toString, String.append_assoc,
    String.append_empty, -String.reduceAppend]

theorem IdText.ne_nil {text : List Char} (lexed : IdText text) : text ≠ [] := by
  cases lexed with
  | word => simp
  | quoted => simp

theorem LexedKey.spelled (key : LexedKey) : key.key.Spelled := by
  intro column member empty
  have lexed := key.columns column member
  rw [empty] at lexed
  exact lexed.ne_nil rfl

theorem textOf_columnPieces (column : KeyColumn) (rest : List KeyColumn) :
    textOf (columnPieces column rest) =
      ", ".intercalate (column.text :: rest.map KeyColumn.text) ++ " ) ;\n" := by
  have own (column : KeyColumn) : column.text = column.name.1.text ++ orderText column := rfl
  induction rest generalizing column with
  | nil => simp [columnPieces, textOf, Piece.text, own, String.append_assoc]
  | cons next rest ih =>
    rw [List.map_cons, String.intercalate_cons_cons, own column, columnPieces, textOf, textOf, ih]
    simp only [Piece.text, String.append_assoc]

theorem textOf_keyPieces {key : IndexKey} (spelled : key.Spelled) :
    textOf (keyPieces key) = (indexScan key.children).columns ++ " ) ;\n" := by
  have rest : ∀ column ∈ key.columns.rest.map Prod.snd, column.name.1.text ≠ "" :=
    fun column member => spelled column (List.mem_cons_of_mem _ member)
  rw [keyPieces]
  by_cases named : key.name.isSome = true
  · rw [if_pos named, textOf_columnPieces, IndexColumns.columns_of_named spelled named]
    rfl
  · have unnamed : key.name = none := Option.not_isSome_iff_eq_none.mp named
    have columns := IndexColumns.columns_of_unnamed spelled unnamed
    rw [if_neg named, columns]
    change _ = (key.columns.rest.map Prod.snd).foldl IndexColumns.extended
      (orderText key.columns.first) ++ _
    cases behind : key.columns.rest.map Prod.snd with
    | nil => simp [textOf, Piece.text]
    | cons column more =>
      rw [behind] at rest
      obtain ⟨own, others⟩ := List.forall_mem_cons.mp rest
      by_cases empty : orderText key.columns.first = ""
      · rw [if_pos empty, empty, List.foldl_cons]
        have first : IndexColumns.extended "" column = column.text := by
          simp [IndexColumns.extended]
        rw [first, IndexColumns.foldl_extended (IndexColumns.text_ne_empty own) _ others, textOf,
          textOf_columnPieces]
        exact String.empty_append
      · rw [if_neg empty, IndexColumns.foldl_extended empty _ rest, List.map_cons,
          String.intercalate_cons_cons, textOf, textOf_columnPieces]
        simp only [Piece.text, String.append_assoc]

theorem textOf_index (schema : Option IdName) (tablename : IdName) (key : LexedKey)
    (rt : Runtime) : (Splicing.index schema tablename key).text rt =
      textOf ((Splicing.index schema tablename key).pieces rt) := by
  have method : (((key.key.typeBefore.or key.key.typeAfter).map
      fun indexType => indexType.method.1.text).elim "" fun indexType => s!" USING {indexType} ") =
        methodText key.key := by
    rw [methodText]
    cases key.key.typeBefore.or key.key.typeAfter <;> rfl
  have text : (Splicing.index schema tablename key).text rt =
      indexText (schemaPrefix schema) tablename.1 (keyName key.key)
        ((key.key.typeBefore.or key.key.typeAfter).map fun indexType => indexType.method.1.text)
        (indexScan key.key.children).columns := rfl
  rw [text, indexText_eq, method, ← textOf_keyPieces key.spelled]
  unfold Splicing.pieces
  simp only [textOf_append, textOf_schemaPieces, textOf, Piece.text, joined, String.append_assoc,
    String.append_empty, String.empty_append, List.cons_append, -String.reduceAppend]

/-- The pieces put together are the statement. -/
theorem text_eq (rt : Runtime) (splicing : Splicing) :
    splicing.text rt = textOf (splicing.pieces rt) := by
  cases splicing with
  | onupdate schema tablename column clause =>
    exact textOf_onupdate schema tablename column clause rt
  | index schema tablename key => exact textOf_index schema tablename key rt
  | autoInc schema tablename column start => exact textOf_autoInc schema tablename column start rt
  | fkey tablename tokens => exact textOf_fkey tablename tokens rt
  | showTables columns filter schema => exact textOf_showTables columns filter schema rt
  | showColumns columns filter table schema =>
    exact textOf_showColumns columns filter table schema rt

/-! ## Fixed pieces keep the tokens apart -/

private theorem apart_front {front behind : String} (apart : front ≠ "" ∧ Apart front.toList) :
    front ++ behind ≠ "" ∧ Apart (front ++ behind).toList := by
  refine ⟨fun empty => ?_, apart_append _ apart.1 apart.2⟩
  exact apart.1 (String.append_eq_empty_iff.mp empty).1

private theorem separated_next {piece : Piece} {text : String} {rest : List Piece}
    (apart : text ≠ "" ∧ Apart text.toList) (separated : Separated rest) :
    Separated (piece :: .fixed text :: rest) := by
  cases piece with
  | fixed => exact separated
  | identifier => exact ⟨apart.1, apart.2, separated⟩
  | literal => exact ⟨apart.1, apart.2, separated⟩

private theorem separated_schema (schema : Option IdName) {rest : List Piece}
    (separated : Separated rest) : Separated (schemaPieces schema ++ rest) := by
  cases schema with
  | none => exact separated
  | some name => exact separated_next (by decide) separated

private theorem separated_columns (column : KeyColumn) (rest : List KeyColumn) :
    Separated (columnPieces column rest) := by
  have order (column : KeyColumn) {text : String} (apart : text ≠ "" ∧ Apart text.toList) :
      orderText column ++ text ≠ "" ∧ Apart (orderText column ++ text).toList := by
    rw [orderText]
    cases column.order with
    | none =>
      rw [Option.elim_none, String.empty_append]
      exact apart
    | some order => exact apart_front (apart_front (by decide))
  induction rest generalizing column with
  | nil => exact separated_next (order column (by decide)) trivial
  | cons next rest ih => exact separated_next (order column (by decide)) (ih next)

private theorem separated_key (key : IndexKey) : Separated (keyPieces key) := by
  rw [keyPieces]
  split
  · exact separated_columns _ _
  · split
    · trivial
    · exact separated_columns _ _

private theorem separated_tokens (tokens : List LexedToken) {text : String}
    (apart : text ≠ "" ∧ Apart text.toList) :
    Separated (tokenPieces tokens ++ [.fixed text]) := by
  induction tokens with
  | nil => trivial
  | cons token rest ih =>
    cases rest with
    | nil => exact separated_next apart trivial
    | cons next rest => exact separated_next (by decide) ih

theorem separated_body (column : String) (clause : List Tree) :
    Separated (bodyPieces column clause) := by
  have terms (children : List Tree) (text : String) :
      Separated (termPieces children ++ [.fixed text]) := by
    induction children with
    | nil => trivial
    | cons child rest ih => exact separated_next (by decide) ih
  exact separated_next (by decide) (terms _ _)

theorem separated_pieces (rt : Runtime) (splicing : Splicing) :
    Separated (splicing.pieces rt) := by
  cases splicing with
  | onupdate schema tablename column clause =>
    simp only [Splicing.pieces, List.cons_append, List.nil_append, List.append_assoc]
    refine separated_schema schema (separated_next (by decide) (separated_next (by decide)
      (separated_next (by decide) ?_)))
    exact separated_schema schema (separated_next (by decide)
      (separated_schema schema (separated_next (by decide) trivial)))
  | index schema tablename key =>
    simp only [Splicing.pieces, List.cons_append, List.nil_append, List.append_assoc]
    refine separated_next (by decide) (separated_schema schema (separated_next ?_ ?_))
    · exact apart_front (apart_front (by decide))
    · exact separated_key key.key
  | autoInc schema tablename column start =>
    simp only [Splicing.pieces, List.cons_append, List.nil_append, List.append_assoc]
    refine separated_schema schema (separated_next ?_ ?_)
    · exact apart_front (apart_front (apart_front (by decide)))
    · exact separated_schema schema (separated_next (by decide) (separated_next (by decide)
        (separated_next (by decide) trivial)))
  | fkey tablename tokens =>
    simp only [Splicing.pieces, List.cons_append, List.nil_append]
    exact separated_next (by decide) (separated_tokens tokens (by decide))
  | showTables columns filter schema =>
    refine separated_next ?_ (separated_next (apart_front (by decide)) trivial)
    exact apart_front (apart_front (apart_front (apart_front (by decide))))
  | showColumns columns filter table schema =>
    refine separated_next (by decide) ?_
    cases schema with
    | none => trivial
    | some name => exact separated_next (apart_front (by decide)) trivial

/-! ## Names that are one token -/

section Tokens

variable (reserved : List Char → Bool)

/-- A name is an identifier as it stands: between double quotes it is not empty and has its own
double quotes doubled, and as a word it has no `#` and is not reserved. -/
def Verbatim (text : List Char) : Prop :=
  if text.head? = some '"' then ∃ name ≠ [], text = QuotedName.enclose '"' name
  else '#' ∉ text ∧ reserved text = false

/-- The word of two unquoted names is one identifier. -/
def Raw (table part separator ending : String) : Prop :=
  (∀ c ∈ (unquote table).toList.head?, identStart c = true) ∧
    (∀ c ∈ (unquote table).toList, identCont c = true) ∧
      (∀ c ∈ (unquote part).toList, identCont c = true) ∧
        reserved (joined table part separator ending).toList = false

/-- The single quotes of a name are doubled. -/
def QuotesDoubled (text : List Char) : Prop :=
  ∃ value, text = QuotedName.double '\'' value

/-- Two dollar signs stand nowhere side by side. -/
def NoDollars (text : List Char) : Prop :=
  AdjacentPairs.Absent isDollar isDollar text

instance (text : List Char) : Decidable (NoDollars text) :=
  inferInstanceAs (Decidable (AdjacentPairs.Absent _ _ _))

variable {reserved}

private theorem identStart_of_upper {c : Char} (letter : c.toUpper.isUpper = true) :
    identStart c = true := by
  have alpha : (c.isUpper || c.isLower) = true := by
    by_cases lower : c.isLower = true
    · rw [lower, Bool.or_true]
    · have same : c.toUpper = c := dif_neg fun bounds =>
        lower (Bool.and_eq_true_iff.mpr ⟨decide_eq_true bounds.1, decide_eq_true bounds.2⟩)
      rw [← same, letter, Bool.true_or]
  have starts : identStart c = (c.isUpper || c.isLower || c = '_' || 128 ≤ c.toNat) := rfl
  rw [starts, alpha]
  rfl

private theorem identCont_iff {c : Char}
    (word : (c.toUpper.isUpper || c.isDigit || c ∈ ['_', '$', '#']) = true) :
    identCont c = true ↔ c ≠ '#' := by
  constructor
  · rintro cont rfl
    exact absurd cont (by decide)
  · intro other
    simp only [Bool.or_eq_true, decide_eq_true_eq, List.mem_cons, List.not_mem_nil, or_false]
      at word
    rcases word with (letter | digit) | rfl | rfl | rfl
    · simp [identCont, identStart_of_upper letter]
    · simp [identCont, digit]
    · decide
    · decide
    · exact absurd rfl other

theorem IdText.identifier_iff {text : List Char} (lexed : IdText text) :
    Identifier reserved text ↔ Verbatim reserved text := by
  rw [Verbatim]
  cases lexed with
  | @word first rest letter word =>
    have start := identStart_of_upper letter
    have plain : (first :: rest).head? ≠ some '"' := by
      rintro same
      obtain rfl := Option.some.inj same
      exact absurd start (by decide)
    have noHash : first ≠ '#' := by
      rintro rfl
      exact absurd start (by decide)
    have cont : (∀ c ∈ rest, identCont c = true) ↔ '#' ∉ rest := by
      refine ⟨fun all member => absurd (all _ member) (by decide), fun absent c member => ?_⟩
      exact (identCont_iff (word c member)).mpr fun same => absent (same ▸ member)
    have own : identCont first = true := by simp [identCont, start]
    rw [identifier_word_iff plain, if_neg plain, List.forall_mem_cons, cont]
    simp [start, own, noHash.symm]
  | quoted content =>
    rw [identifier_quoted_iff, if_pos (by rfl)]
    simp only [QuotedName.enclose, List.append_left_inj, List.cons_append, List.cons.injEq,
      true_and]

theorem notMem_unquote {q : Char} (quote : q = '"' ∨ q = '\'') (string : String) :
    q ∉ (unquote string).toList := by
  rcases quote with rfl | rfl <;> simp [unquote]

theorem toList_joined (table part separator ending : String) :
    (joined table part separator ending).toList = (unquote table).toList ++
      (separator.toList ++ ((unquote part).toList ++ ending.toList)) := by
  simp [joined]

/-- Unquoted names are one word with a separator and an ending that are letters and underscores. -/
theorem identifier_joined_iff {table part separator ending : String} (rest : List Char)
    (starts : separator.toList = '_' :: rest) (inner : rest.all identCont = true)
    (last : ending.toList.all identCont = true) :
    Identifier reserved (joined table part separator ending).toList ↔
      Raw reserved table part separator ending := by
  have plain : (joined table part separator ending).toList.head? ≠ some '"' := by
    intro head
    rw [toList_joined, starts] at head
    cases chars : (unquote table).toList with
    | nil =>
      rw [chars] at head
      cases head
    | cons c more =>
      rw [chars] at head
      obtain rfl := Option.some.inj head
      have absent := notMem_unquote (.inl rfl) table
      rw [chars] at absent
      exact absent List.mem_cons_self
  have start : (∃ c ∈ (joined table part separator ending).toList.head?, identStart c = true) ↔
      ∀ c ∈ (unquote table).toList.head?, identStart c = true := by
    rw [toList_joined, starts]
    cases (unquote table).toList with
    | nil => simp [identStart]
    | cons c more => simp
  have cont : (∀ c ∈ (joined table part separator ending).toList, identCont c = true) ↔
      (∀ c ∈ (unquote table).toList, identCont c = true) ∧
        ∀ c ∈ (unquote part).toList, identCont c = true := by
    have separate : ∀ c ∈ separator.toList, identCont c = true := by
      rw [starts]
      exact List.forall_mem_cons.mpr ⟨by decide, List.all_eq_true.mp inner⟩
    rw [toList_joined, List.forall_mem_append, List.forall_mem_append, List.forall_mem_append,
      and_iff_right separate, and_iff_left (List.all_eq_true.mp last)]
  rw [identifier_word_iff plain, start, cont, Raw, and_assoc]

theorem identifier_underscore_iff {table part ending : String}
    (last : ending.toList.all identCont = true) :
    Identifier reserved (joined table part "_" ending).toList ↔
      Raw reserved table part "_" ending :=
  identifier_joined_iff [] (by decide) (by decide) last

theorem identifier_update_iff {table part ending : String}
    (last : ending.toList.all identCont = true) :
    Identifier reserved (joined table part "_update_" ending).toList ↔
      Raw reserved table part "_update_" ending :=
  identifier_joined_iff "update_".toList (by decide) (by decide) last

/-! ## The names of a statement -/

theorem sound_schema (schema : Option IdName) :
    (∀ piece ∈ schemaPieces schema, piece.Sound reserved) ↔
      ∀ name ∈ schema, Verbatim reserved name.1.toList := by
  cases schema with
  | none => simp [schemaPieces]
  | some name => simp [schemaPieces, Piece.Sound, name.2.identifier_iff]

theorem sound_columns (column : KeyColumn) (rest : List KeyColumn) :
    (∀ piece ∈ columnPieces column rest, piece.Sound reserved) ↔
      ∀ listed ∈ column :: rest, Identifier reserved listed.name.1.text.toList := by
  induction rest generalizing column with
  | nil => simp [columnPieces, Piece.Sound]
  | cons next rest ih =>
    rw [columnPieces, List.forall_mem_cons, List.forall_mem_cons, ih next, List.forall_mem_cons]
    simp [Piece.Sound]

theorem sound_key (key : LexedKey) :
    (∀ piece ∈ keyPieces key.key, piece.Sound reserved) ↔
      ∀ column ∈ listed key.key, Verbatim reserved column.name.1.text.toList := by
  have same : (∀ piece ∈ keyPieces key.key, piece.Sound reserved) ↔
      ∀ column ∈ listed key.key, Identifier reserved column.name.1.text.toList := by
    rw [keyPieces, listed]
    by_cases named : key.key.name.isSome = true
    · rw [if_pos named, if_pos named]
      exact sound_columns _ _
    · rw [if_neg named, if_neg named]
      cases key.key.columns.rest.map Prod.snd with
      | nil => simp [Piece.Sound]
      | cons column rest =>
        rw [List.forall_mem_cons, sound_columns]
        exact and_iff_right trivial
  rw [same]
  refine forall₂_congr fun column member => (key.columns column ?_).identifier_iff
  rw [listed] at member
  split at member
  · exact member
  · exact List.mem_cons_of_mem _ member

theorem sound_tokenPiece {type : TokenType} {text : String}
    (lexed : type = .id → IdText text.toList) :
    (tokenPiece type text).Sound reserved ↔ (type = .id → Verbatim reserved text.toList) := by
  rw [tokenPiece]
  split
  · next isId => simp [Piece.Sound, isId, (lexed isId).identifier_iff]
  · next other => simp [Piece.Sound, other]

theorem sound_tokens (tokens : List LexedToken) :
    (∀ piece ∈ tokenPieces tokens, piece.Sound reserved) ↔
      ∀ token ∈ tokens, token.1.type = .id → Verbatim reserved token.1.text.toList := by
  induction tokens with
  | nil => simp [tokenPieces]
  | cons token rest ih =>
    rw [tokenPieces, List.forall_mem_cons, List.forall_mem_cons, ih, sound_tokenPiece token.2,
      List.forall_mem_cons]
    exact and_iff_right trivial

/-- The identifiers of the new value. -/
theorem sound_terms (clause : LexedClause) :
    (∀ piece ∈ termPieces (updateTerms clause.1), piece.Sound reserved) ↔
      ∀ child ∈ clause.1, child.getType = .id → Verbatim reserved child.getText.toList := by
  obtain ⟨clause, lexed⟩ := clause
  induction clause with
  | nil => simp [updateTerms, termPieces]
  | cons child rest ih =>
    obtain ⟨own, others⟩ := List.forall_mem_cons.mp lexed
    rw [List.forall_mem_cons, ← ih others, updateTerms, List.filter_cons]
    split
    · rw [termPieces, List.forall_mem_cons, List.forall_mem_cons, List.forall_mem_cons,
        sound_tokenPiece own]
      simp [Piece.Sound, updateTerms]
    · next dropped =>
      have other : child.getType ≠ .id := fun isId => dropped (by rw [isId]; rfl)
      simp [other, updateTerms]

theorem sound_body (column : IdName) (clause : LexedClause) :
    (∀ piece ∈ bodyPieces column.1 clause.1, piece.Sound reserved) ↔
      Verbatim reserved column.1.toList ∧
        ∀ child ∈ clause.1, child.getType = .id → Verbatim reserved child.getText.toList := by
  rw [bodyPieces, List.forall_mem_append]
  simp only [List.forall_mem_cons, sound_fixed, sound_identifier, column.2.identifier_iff,
    sound_terms, true_and,
    List.not_mem_nil, false_implies, implies_true, and_true]

/-- The argument of NEXTVAL: the sequence has no quotes. -/
theorem literal_nextval_iff (schema : Option IdName) (table column : String) :
    Literal ("'" ++ schemaPrefix schema ++ joined table column "_" "_seq" ++ "'").toList ↔
      ∀ name ∈ schema, QuotesDoubled name.1.toList := by
  have sequence : '\'' ∉ (joined table column "_" "_seq").toList := by
    rw [toList_joined]
    simp [notMem_unquote]
  have chars : ("'" ++ schemaPrefix schema ++ joined table column "_" "_seq" ++ "'").toList =
      '\'' :: ((schemaPrefix schema).toList ++ (joined table column "_" "_seq").toList) ++
        ['\''] := by
    simp
  rw [chars, literal_quoted_iff, QuotedName.exists_double_append_iff sequence]
  cases schema with
  | none => simpa [schemaPrefix] using ⟨[], rfl⟩
  | some name =>
    have front : (schemaPrefix (some name)).toList = name.1.toList ++ ['.'] := by
      simp [schemaPrefix, toString]
    rw [front, QuotedName.exists_double_append_iff (by decide)]
    simp [QuotesDoubled]

/-- The body of the function ends at its own dollar signs. -/
theorem literal_body_iff (column : String) (clause : List Tree) :
    Literal ("$$" ++ textOf (bodyPieces column clause) ++ "$$").toList ↔
      NoDollars column.toList ∧ NoDollars (onupdateExpr clause).toList := by
  have front : NoDollars "\nBEGIN\n   NEW".toList := by decide
  have behind : NoDollars " \n   RETURN NEW;\nEND;\n$".toList := by decide
  have equals : NoDollars ['='] := by decide
  have chars : ("$$" ++ textOf (bodyPieces column clause) ++ "$$").toList = '$' :: '$' ::
      ((textOf (bodyPieces column clause)).toList ++ ['$', '$']) := by
    simp
  have body : (textOf (bodyPieces column clause)).toList ++ ['$'] =
      "\nBEGIN\n   NEW".toList ++ '.' :: (column.toList ++ ' ' :: (['='] ++ ' ' ::
        ((onupdateExpr clause).toList ++ ';' :: " \n   RETURN NEW;\nEND;\n$".toList))) := by
    simp [textOf_body]
  rw [chars, literal_dollar_iff, body, AdjacentPairs.absent_append_cons_iff rfl rfl,
    AdjacentPairs.absent_append_cons_iff rfl rfl, AdjacentPairs.absent_append_cons_iff rfl rfl,
    AdjacentPairs.absent_append_cons_iff rfl rfl]
  exact (and_iff_right front).trans (and_congr_right' ((and_iff_right equals).trans
    (and_iff_left behind)))

/-- The name is compared without quotes. -/
theorem notMem_shown {q : Char} (quote : q = '"' ∨ q = '\'') (rt : Runtime) (name : IdName) :
    q ∉ (shown rt name).toList :=
  notMem_unquote quote _

theorem identifier_shown_iff (rt : Runtime) (name : IdName) :
    Identifier reserved (s!"\"{shown rt name}\"").toList ↔ shown rt name ≠ "" := by
  have plain := QuotedName.double_eq_self_iff.mpr (notMem_shown (.inl rfl) rt name)
  have chars : (s!"\"{shown rt name}\"").toList = '"' :: (shown rt name).toList ++ ['"'] := by
    simp [toString]
  rw [chars, identifier_quoted_iff]
  constructor
  · rintro ⟨content, some', same⟩ empty
    rw [empty] at same
    cases content with
    | nil => exact some' rfl
    | cons c content =>
      have longer := @QuotedName.length_le_double _ _ '"' (c :: content)
      rw [← same] at longer
      simp at longer
  · intro some'
    exact ⟨_, fun empty => some' (String.toList_eq_nil_iff.mp empty), plain.symm⟩

theorem literal_shown (rt : Runtime) (name : IdName) : Literal (s!"'{shown rt name}'").toList := by
  have plain := QuotedName.double_eq_self_iff.mpr (notMem_shown (.inr rfl) rt name)
  have chars : (s!"'{shown rt name}'").toList = '\'' :: (shown rt name).toList ++ ['\''] := by
    simp [toString]
  rw [chars, literal_quoted_iff]
  exact ⟨_, plain.symm⟩

end Tokens

/-! ## Statements with one token for each name -/

/-- What is read in the body of a function. -/
def Splicing.body : Splicing → List Piece
  | onupdate _ _ column clause => bodyPieces column.1 clause.1
  | _ => []

/-- The statement is the text of its pieces, and each name in it, also in the body of a function, is
read as one identifier or literal: what is fixed stays as it is for every name. -/
def Contained (reserved : List Char → Bool) (rt : Runtime) (splicing : Splicing) : Prop :=
  splicing.text rt = textOf (splicing.pieces rt) ∧ Reads reserved (splicing.pieces rt) ∧
    Reads reserved splicing.body

def Splicing.Safe (reserved : List Char → Bool) (rt : Runtime) : Splicing → Prop
  | onupdate schema tablename column clause =>
    (∀ name ∈ schema, Verbatim reserved name.1.toList) ∧ Verbatim reserved tablename.1.toList ∧
      Verbatim reserved column.1.toList ∧
      (∀ child ∈ clause.1, child.getType = .id → Verbatim reserved child.getText.toList) ∧
      Raw reserved tablename.1 column.1 "_update_" "" ∧
      Raw reserved tablename.1 column.1 "_update_" "_trigger" ∧
      NoDollars column.1.toList ∧ NoDollars (onupdateExpr clause.1).toList
  | index schema tablename key =>
    (∀ name ∈ schema, Verbatim reserved name.1.toList) ∧ Verbatim reserved tablename.1.toList ∧
      (∀ column ∈ listed key.key, Verbatim reserved column.name.1.text.toList) ∧
      Raw reserved tablename.1 (keyName key.key) "_" "_index"
  | autoInc schema tablename column _ =>
    (∀ name ∈ schema, Verbatim reserved name.1.toList ∧ QuotesDoubled name.1.toList) ∧
      Verbatim reserved tablename.1.toList ∧ Verbatim reserved column.1.toList ∧
      Raw reserved tablename.1 column.1 "_" "_seq"
  | fkey tablename tokens =>
    Verbatim reserved tablename.1.toList ∧
      ∀ token ∈ tokens, token.1.type = .id → Verbatim reserved token.1.text.toList
  | showTables _ _ schema => shown rt schema ≠ ""
  | showColumns _ _ _ _ => True

section Statements

variable {reserved : List Char → Bool} (rt : Runtime)

/-- The pieces of the statement and of its body are spelled as their tokens. -/
def Splicing.Sound (reserved : List Char → Bool) (rt : Runtime) (splicing : Splicing) : Prop :=
  (∀ piece ∈ splicing.pieces rt, piece.Sound reserved) ∧
    ∀ piece ∈ splicing.body, piece.Sound reserved

theorem sound_onupdate (schema : Option IdName) (tablename column : IdName)
    (clause : LexedClause) :
    (Splicing.onupdate schema tablename column clause).Sound reserved rt ↔
      (Splicing.onupdate schema tablename column clause).Safe reserved rt := by
  simp only [Splicing.Sound, Splicing.pieces, Splicing.body, Splicing.Safe,
    List.forall_mem_append, List.forall_mem_cons, List.not_mem_nil, false_implies, implies_true,
    sound_fixed, sound_identifier, sound_literal, sound_schema, sound_body, literal_body_iff,
    @identifier_update_iff reserved _ _ "" (by decide),
    @identifier_update_iff reserved _ _ "_trigger" (by decide), tablename.2.identifier_iff,
    true_and, and_true]
  constructor
  · rintro ⟨⟨⟨⟨⟨⟨schemas, function, ⟨noDollars, plain⟩, trigger⟩, -⟩, table⟩, -⟩, -⟩, own, terms⟩
    exact ⟨schemas, table, own, terms, function, trigger, noDollars, plain⟩
  · rintro ⟨schemas, table, own, terms, function, trigger, noDollars, plain⟩
    refine ⟨⟨⟨⟨⟨⟨schemas, function, ?_, trigger⟩, schemas⟩, table⟩, schemas⟩, function⟩, own, terms⟩
    exact ⟨noDollars, plain⟩

theorem sound_index (schema : Option IdName) (tablename : IdName) (key : LexedKey) :
    (Splicing.index schema tablename key).Sound reserved rt ↔
      (Splicing.index schema tablename key).Safe reserved rt := by
  simp only [Splicing.Sound, Splicing.pieces, Splicing.body, Splicing.Safe,
    List.forall_mem_append, List.forall_mem_cons, List.not_mem_nil, false_implies, implies_true,
    sound_fixed, sound_identifier, sound_schema, sound_key,
    @identifier_underscore_iff reserved _ _ "_index" (by decide), tablename.2.identifier_iff,
    true_and, and_true]
  constructor
  · rintro ⟨⟨⟨name, schemas⟩, table⟩, columns⟩
    exact ⟨schemas, table, columns, name⟩
  · rintro ⟨schemas, table, columns, name⟩
    exact ⟨⟨⟨name, schemas⟩, table⟩, columns⟩

theorem sound_autoInc (schema : Option IdName) (tablename column : IdName) (start : String) :
    (Splicing.autoInc schema tablename column start).Sound reserved rt ↔
      (Splicing.autoInc schema tablename column start).Safe reserved rt := by
  simp only [Splicing.Sound, Splicing.pieces, Splicing.body, Splicing.Safe,
    List.forall_mem_append, List.forall_mem_cons, List.not_mem_nil, false_implies, implies_true,
    sound_fixed, sound_identifier, sound_literal, sound_schema, literal_nextval_iff,
    @identifier_underscore_iff reserved _ _ "_seq" (by decide), tablename.2.identifier_iff,
    column.2.identifier_iff, forall_and, true_and, and_true]
  constructor
  · rintro ⟨⟨⟨schemas, sequence⟩, -⟩, table, own, quotes⟩
    exact ⟨⟨schemas, quotes⟩, table, own, sequence⟩
  · rintro ⟨⟨schemas, quotes⟩, table, own, sequence⟩
    exact ⟨⟨⟨schemas, sequence⟩, schemas⟩, table, own, quotes⟩

theorem sound_fkey (tablename : IdName) (tokens : List LexedToken) :
    (Splicing.fkey tablename tokens).Sound reserved rt ↔
      (Splicing.fkey tablename tokens).Safe reserved rt := by
  simp only [Splicing.Sound, Splicing.pieces, Splicing.body, Splicing.Safe,
    List.forall_mem_append, List.forall_mem_cons, List.not_mem_nil, false_implies, implies_true,
    sound_fixed, sound_identifier, sound_tokens, tablename.2.identifier_iff, true_and, and_true]

theorem sound_showTables (columns filter : String) (schema : IdName) :
    (Splicing.showTables columns filter schema).Sound reserved rt ↔
      (Splicing.showTables columns filter schema).Safe reserved rt := by
  simp only [Splicing.Sound, Splicing.pieces, Splicing.body, Splicing.Safe, List.forall_mem_cons,
    List.not_mem_nil, false_implies, implies_true, sound_fixed, sound_identifier,
    identifier_shown_iff, true_and, and_true, and_self]

theorem sound_showColumns (columns filter : String) (table : IdName) (schema : Option IdName) :
    (Splicing.showColumns columns filter table schema).Sound reserved rt := by
  have operand : (operandPiece rt schema).Sound reserved := by
    cases schema with
    | none => trivial
    | some name => exact literal_shown rt name
  simp only [Splicing.Sound, Splicing.pieces, Splicing.body, List.forall_mem_cons,
    List.not_mem_nil, false_implies, implies_true, sound_fixed, sound_literal, literal_shown,
    operand, and_true]

/-- Every name is read as one token exactly when the pieces are spelled as tokens. -/
theorem contained_iff_sound (splicing : Splicing) :
    Contained reserved rt splicing ↔ splicing.Sound reserved rt := by
  have body : Separated splicing.body := by
    cases splicing with
    | onupdate schema tablename column clause => exact separated_body _ _
    | _ => trivial
  rw [Contained, and_iff_right (text_eq rt splicing), reads_iff (separated_pieces rt splicing),
    reads_iff body, Splicing.Sound]

end Statements

/-- The names of a statement are contained exactly when each of them is safe at its places. -/
theorem contained_iff (reserved : List Char → Bool) (rt : Runtime) (splicing : Splicing) :
    Contained reserved rt splicing ↔ splicing.Safe reserved rt := by
  rw [contained_iff_sound]
  cases splicing with
  | onupdate schema tablename column clause =>
    exact sound_onupdate rt schema tablename column clause
  | index schema tablename key => exact sound_index rt schema tablename key
  | autoInc schema tablename column start => exact sound_autoInc rt schema tablename column start
  | fkey tablename tokens => exact sound_fkey rt tablename tokens
  | showTables columns filter schema => exact sound_showTables rt columns filter schema
  | showColumns columns filter table schema =>
    exact iff_of_true (sound_showColumns rt columns filter table schema) trivial

/-! ## Where the statements come from -/

/-- The text of an ID is as the lexer leaves it. -/
theorem idText_nameText {rt : Runtime} (lowers : Backquotes.LowersNames rt.utf8Strdown)
    (options : ℕ) {span : String} (spelled : Spells .id span.toList) :
    IdText (nameText rt options .id span).toList := by
  have text : nameText rt options .id span =
      if span.toList.head? = some '`' then backquotedText rt options span else span := rfl
  rw [text]
  generalize chars : span.toList = list at spelled
  cases spelled with
  | @word first rest letter word =>
    have other : (first :: rest).head? ≠ some '`' := by
      rintro same
      obtain rfl := Option.some.inj same
      exact absurd letter (by decide)
    rw [if_neg other, chars]
    exact .word letter word
  | @doublequoted content absent =>
    rw [if_neg (by simp), chars]
    exact .quoted content
  | @backquoted content absent =>
    have own : span = String.ofList ('`' :: content ++ ['`']) := by
      rw [← chars, String.ofList_toList]
    have head : ('`' :: content ++ ['`']).head? = some '`' := rfl
    rw [if_pos head, own, Backquotes.backquotedText_span lowers]
    exact .quoted _
  | keyword listed => exact absurd rfl (Names.nameWords_types _ listed).2.1

/-- The names in what is split out of the statement are texts of IDs. -/
structure Lexed (table : CreateTable) : Prop where
  tablename : IdText table.tablename.toList
  columns : ∀ columnDef ∈ table.columnDefs, IdText columnDef.name.1.text.toList
  clauses : ∀ columnDef ∈ table.columnDefs, ∀ clause ∈ columnDef.onupdates,
    ∀ child ∈ clause.children, child.getType = .id → IdText child.getText.toList
  keys : ∀ key ∈ table.constraints.filterMap fun pair => pair.2.indexKey?,
    ∀ column ∈ key.columns.columns, IdText column.name.1.text.toList
  foreignKeys : ∀ tokens ∈ table.constraints.filterMap fun pair => pair.2.fkeyTokens?,
    ∀ token ∈ tokens, token.type = .id → IdText token.text.toList

/-- Every statement that a CREATE TABLE emits is such a splicing. -/
theorem generated_spliced (rt : Runtime) {table : CreateTable} (lexed : Lexed table)
    (schema : Option IdName) :
    ∀ generated ∈ table.generated (schemaPrefix schema), ∃ splicing : Splicing,
      generated.text = splicing.text rt := by
  intro generated member
  rw [CreateTable.generated, List.mem_append, List.mem_append, List.mem_append] at member
  rcases member with ((update | index) | sequence) | fkey
  · obtain ⟨columnDef, listed, inside⟩ := List.mem_flatMap.mp update
    obtain ⟨clause, taken, rfl⟩ := List.mem_map.mp inside
    exact ⟨.onupdate schema ⟨_, lexed.tablename⟩ ⟨_, lexed.columns columnDef listed⟩
      ⟨_, lexed.clauses columnDef listed clause taken⟩, rfl⟩
  · obtain ⟨key, listed, rfl⟩ := List.mem_map.mp index
    exact ⟨.index schema ⟨_, lexed.tablename⟩ ⟨key, lexed.keys key listed⟩, rfl⟩
  · obtain ⟨columnDef, kept, rfl⟩ := List.mem_map.mp sequence
    have listed := (List.mem_filter.mp kept).1
    exact ⟨.autoInc schema ⟨_, lexed.tablename⟩ ⟨_, lexed.columns columnDef listed⟩ table.start,
      rfl⟩
  · obtain ⟨tokens, listed, rfl⟩ := List.mem_map.mp fkey
    have names := lexed.foreignKeys tokens listed
    refine ⟨.fkey ⟨_, lexed.tablename⟩ (tokens.attachWith _ names), ?_⟩
    rw [Splicing.text, List.attachWith_map_subtype_val]
    rfl

/-- SHOW TABLES of a schema is rewritten to such a query. -/
theorem showTables_spliced (rt : Runtime) (clauses : ShowTablesClauses) {schema : SqlIdentifier}
    (lexed : IdText schema.1.text.toList) : ∃ columns filter,
      showTablesRewrite rt (clauses.children (some schema)) =
        some (.leaf { clauses.show'.1 with
          text := (Splicing.showTables columns filter ⟨_, lexed⟩).text rt } ::
            showTail clauses.filter clauses.semi) :=
  ⟨_, _, showTablesRewrite_children rt clauses (some schema)⟩

/-- So is SHOW COLUMNS of a table. -/
theorem showColumns_spliced (rt : Runtime) (clauses : ShowColumnsClauses)
    {schema : Option SqlIdentifier} (table : IdText clauses.table.1.text.toList)
    (lexed : ∀ name ∈ schema, IdText name.1.text.toList) : ∃ columns filter,
      showColumnsRewrite rt (clauses.children schema) =
        some (.leaf { clauses.show'.1 with
          text := (Splicing.showColumns columns filter ⟨_, table⟩
            (schema.pmap (fun name own => ⟨name.1.text, own⟩) lexed)).text rt } ::
              showTail clauses.filter clauses.semi) := by
  cases schema with
  | none => exact ⟨_, _, showColumnsRewrite_children rt clauses none⟩
  | some name => exact ⟨_, _, showColumnsRewrite_children rt clauses (some name)⟩

/-! ## A table with a blank in its name -/

private def ascii : Runtime := ⟨asciiLower, 0⟩

private def myTable : IdName :=
  ⟨"\"my table\"", .quoted "my table".toList⟩

private def idColumn : IdName :=
  ⟨"id", .word (by decide) (List.forall_mem_singleton.mpr (by decide))⟩

/-- The sequence of ``CREATE TABLE `my table` (id INT AUTO_INCREMENT)`` is `my table_id_seq`, which
is two words. -/
theorem not_contained_blank :
    Spells .id "`my table`".toList ∧ nameText ascii 0 .id "`my table`" = myTable.1 ∧
      Spells .id "id".toList ∧ nameText ascii 0 .id "id" = idColumn.1 ∧
      ∀ reserved, ¬ Contained reserved ascii (.autoInc none myTable idColumn "1") := by
  refine ⟨@Spells.backquoted "my table".toList (by decide), by decide,
    .word (by decide) (List.forall_mem_singleton.mpr (by decide)), by decide,
    fun reserved contained => ?_⟩
  obtain ⟨-, -, -, -, word, -⟩ :=
    (sound_autoInc ascii none myTable idColumn "1").mp ((contained_iff_sound ascii _).mp contained)
  have blank : ' ' ∈ (unquote myTable.1).toList := by
    rw [unquote, String.toList_ofList]
    exact List.mem_filter.mpr ⟨by decide, by decide⟩
  exact absurd (word ' ' blank) (by decide)

end Pgify.Splices
