import Pgify.Proofs.ConstraintPasses

/-! # The columns of a generated index

`IndexKey.statement` is the CREATE INDEX that indexes what the key does: all its columns, in order,
each with its own ASC or DESC. The scan of `create_table_index` builds this list for a key with a
name. Without one it takes the first column for the name, and the list starts behind it.
-/

namespace Pgify.Model

/-- A column with its order, if it has one. -/
def KeyColumn.text (column : KeyColumn) : String :=
  column.name.1.text ++ column.order.elim "" fun order => s!" {order.1.text}"

/-- The columns of the list, in order. -/
def KeyColumns.columns (columns : KeyColumns) : List KeyColumn :=
  columns.first :: columns.rest.map Prod.snd

namespace IndexKey

/-- Every identifier of the lexer has a text. -/
def Spelled (key : IndexKey) : Prop :=
  ∀ column ∈ key.columns.columns, column.name.1.text ≠ ""

/-- The index of all columns of the key. It is named after the key or else after the first column,
and has the method that the key gives. -/
def statement (schemaName tablename : String) (key : IndexKey) : String :=
  indexText schemaName tablename (key.name.getD key.columns.first.name).1.text
    ((key.typeBefore.or key.typeAfter).map fun indexType => indexType.method.1.text)
    (", ".intercalate (key.columns.columns.map KeyColumn.text))

end IndexKey

namespace IndexColumns

/-- Whether an ID that the scan meets is a column and not the name. -/
def Started (scan : IndexScan) : Prop :=
  scan.name ≠ none ∨ scan.columns ≠ ""

/-- What the scan has built once it has started and another column follows. -/
def extended (columns : String) (column : KeyColumn) : String :=
  (if columns = "" then "" else columns ++ ", ") ++ column.text

theorem text_ne_empty {column : KeyColumn} (spelled : column.name.1.text ≠ "") :
    column.text ≠ "" := by
  intro empty
  have length := congrArg String.length empty
  rw [KeyColumn.text, String.length_append, String.length_empty] at length
  exact spelled (String.length_eq_zero_iff.mp (by omega))

theorem extended_ne_empty (columns : String) {column : KeyColumn}
    (spelled : column.name.1.text ≠ "") : extended columns column ≠ "" := by
  intro empty
  have length := congrArg String.length empty
  rw [extended, String.length_append, String.length_empty] at length
  exact text_ne_empty spelled (String.length_eq_zero_iff.mp (by omega))

/-- A column behind the first is appended with a comma, and never shortens the list. -/
theorem length_extended_le (columns : String) (column : KeyColumn) :
    (extended columns column).length ≤ columns.length + 2 + column.text.length := by
  rw [extended, String.length_append]
  split
  · rw [String.length_empty]
    omega
  · rw [String.length_append]
    exact Nat.le_refl _

/-! ## One turn of the scan, and the run over the columns -/

/-- The order of a column is appended to the list. -/
theorem foldl_order (scan : IndexScan) (order : Option (TokenIn [.kAsc, .kDesc])) :
    (order.map leafOf).toList.foldl IndexScan.step scan =
      { scan with
        columns := scan.columns ++ order.elim "" fun order => s!" {order.1.text}" } := by
  cases order with
  | none => simp
  | some order =>
    have direction : order.1.type = .kAsc ∨ order.1.type = .kDesc := by simpa using order.2
    have noId : order.1.type ≠ .id := by rcases direction with type | type <;> simp [type]
    simp [IndexScan.step, direction, noId, leafOf]

/-- A column of a scan that has started. -/
theorem foldl_column {scan : IndexScan} (started : Started scan) (column : KeyColumn) :
    column.trees.foldl IndexScan.step scan =
      ⟨scan.name, extended scan.columns column,
        scan.firstcolumn.or (some column.name.1.text)⟩ := by
  have isId : column.name.1.type = .id := List.mem_singleton.mp column.name.2
  have noName : ¬(scan.name = none ∧ scan.columns = "") := by
    rintro ⟨name, columns⟩
    exact started.elim (absurd name) (absurd columns)
  rw [KeyColumn.trees, List.foldl_cons, foldl_order]
  simp only [IndexScan.step, getType_leafOf, isId, if_true, if_neg noName, extended,
    KeyColumn.text, String.append_assoc]
  rfl

/-- Punctuation and USING with its method are passed over. -/
theorem step_other {x : Tree} (scan : IndexScan)
    (other : x.getType ≠ .id ∧ x.getType ≠ .kAsc ∧ x.getType ≠ .kDesc) :
    IndexScan.step scan x = scan := by
  obtain ⟨noId, noAsc, noDesc⟩ := other
  simp [IndexScan.step, noId, noAsc, noDesc]

theorem foldl_indexType (scan : IndexScan) (indexType : Option IndexType) :
    ((indexType.map IndexType.trees).getD []).foldl IndexScan.step scan = scan := by
  cases indexType with
  | none => rfl
  | some indexType =>
    have isUsing : indexType.using'.1.type = .kUsing := List.mem_singleton.mp indexType.using'.2
    obtain ⟨code, isMethod⟩ := indexType.method.2
    simp only [Option.map_some, Option.getD_some, IndexType.trees, List.foldl_cons,
      List.foldl_nil]
    rw [step_other scan (by simp [isUsing]), step_other scan (by simp [isMethod])]

/-- The columns behind the first one. -/
theorem foldl_rest {scan : IndexScan} (started : Started scan)
    (rest : List (TokenIn [.comma] × KeyColumn))
    (spelled : ∀ pair ∈ rest, pair.2.name.1.text ≠ "") :
    ((rest.flatMap fun pair => leafOf pair.1 :: pair.2.trees).foldl IndexScan.step scan).columns =
      (rest.map Prod.snd).foldl extended scan.columns := by
  induction rest generalizing scan with
  | nil => rfl
  | cons pair rest ih =>
    have isComma : pair.1.1.type = .comma := List.mem_singleton.mp pair.1.2
    have next := extended_ne_empty scan.columns (spelled pair List.mem_cons_self)
    rw [List.flatMap_cons, List.cons_append, List.foldl_cons,
      step_other scan (by simp [isComma]), List.foldl_append, foldl_column started pair.2]
    exact ih (Or.inr next) fun later member => spelled later (List.mem_cons_of_mem _ member)

/-! ## The list of a named key -/

theorem foldl_extended {columns : String} (nonempty : columns ≠ "") (rest : List KeyColumn)
    (spelled : ∀ column ∈ rest, column.name.1.text ≠ "") :
    rest.foldl extended columns = ", ".intercalate (columns :: rest.map KeyColumn.text) := by
  induction rest generalizing columns with
  | nil => simp
  | cons column rest ih =>
    have next := extended_ne_empty columns (spelled column List.mem_cons_self)
    have step : extended columns column = columns ++ ", " ++ column.text := by
      rw [extended, if_neg nonempty]
    rw [List.foldl_cons, ih next fun later member => spelled later (List.mem_cons_of_mem _ member),
      step, List.map_cons, String.intercalate_cons_cons]
    cases rest with
    | nil => simp [String.append_assoc]
    | cons later rest => simp [String.intercalate_cons_cons, String.append_assoc]

/-- What is built from a scan that stands in front of the parenthesis. -/
theorem foldl_behind (scan : IndexScan) (key : IndexKey) :
    (key.columns.trees ++ (key.typeAfter.map IndexType.trees).getD []).foldl IndexScan.step scan =
      (key.columns.rest.flatMap fun pair => leafOf pair.1 :: pair.2.trees).foldl IndexScan.step
        (key.columns.first.trees.foldl IndexScan.step scan) := by
  have isLparen : key.columns.lparen.1.type = .lparen :=
    List.mem_singleton.mp key.columns.lparen.2
  have isRparen : key.columns.rparen.1.type = .rparen :=
    List.mem_singleton.mp key.columns.rparen.2
  rw [KeyColumns.trees_eq]
  simp only [List.foldl_append, List.cons_append, List.foldl_cons, List.foldl_nil,
    foldl_indexType]
  rw [step_other _ (by simp [isRparen]), step_other scan (by simp [isLparen])]

theorem columns_of_named {key : IndexKey} (spelled : key.Spelled) (named : key.name.isSome) :
    (indexScan key.children).columns =
      ", ".intercalate (key.columns.columns.map KeyColumn.text) := by
  obtain ⟨name, present⟩ := Option.isSome_iff_exists.mp named
  have isId : name.1.type = .id := List.mem_singleton.mp name.2
  have first : key.columns.first.name.1.text ≠ "" := spelled _ List.mem_cons_self
  have rest : ∀ column ∈ key.columns.rest.map Prod.snd, column.name.1.text ≠ "" :=
    fun column member => spelled column (List.mem_cons_of_mem _ member)
  have start : IndexScan.step ⟨none, "", none⟩ (leafOf name) = ⟨some name.1.text, "", none⟩ := by
    simp [IndexScan.step, isId, leafOf]
  rw [indexScan, IndexKey.children, present, List.append_assoc, List.foldl_append]
  simp only [Option.map_some, Option.toList_some, List.cons_append, List.nil_append,
    List.foldl_cons, foldl_indexType, start]
  rw [foldl_behind, foldl_column (.inl (Option.some_ne_none _)),
    foldl_rest (.inl (Option.some_ne_none _)) _ fun pair member =>
      rest pair.2 (List.mem_map_of_mem member)]
  have alone : extended "" key.columns.first = key.columns.first.text := by simp [extended]
  simp only [alone]
  exact foldl_extended (text_ne_empty first) _ rest

/-! ## The list of an unnamed key -/

/-- The length of further columns, each behind its separator. -/
private def separatedLength : List KeyColumn → ℕ
  | [] => 0
  | column :: rest => 2 + column.text.length + separatedLength rest

theorem length_foldl_extended_le (columns : String) (rest : List KeyColumn) :
    (rest.foldl extended columns).length ≤ columns.length + separatedLength rest := by
  induction rest generalizing columns with
  | nil => exact Nat.le_refl _
  | cons column rest ih =>
    have step := length_extended_le columns column
    have tail := ih (extended columns column)
    rw [List.foldl_cons, separatedLength]
    omega

theorem length_intercalate (first : String) (rest : List KeyColumn) :
    (", ".intercalate (first :: rest.map KeyColumn.text)).length =
      first.length + separatedLength rest := by
  induction rest generalizing first with
  | nil => simp [separatedLength]
  | cons column rest ih =>
    have separator : ", ".length = 2 := rfl
    rw [List.map_cons, String.intercalate_cons_cons, String.length_append, String.length_append,
      ih column.text, separatedLength, separator]
    omega

/-- Without a name the first column is taken for one; the list starts with its order. -/
theorem columns_of_unnamed {key : IndexKey} (spelled : key.Spelled) (unnamed : key.name = none) :
    (indexScan key.children).columns = (key.columns.rest.map Prod.snd).foldl extended
      (key.columns.first.order.elim "" fun order => s!" {order.1.text}") := by
  have rest : ∀ pair ∈ key.columns.rest, pair.2.name.1.text ≠ "" :=
    fun pair member => spelled pair.2 (List.mem_cons_of_mem _ (List.mem_map_of_mem member))
  have isId : key.columns.first.name.1.type = .id := List.mem_singleton.mp key.columns.first.name.2
  have taken : IndexScan.step ⟨none, "", none⟩ (leafOf key.columns.first.name) =
      ⟨some key.columns.first.name.1.text, "", none⟩ := by
    simp [IndexScan.step, isId, leafOf]
  rw [indexScan, IndexKey.children, unnamed, List.append_assoc, List.foldl_append]
  simp only [Option.map_none, Option.toList_none, List.nil_append, foldl_indexType]
  rw [foldl_behind, KeyColumn.trees, List.foldl_cons, taken, foldl_order,
    foldl_rest (.inl (Option.some_ne_none _)) _ rest, String.empty_append]

/-- Without a name the list falls short of the columns: the first one is gone. -/
theorem length_columns_lt {key : IndexKey} (spelled : key.Spelled) (unnamed : key.name = none) :
    (indexScan key.children).columns.length <
      (", ".intercalate (key.columns.columns.map KeyColumn.text)).length := by
  have first : key.columns.first.name.1.text ≠ "" := spelled _ List.mem_cons_self
  have positive : 0 < key.columns.first.name.1.text.length :=
    Nat.pos_of_ne_zero fun zero => first (String.length_eq_zero_iff.mp zero)
  have short := length_foldl_extended_le
    (key.columns.first.order.elim "" fun order => s!" {order.1.text}")
    (key.columns.rest.map Prod.snd)
  have full := length_intercalate key.columns.first.text (key.columns.rest.map Prod.snd)
  have own : key.columns.first.text.length = key.columns.first.name.1.text.length +
      (key.columns.first.order.elim "" fun order => s!" {order.1.text}").length := by
    rw [KeyColumn.text, String.length_append]
  rw [columns_of_unnamed spelled unnamed, KeyColumns.columns, List.map_cons]
  omega

/-! ## The generated statements -/

theorem length_indexText (schemaName tablename name : String) (indexType : Option String)
    (columns : String) :
    (indexText schemaName tablename name indexType columns).length =
      (indexText schemaName tablename name indexType "").length + columns.length := by
  have front : ∃ front, ∀ columns, indexText schemaName tablename name indexType columns =
      front ++ (" ( " ++ columns ++ " ) ;\n") := ⟨_, fun _ => rfl⟩
  obtain ⟨front, shape⟩ := front
  rw [shape, shape]
  simp only [String.length_append, String.length_empty]
  omega

/-- The statement of a key has all its columns exactly when the key has a name. -/
theorem generated_text_iff {key : IndexKey} (spelled : key.Spelled)
    (schemaName tablename : String) :
    (key.generated schemaName tablename).text = key.statement schemaName tablename ↔
      key.name.isSome := by
  rw [IndexKey.generated, Generated.text, IndexKey.statement]
  constructor
  · intro same
    cases named : key.name with
    | some name => rfl
    | none =>
      have short := length_columns_lt spelled named
      have lengths := congrArg String.length same
      rw [length_indexText, length_indexText _ _ _ _ (", ".intercalate _)] at lengths
      omega
  · intro named
    rw [columns_of_named spelled named]

/-- `create_table_index` appends one statement for each key of the table, in order; the statement
of a key indexes exactly the columns of the key if and only if the key has a name. -/
theorem createTableIndex_statements_iff {table : CreateTable} {column : ColumnDef → Tree}
    {constraints : List (TokenIn [.comma] × Constraint)} {options : List TableOption}
    (typed : table.Typed column)
    (spelled : ∀ key ∈ constraints.filterMap fun pair => pair.2.indexKey?, key.Spelled)
    (ws : WalkerState) :
    createTableIndex ws (table.layout column constraints options) =
        some (ws.append (String.join ((constraints.filterMap fun pair => pair.2.indexKey?).map
            fun key => (key.generated ws.schemaName table.tablename).text)),
          table.layout column (constraints.filter fun pair => !pair.2.isIndex) options) ∧
      ∀ key ∈ constraints.filterMap fun pair => pair.2.indexKey?,
        (key.generated ws.schemaName table.tablename).text =
          key.statement ws.schemaName table.tablename ↔ key.name.isSome := by
  constructor
  · rw [createTableIndex_layout typed ws, WalkerState.emit, List.map_map]
    rfl
  · intro key member
    exact generated_text_iff (spelled key member) ws.schemaName table.tablename

/-! ## A key without a name -/

section Unnamed

private def word (type : TokenType) (text : String) : Token :=
  ⟨type, text, .default, 1, 0⟩

private def name (text : String) : TokenIn [.id] :=
  ⟨word .id text, List.mem_singleton_self _⟩

/-- `KEY (a, b)`, or `KEY k (a, b)`. -/
private def pairKey (own : Option (TokenIn [.id])) : IndexKey where
  name := own
  typeBefore := none
  columns :=
    { lparen := ⟨word .lparen "(", List.mem_singleton_self _⟩
      first := ⟨name "a", none⟩
      rest := [(⟨word .comma ",", List.mem_singleton_self _⟩, ⟨name "b", none⟩)]
      rparen := ⟨word .rparen ")", List.mem_singleton_self _⟩ }
  typeAfter := none

private theorem word_enums (text : String) : ∀ part ∈ [Tree.leaf (word (.other 0) text)],
    hasType .tCreateTableEnum part = true →
      (∃ child ∈ part.children, hasType .kEnum child = true ∨ hasType .kSet child = true) ∧
        ∃ child ∈ part.children, hasType .rparen child = true := by
  simp [hasType, word]

/-- `CREATE TABLE t (a int, KEY (a, b))` with the given key. -/
private def table (own : Option (TokenIn [.id])) : CreateTable where
  header := []
  qualifier := none
  name := name "t"
  lparen := ⟨word .lparen "(", List.mem_singleton_self _⟩
  first := ⟨name "a", [.leaf (word (.other 0) "int")], word_enums "int"⟩
  columns := []
  constraints := [(⟨word .comma ",", List.mem_singleton_self _⟩, .index (pairKey own))]
  rparen := ⟨word .rparen ")", List.mem_singleton_self _⟩
  options := []
  as := none
  select := none
  semi := none

private theorem spelled (own : Option (TokenIn [.id])) : (pairKey own).Spelled := by
  intro column member
  simp only [pairKey, KeyColumns.columns, List.map_cons, List.map_nil, List.mem_cons,
    List.not_mem_nil, or_false] at member
  rcases member with rfl | rfl <;> simp [name, word]

theorem createTableIndex_statements_iff_pair :
    (createTableIndex (walkerstateNew 0) (table (some (name "k"))).children).map
        (fun walked => walked.1.postbuf) =
      some ((pairKey (some (name "k"))).statement "" "t") := by
  obtain ⟨run, each⟩ := @createTableIndex_statements_iff (table (some (name "k"))) _
    (table (some (name "k"))).constraints [] (table (some (name "k"))).typed_tree
    (by simpa [table, Constraint.indexKey?] using spelled (some (name "k"))) (walkerstateNew 0)
  have text := (each (pairKey (some (name "k"))) (by simp [table, Constraint.indexKey?])).mpr rfl
  rw [CreateTable.children, show (table (some (name "k"))).options = [] from rfl, run]
  exact congrArg some text

/-- The first column of `KEY (a, b)` becomes the name of the index and is not in its list. -/
theorem not_createTableIndex_statement_pair :
    (createTableIndex (walkerstateNew 0) (table none).children).map
        (fun walked => walked.1.postbuf) ≠
      some ((pairKey none).statement "" "t") := by
  have run : (createTableIndex (walkerstateNew 0) (table none).children).map
      (fun walked => walked.1.postbuf) = some "CREATE INDEX t_a_index ON t  ( b ) ;\n" := by
    rfl
  have wanted : (pairKey none).statement "" "t" = "CREATE INDEX t_a_index ON t  ( a, b ) ;\n" := by
    rfl
  rw [run, wanted]
  decide

end Unnamed

end IndexColumns

end Pgify.Model
