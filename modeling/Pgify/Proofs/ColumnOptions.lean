import Pgify.Proofs.OptionTrees

/-! # The MySQL options of a column

The ON UPDATE pass leaves the child behind every clause that it takes unexamined, and the other two
passes stop at their first hit. So the options are gone exactly where no clause stands right behind
another one and where AUTO_INCREMENT, and NOT NULL beside a zero date, are written once at most.
-/

namespace Pgify.ColumnOptions

open Model SearchLoop AdjacentPairs

/-! ## The property -/

/-- No NULL stands right behind a NOT. -/
def NoNotNull (children : List Tree) : Prop :=
  Absent (hasType .kNot) (hasType .kNull) children

/-- The children but the ON UPDATE clauses, the AUTO_INCREMENT options and, beside a zero date, the
NOT NULL options. -/
def others (children : List Tree) : List Tree :=
  let kept := children.filter fun x => !hasType .tCreateTableOnupdate x
  (if hasZeroDate kept then dropAll (hasType .kNot) (hasType .kNull) kept else kept).filter
    fun x => !hasType .kAutoIncrement x

/-- The MySQL options of a definition are eliminated, and nothing else is. -/
structure Eliminated (original result : List Tree) : Prop where
  noOnUpdate : ∀ x ∈ result, hasType .tCreateTableOnupdate x = false
  noAutoIncrement : ∀ x ∈ result, hasType .kAutoIncrement x = false
  noNotNull : hasZeroDate result = true → NoNotNull result
  unchanged : (∀ x ∈ original, hasType .tCreateTableOnupdate x = false) →
    (∀ x ∈ original, hasType .kAutoIncrement x = false) →
      (hasZeroDate original = true → NoNotNull original) → result = original
  ordered : (others original).Sublist result ∧ result.Sublist original

/-! ## What the passes leave of the options -/

section Passes

variable (column : Column)

theorem countP_eq_of_filter {q : Tree → Bool} {l m : List Tree} (same : l.filter q = m.filter q) :
    l.countP q = m.countP q := by
  rw [List.countP_eq_length_filter, List.countP_eq_length_filter, same]

/-- A clause is left behind exactly where one stands right behind another. -/
theorem finalOptions_clauses_iff :
    (∀ x ∈ column.finalOptions, hasType .tCreateTableOnupdate x = false) ↔
      (column.options.filter ColumnOption.leavesChild).IsChain fun first second =>
        ¬(first.isOnUpdate = true ∧ second.isOnUpdate = true) := by
  have same : column.finalOptions.filter (hasType .tCreateTableOnupdate) =
      column.keptOptions.filter (hasType .tCreateTableOnupdate) := by
    rw [column.finalOptions_filter fun x _ => hasType_apart (by decide),
      column.datedOptions_filter (fun x _ => hasType_apart (by decide))
        fun x _ => hasType_apart (by decide)]
  have none (l : List Tree) : (∀ x ∈ l, hasType .tCreateTableOnupdate x = false) ↔
      l.filter (hasType .tCreateTableOnupdate) = [] := by
    rw [List.filter_eq_nil_iff]
    exact forall₂_congr fun x _ => by simp
  rw [none, same, ← none, ← column.isChain_optionTrees_iff]
  exact takeSkip_snd_clear_iff _

theorem countP_datedOptions :
    column.datedOptions.countP (hasType .kAutoIncrement) =
      column.options.countP ColumnOption.isAutoIncrement := by
  rw [countP_eq_of_filter (column.datedOptions_filter (fun x _ => hasType_apart (by decide))
      fun x _ => hasType_apart (by decide)),
    countP_eq_of_filter (column.keptOptions_filter fun x _ => hasType_apart (by decide))]
  exact column.countP_optionTrees ColumnOption.countP_autoIncrement

theorem countP_keptOptions :
    column.keptOptions.countP (hasType .kNot) = column.options.countP ColumnOption.isNotNull := by
  rw [countP_eq_of_filter (column.keptOptions_filter fun x _ => hasType_apart (by decide))]
  exact column.countP_optionTrees ColumnOption.countP_notNull

/-- AUTO_INCREMENT is left behind exactly where it was written more than once. -/
theorem finalOptions_autoIncrement_iff :
    (∀ x ∈ column.finalOptions, hasType .kAutoIncrement x = false) ↔
      column.options.countP ColumnOption.isAutoIncrement ≤ 1 := by
  have erased := countP_eraseP (hasType .kAutoIncrement) column.datedOptions
  rw [countP_datedOptions column] at erased
  have none : (∀ x ∈ column.finalOptions, hasType .kAutoIncrement x = false) ↔
      column.finalOptions.countP (hasType .kAutoIncrement) = 0 := by
    rw [List.countP_eq_zero]
    exact forall₂_congr fun x _ => by simp
  rw [none, Column.finalOptions, erased]
  omega

theorem finalOptions_eq_filter
    (few : column.options.countP ColumnOption.isAutoIncrement ≤ 1) :
    column.finalOptions = column.datedOptions.filter fun x => !hasType .kAutoIncrement x :=
  eraseP_eq_filter (by rwa [countP_datedOptions column])

/-- Zero dates stand in no NOT, NULL and AUTO_INCREMENT. -/
theorem hasZeroDate_finalOptions :
    hasZeroDate column.finalOptions = hasZeroDate column.keptOptions := by
  have plain {k : TokenType} (other : k ≠ .tCreateTableColumnDefault ∧ k ≠ .tCreateTableOnupdate ∧
      k ≠ .stupidMysqlDate ∧ k ≠ .stupidMysqlTimestamp) (x : Tree)
      (member : x ∈ column.optionTrees) (hit : hasType k x = true) : carriesZero x = false := by
    simp only [hasType, beq_iff_eq] at hit
    subst hit
    exact carriesZero_of_leaf (column.leaf_of_mem_optionTrees member other.1 other.2.1)
      other.2.2.1 other.2.2.2
  refine hasZeroDate_congr ?_
  rw [column.finalOptions_filter (plain (by decide)),
    column.datedOptions_filter (plain (by decide)) (plain (by decide))]

theorem keptOptions_eq_unclaused
    (apart : (column.options.filter ColumnOption.leavesChild).IsChain fun first second =>
      ¬(first.isOnUpdate = true ∧ second.isOnUpdate = true)) :
    column.keptOptions = column.unclaused :=
  takeSkip_snd_eq_filter (column.isChain_optionTrees_iff.mpr apart)

/-- Where the other two kinds are gone, a NOT NULL is left beside a zero date exactly where it was
written more than once. -/
theorem finalOptions_notNull_iff
    (apart : (column.options.filter ColumnOption.leavesChild).IsChain fun first second =>
      ¬(first.isOnUpdate = true ∧ second.isOnUpdate = true))
    (few : column.options.countP ColumnOption.isAutoIncrement ≤ 1) :
    (hasZeroDate (column.header ++ column.finalOptions) = true →
        NoNotNull (column.header ++ column.finalOptions)) ↔
      (column.isZeroDated = true → column.options.countP ColumnOption.isNotNull ≤ 1) := by
  have kept := keptOptions_eq_unclaused column apart
  have zero : hasZeroDate (column.header ++ column.finalOptions) = column.isZeroDated := by
    rw [hasZeroDate_append, hasZeroDate_finalOptions column, kept, ← hasZeroDate_append,
      column.hasZeroDate_unclaused_behind column.hasZeroDate_header]
  rw [zero]
  refine imp_congr_right fun dated => ?_
  have dropped : column.datedOptions =
      dropFirst (hasType .kNot) (hasType .kNull) column.keptOptions := by
    rw [Column.datedOptions, kept, column.hasZeroDate_unclaused_behind column.hasZeroDate_typed,
      if_pos dated, deleteNotNull_eq]
  have paired : Paired (hasType .kNot) (hasType .kNull) column.keptOptions := by
    rw [kept]
    refine column.paired_optionTrees.filter fun x isNull => ?_
    simp [hasType_apart (l := .tCreateTableOnupdate) (by decide) isNull]
  have final : Paired (hasType .kNot) (hasType .kNull) column.finalOptions := by
    rw [finalOptions_eq_filter column few, dropped]
    refine paired.dropFirst.filter fun x isNull => ?_
    simp [hasType_apart (l := .kAutoIncrement) (by decide) isNull]
  have noNot := column.header_clear (k := .kNot) (by decide)
  have header : column.header.countP (hasType .kNot) = 0 :=
    List.countP_eq_zero.mpr fun x member => by simp [noNot x member]
  have total : (column.header ++ column.finalOptions).countP (hasType .kNot) =
      column.options.countP ColumnOption.isNotNull - 1 := by
    rw [List.countP_append, header, Nat.zero_add,
      countP_eq_of_filter (column.finalOptions_filter fun x _ => hasType_apart (by decide)), dropped,
      paired.countP_dropFirst fun x isNull => hasType_apart (by decide) isNull,
      countP_keptOptions column]
  rw [NoNotNull, ((paired_of_clear noNot).append final).absent_iff, total]
  omega

end Passes

/-! ## One definition -/

theorem others_sublist (l : List Tree) : (others l).Sublist l := by
  refine List.filter_sublist.trans ?_
  split
  · exact (dropAll_sublist _).trans List.filter_sublist
  · exact List.filter_sublist

theorem others_eq_self {l : List Tree}
    (noOnUpdate : ∀ x ∈ l, hasType .tCreateTableOnupdate x = false)
    (noAutoIncrement : ∀ x ∈ l, hasType .kAutoIncrement x = false)
    (noNotNull : hasZeroDate l = true → NoNotNull l) : others l = l := by
  have kept : (l.filter fun x => !hasType .tCreateTableOnupdate x) = l :=
    List.filter_eq_self.mpr fun x member => by simp [noOnUpdate x member]
  have dated : (if hasZeroDate l then dropAll (hasType .kNot) (hasType .kNull) l else l) = l := by
    split
    · exact dropAll_of_absent (noNotNull ‹_›)
    · rfl
  rw [others, kept, dated]
  exact List.filter_eq_self.mpr fun x member => by simp [noAutoIncrement x member]

section Column

variable (column : Column)

theorem others_column (sparse : column.Sparse) :
    others (column.header ++ column.optionTrees) = column.header ++ column.finalOptions := by
  have kept := keptOptions_eq_unclaused column sparse.onUpdate
  have noClause := column.header_clear (k := .tCreateTableOnupdate) (by decide)
  have noNot := column.header_clear (k := .kNot) (by decide)
  have noAutoIncrement := column.header_clear (k := .kAutoIncrement) (by decide)
  have unclaused : ((column.header ++ column.optionTrees).filter
      fun x => !hasType .tCreateTableOnupdate x) = column.header ++ column.unclaused := by
    rw [List.filter_append, List.filter_eq_self.mpr fun x member => by simp [noClause x member]]
    rfl
  have dated : (if hasZeroDate (column.header ++ column.unclaused) then
        dropAll (hasType .kNot) (hasType .kNull) (column.header ++ column.unclaused)
      else column.header ++ column.unclaused) = column.header ++ column.datedOptions := by
    rw [Column.datedOptions, kept, column.hasZeroDate_unclaused_behind column.hasZeroDate_header,
      column.hasZeroDate_unclaused_behind column.hasZeroDate_typed,
      dropAll_append_of_clear noNot, deleteNotNull_eq]
    split
    · rw [dropFirst_eq_dropAll]
      rw [← kept, countP_keptOptions column]
      exact sparse.notNull ‹_›
    · rfl
  rw [others, unclaused, dated, List.filter_append,
    List.filter_eq_self.mpr fun x member => by simp [noAutoIncrement x member],
    finalOptions_eq_filter column sparse.autoIncrement]

/-- The options of a definition are eliminated if and only if they are sparse. -/
theorem eliminated_iff :
    Eliminated (column.header ++ column.optionTrees) (column.header ++ column.finalOptions) ↔
      column.Sparse := by
  constructor
  · intro eliminated
    have apart := (finalOptions_clauses_iff column).mp fun x member =>
      eliminated.noOnUpdate x (List.mem_append_right _ member)
    have few := (finalOptions_autoIncrement_iff column).mp fun x member =>
      eliminated.noAutoIncrement x (List.mem_append_right _ member)
    exact ⟨apart, few, (finalOptions_notNull_iff column apart few).mp eliminated.noNotNull⟩
  · intro sparse
    have same := others_column column sparse
    have noClause := column.header_clear (k := .tCreateTableOnupdate) (by decide)
    have noAutoIncrement := column.header_clear (k := .kAutoIncrement) (by decide)
    refine ⟨fun x member => ?_, fun x member => ?_, ?_, fun a b c => ?_, ?_, ?_⟩
    · exact (List.mem_append.mp member).elim (noClause x)
        ((finalOptions_clauses_iff column).mpr sparse.onUpdate x)
    · exact (List.mem_append.mp member).elim (noAutoIncrement x)
        ((finalOptions_autoIncrement_iff column).mpr sparse.autoIncrement x)
    · exact (finalOptions_notNull_iff column sparse.onUpdate sparse.autoIncrement).mpr
        sparse.notNull
    · rw [← same, others_eq_self a b c]
    · rw [same]
    · rw [← same]
      exact others_sublist _

end Column

/-! ## The statement -/

/-- The function and the trigger of every ON UPDATE clause, and the other generated statements. -/
def statements (schemaName : String) (table : SpelledTable) : String :=
  String.join (table.columns.flatMap fun column => column.clauses.map fun clause =>
    onupdateText schemaName table.table.tablename column.name.1.text clause.children) ++
  String.join ((table.table.indexes schemaName ++ table.table.sequences schemaName ++
    table.table.foreignKeys).map Generated.text)

/-- The MySQL options of every column are eliminated, and every ON UPDATE clause has made one
function with its trigger. -/
def OptionsEliminated (ws : WalkerState) (table : SpelledTable) : Prop :=
  ∃ ws' tree, createTableWorker ws table.table.tree = some (ws', tree) ∧
    List.Forall₂ (fun original result => Eliminated (original.children.map withoutList)
        (result.children.map withoutList))
      (table.table.children.filter (hasType .tCreateTableColumnDef))
      (tree.children.filter (hasType .tCreateTableColumnDef)) ∧
    ws'.postbuf = ws.postbuf ++ statements ws.schemaName table

private theorem original_children (column : Column) :
    column.columnDef.tree.children.map withoutList = column.header ++ column.optionTrees := by
  have name : withoutList (leafOf column.name) = leafOf column.name := by
    have type : column.name.1.type = .id := List.mem_singleton.mp column.name.2
    simp [withoutList, type]
  have children : column.columnDef.tree.children =
      leafOf column.name :: (column.datatype.trees ++ column.optionTrees) := rfl
  rw [children, List.map_cons, name, List.map_append, column.map_optionTrees fun x member => member]
  rfl

private theorem result_children (column : Column) :
    (CreateTable.rewrittenColumn column.columnDef).children.map withoutList =
      column.header ++ column.finalOptions := by
  rw [column.rewrittenColumn_columnDef, List.map_append, column.map_typed,
    column.map_optionTrees column.finalOptions_sublist.subset]

private theorem onupdates_columnDef (column : Column) (sparse : column.Sparse) :
    column.columnDef.onupdates = column.clauses := by
  have clear : ∀ x ∈ column.datatype.trees, hasType .tCreateTableOnupdate x = false :=
    fun x member => hasType_of_mem (by decide) (column.datatype.getType_mem x member)
  have parts : column.columnDef.parts = column.datatype.trees ++ column.optionTrees := rfl
  rw [ColumnDef.onupdates, parts, takeSkip_append_of_clear clear,
    (takeSkip_fst_eq_filter_iff _).mpr (column.isChain_optionTrees_iff.mpr sparse.onUpdate),
    column.filter_onUpdate_optionTrees]

private theorem eliminated_columns_iff (table : SpelledTable) :
    List.Forall₂ (fun original result => Eliminated (original.children.map withoutList)
        (result.children.map withoutList))
      (table.table.children.filter (hasType .tCreateTableColumnDef))
      (table.table.rewritten.filter (hasType .tCreateTableColumnDef)) ↔
        ∀ column ∈ table.columns, column.Sparse := by
  have original : table.table.children.filter (hasType .tCreateTableColumnDef) =
      table.columns.map fun column => column.columnDef.tree := by
    rw [CreateTable.children, table.table.layout_filter table.table.typed_tree, table.spelled,
      List.map_map]
    rfl
  rw [original, table.filter_rewritten, List.forall₂_map_left_iff, List.forall₂_map_right_iff,
    List.forall₂_same]
  refine forall₂_congr fun column _ => ?_
  rw [original_children, result_children, eliminated_iff]

/-- The options of all columns are eliminated exactly when in every column no ON UPDATE option
stands right behind another one, AUTO_INCREMENT is written once at most and, beside a zero date,
NOT NULL is. -/
theorem createTableWorker_eliminated_iff (ws : WalkerState) (table : SpelledTable) :
    OptionsEliminated ws table ↔ ∀ column ∈ table.columns, column.Sparse := by
  refine (table.table.createTableWorker_behind_iff ws _).trans ?_
  constructor
  · exact fun behind => (eliminated_columns_iff table).mp behind.1
  · intro sparse
    refine ⟨(eliminated_columns_iff table).mpr sparse, ?_⟩
    have updates : table.table.onupdates ws.schemaName =
        table.columns.flatMap fun column => column.clauses.map fun clause =>
          .onupdate ws.schemaName table.table.tablename column.name.1.text clause.children := by
      rw [CreateTable.onupdates, table.spelled, List.flatMap_map]
      refine List.flatMap_congr fun column member => ?_
      rw [onupdates_columnDef column (sparse column member)]
      rfl
    rw [WalkerState.emit, CreateTable.generated, updates]
    simp only [WalkerState.append, statements, List.map_append, List.map_flatMap, List.map_map,
      String.join_append, List.append_assoc]
    rfl

/-! ## A clause behind a clause -/

section Repeated

private def word (type : TokenType) (text : String) : Token :=
  ⟨type, text, .default, 1, 0⟩

private def repeatedClause : ColumnOption :=
  .onUpdate ⟨word .kOn "ON", by decide⟩ ⟨word .kUpdate "UPDATE", by decide⟩
    [.leaf (word (.other 541) "NOW ( )")]

private def repeatedColumn : Column where
  name := ⟨word .id "a", by decide⟩
  datatype := .words [⟨word (.other 179) "TIMESTAMP", by decide⟩] none
  options := [repeatedClause, repeatedClause]

/-- `CREATE TABLE t (a TIMESTAMP ON UPDATE CURRENT_TIMESTAMP ON UPDATE CURRENT_TIMESTAMP)` -/
private def repeatedTable : SpelledTable where
  table :=
    { header := [⟨word .kCreate "CREATE", by decide⟩, ⟨word .kTable "TABLE", by decide⟩]
      qualifier := none
      name := ⟨word .id "t", by decide⟩
      lparen := ⟨word .lparen "(", by decide⟩
      first := repeatedColumn.columnDef
      columns := []
      constraints := []
      rparen := ⟨word .rparen ")", by decide⟩
      options := []
      as := none
      select := none
      semi := none }
  columns := [repeatedColumn]
  spelled := rfl

/-- The second clause is left in the definition. -/
theorem not_createTableWorker_eliminated_repeated :
    ¬ OptionsEliminated (walkerstateNew 0) repeatedTable := by
  intro behind
  obtain ⟨all, -⟩ := (repeatedTable.table.createTableWorker_behind_iff _ _).mp behind
  have sparse := (eliminated_columns_iff repeatedTable).mp all repeatedColumn List.mem_cons_self
  have apart := (List.isChain_cons_cons.mp sparse.onUpdate).1
  exact apart ⟨rfl, rfl⟩

end Repeated

end Pgify.ColumnOptions
