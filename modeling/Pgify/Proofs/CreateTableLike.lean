import Pgify.Model.Statement
import Pgify.Proofs.ColumnPasses

/-! # CREATE TABLE with LIKE

Such a statement has no columns and no constraints: every pass but the last finds nothing to do, and
the last removes the table options.
-/

namespace Pgify.Model

open SearchLoop

/-- A loop that finds nothing changes nothing. -/
theorem whileFound_clear {k : TokenType} {base : List Tree}
    (clear : ∀ x ∈ base, hasType k x = false)
    (body : ℕ → WalkerState → List Tree → Option (ℕ × WalkerState × List Tree))
    (ws : WalkerState) : whileFound k body ws base = some (ws, base) :=
  searchLoop_stop ws (Nat.succ_pos _) (findFrom_none 0 clear)

/-- Table options are taken out wherever they stand. -/
theorem createTableRemoveTableOptions_eq (ws : WalkerState) (base : List Tree) :
    createTableRemoveTableOptions ws base =
      some (ws, base.filter fun x => !hasType .tCreateTableOptions x) := by
  refine searchLoop_delete ?_ ws base (Nat.lt_succ_self _)
  intro ws before x rest _
  rw [eraseIdx_here]

namespace CreateTableLike

variable (table : CreateTableLike)

def doubled : CreateTableLike :=
  { table with qualifier := table.qualifier.map fun (schema, dot) => (doubledSchema schema, dot) }

/-- The children behind all passes. -/
def rewritten : List Tree :=
  table.doubled.front ++ table.tail

private theorem mem_header {x : Tree} (member : x ∈ table.header.map leafOf) : Plain x := by
  obtain ⟨token, -, rfl⟩ := List.mem_map.mp member
  exact plain_leafOf token (by decide)

/-- LIKE, the template and the parentheses around them. -/
theorem leaf_of_mem_body {x : Tree} (member : x ∈ table.body) :
    ∃ token : TokenIn [.kLike, .id, .lparen, .rparen], x = leafOf token := by
  have widen {types : List TokenType} (token : TokenIn types)
      (all : ∀ k ∈ types, k ∈ [TokenType.kLike, .id, .lparen, .rparen]) :
      ∃ wide : TokenIn [.kLike, .id, .lparen, .rparen], leafOf token = leafOf wide :=
    ⟨⟨token.1, all _ token.2⟩, rfl⟩
  cases parens : table.parens with
  | none =>
    simp only [body, parens, List.mem_cons, List.not_mem_nil, or_false] at member
    rcases member with rfl | rfl
    · exact widen table.like (by decide)
    · exact widen table.template (by decide)
  | some pair =>
    simp only [body, parens, List.mem_cons, List.not_mem_nil, or_false] at member
    rcases member with rfl | rfl | rfl | rfl
    · exact widen pair.1 (by decide)
    · exact widen table.like (by decide)
    · exact widen table.template (by decide)
    · exact widen pair.2 (by decide)

private theorem mem_body {x : Tree} (member : x ∈ table.body) : Plain x := by
  obtain ⟨token, rfl⟩ := table.leaf_of_mem_body member
  exact plain_leafOf token (by decide)

private theorem mem_tail {x : Tree} (member : x ∈ table.tail) :
    Plain x ∨ x.getType = .tSelectStatement :=
  plain_of_getType_tail (getType_tail member)

private theorem mem_front {x : Tree} (member : x ∈ table.front) :
    x.getType.isImaginary = false := by
  simp only [front, List.mem_append, List.mem_cons] at member
  rcases member with (header | qualifier) | rfl | body
  · exact (table.mem_header header).1
  · obtain ⟨schema, dot, -, rfl | rfl⟩ := mem_qualifier qualifier
    · exact schema.2.1
    · exact (plain_leafOf dot (by decide)).1
  · exact (plain_leafOf table.name (by decide)).1
  · exact (table.mem_body body).1

theorem not_columnDef {x : Tree} (member : x ∈ table.rewritten) :
    x.getType ≠ .tCreateTableColumnDef := by
  intro type
  rcases List.mem_append.mp member with front | tail
  · have plain := table.doubled.mem_front front
    rw [type] at plain
    cases plain
  · rcases table.mem_tail tail with plain | select
    · have leaf := plain.1
      rw [type] at leaf
      cases leaf
    · rw [type] at select
      cases select

/-- The only nodes among the children are options and the select statement. -/
private theorem children_clear {k : TokenType} (imaginary : k.isImaginary = true)
    (noOption : k ≠ .tCreateTableOptions) (noSelect : k ≠ .tSelectStatement) :
    ∀ x ∈ table.children, hasType k x = false := by
  intro x member
  simp only [children, List.mem_append, List.mem_map] at member
  rcases member with front | ⟨option, -, rfl⟩ | tail
  · exact hasType_of_imaginary (table.mem_front front) imaginary
  · simpa [hasType, TableOption.tree] using noOption.symm
  · rcases table.mem_tail tail with plain | select
    · exact hasType_of_imaginary plain.1 imaginary
    · simpa [hasType, select] using noSelect.symm

private theorem createTableTablename_isSome :
    ∃ tablename, createTableTablename table.children = some tablename := by
  have named : leafOf table.name ∈ table.children := by simp [children, front]
  have found : (table.children.find? (hasType .id)).isSome := by
    rw [List.find?_isSome]
    exact ⟨_, named, by simpa [hasType] using table.name.2⟩
  obtain ⟨x, present⟩ := Option.isSome_iff_exists.mp found
  exact ⟨x.getText, by rw [createTableTablename, present]; rfl⟩

private theorem createRewriteDatatypes_children :
    createRewriteDatatypes table.children = table.doubled.children := by
  have header : ∀ x ∈ table.header.map leafOf, x.getType ≠ .kDouble :=
    fun x member => (table.mem_header member).2
  have rest : ∀ x ∈ leafOf table.name :: (table.body ++
      (table.options.map TableOption.tree ++ table.tail)), x.getType ≠ .kDouble := by
    intro x member
    simp only [List.mem_cons, List.mem_append, List.mem_map] at member
    rcases member with rfl | body | ⟨option, -, rfl⟩ | tail
    · exact (plain_leafOf table.name (by decide)).2
    · exact (table.mem_body body).2
    · simp [TableOption.tree]
    · rcases table.mem_tail tail with plain | select
      · exact plain.2
      · simp [select]
  have qualified := createRewriteDatatypes_qualifier table.qualifier rest
  simp only [children, front, List.append_assoc, List.cons_append] at qualified ⊢
  rw [createRewriteDatatypes_append header]
  exact congrArg _ qualified

private theorem children_withoutOptions :
    (table.children.filter fun x => !hasType .tCreateTableOptions x) =
      table.front ++ table.tail := by
  have front : ∀ x ∈ table.front, hasType .tCreateTableOptions x = false :=
    fun x member => hasType_of_imaginary (table.mem_front member) rfl
  have tail : ∀ x ∈ table.tail, hasType .tCreateTableOptions x = false := by
    intro x member
    rcases table.mem_tail member with plain | select
    · exact hasType_of_imaginary plain.1 rfl
    · simp [hasType, select]
  have options := hasType_options table.options
  rw [children, List.filter_append, List.filter_append,
    List.filter_eq_self.mpr fun x member => by simp [front x member],
    List.filter_eq_nil_iff.mpr fun x member => by simp [options x member],
    List.filter_eq_self.mpr fun x member => by simp [tail x member], List.nil_append]

theorem createTableWorker_eq (ws : WalkerState) :
    createTableWorker ws table.tree =
      some (ws, rooted .tCreateTable "T_CREATE_TABLE" table.rewritten) := by
  have clear {k : TokenType} (imaginary : k.isImaginary = true)
      (noOption : k ≠ .tCreateTableOptions) (noSelect : k ≠ .tSelectStatement)
      (body : ℕ → WalkerState → List Tree → Option (ℕ × WalkerState × List Tree)) :
      whileFound k body ws table.doubled.children = some (ws, table.doubled.children) :=
    whileFound_clear (table.doubled.children_clear imaginary noOption noSelect) body ws
  obtain ⟨tablename, named⟩ := table.doubled.createTableTablename_isSome
  have enum : createRewriteEnum ws table.children = some (ws, table.children) :=
    whileFound_clear (table.children_clear rfl (by decide) (by decide)) _ ws
  have columnDef := clear (k := .tCreateTableColumnDef) rfl (by decide) (by decide)
  have index := clear (k := .tCreateTableIndex) rfl (by decide) (by decide)
  have fulltext := clear (k := .tCreateTableFulltextIndex) rfl (by decide) (by decide)
  have fkey := clear (k := .tCreateTableFkey) rfl (by decide) (by decide)
  simp only [createTableWorker, tree, children_rooted, enum, Option.bind_eq_bind,
    Option.bind_some, table.createRewriteDatatypes_children, createTableRewriteOnupdate, named,
    columnDef, createRewriteStupidDate, createTableIndex, index, createTableRewriteAutoInc,
    createTableFulltextIndex, fulltext, createTableRewriteFkey, fkey,
    createTableRemoveTableOptions_eq, table.doubled.children_withoutOptions]
  rfl

/-- What holds behind the run is what holds of its result. -/
theorem createTableWorker_behind_iff (ws : WalkerState) (p : WalkerState → Tree → Prop) :
    (∃ ws' tree, createTableWorker ws table.tree = some (ws', tree) ∧ p ws' tree) ↔
      p ws (rooted .tCreateTable "T_CREATE_TABLE" table.rewritten) := by
  have run := table.createTableWorker_eq ws
  constructor
  · rintro ⟨ws', tree, own, behind⟩
    cases run.symm.trans own
    exact behind
  · exact fun behind => ⟨_, _, run, behind⟩

end CreateTableLike

end Pgify.Model
