import Pgify.Lib.QuotedName
import Pgify.Proofs.ShowRewrites

/-! # The schema filter of SHOW TABLES and SHOW COLUMNS

Both queries compare `table_schema` with the schema of the statement, and with `current_schema()`
where the statement names none. SHOW COLUMNS writes the name as a string literal. SHOW TABLES writes
it between double quotes, which PostgreSQL reads as the name of a column.
-/

namespace Pgify.SchemaFilter

open Model

/-- The string literal of a value. -/
def literal (value : String) : String :=
  String.ofList (QuotedName.enclose '\'' value.toList)

/-- What both queries compare `table_schema` with. -/
def operand (rt : Runtime) (schema : Option SqlIdentifier) : String :=
  schema.elim "current_schema()" fun name => literal (shownName rt name)

/-- The two statements with the same schema are rewritten to queries that compare with the same
operand; SHOW COLUMNS is about the table of its first FROM, and only the filter and the semicolon
are left behind either query. -/
def Agree (rt : Runtime) (tables : ShowTablesClauses) (columns : ShowColumnsClauses)
    (schema : Option SqlIdentifier) : Prop :=
  showTablesRewrite rt (tables.children schema) =
      some (tables.rewritten (operand rt schema)) ∧
    showColumnsRewrite rt (columns.children schema) =
      some (columns.rewritten (shownName rt columns.table) (operand rt schema))

/-! ## The name between single quotes -/

theorem quote_notMem_unquote (string : String) : '\'' ∉ (unquote string).toList := by
  simp [unquote]

/-- Without quotes in it the name is the value of the literal as it stands. -/
theorem literal_shownName (rt : Runtime) (name : SqlIdentifier) :
    literal (shownName rt name) = s!"'{shownName rt name}'" := by
  have plain : QuotedName.double '\'' (shownName rt name).toList = (shownName rt name).toList :=
    QuotedName.double_eq_self_iff.mpr (quote_notMem_unquote _)
  rw [literal, QuotedName.enclose, plain, ← String.toList_inj]
  simp [toString]

/-- SHOW COLUMNS compares with the literal for every schema. -/
theorem showColumns_operand (rt : Runtime) (columns : ShowColumnsClauses)
    (schema : Option SqlIdentifier) :
    showColumnsRewrite rt (columns.children schema) =
      some (columns.rewritten (shownName rt columns.table) (operand rt schema)) := by
  rw [showColumnsRewrite_children, operand]
  cases schema with
  | none => simp only [Option.elim_none]
  | some name => simp only [Option.elim_some, literal_shownName]

/-! ## The name between double quotes -/

private theorem regroup (a b c d w operand n e f g v h i : String) :
    a ++ b ++ c ++ d ++ (w ++ operand ++ n) ++ e ++ f ++ g ++ v ++ h ++ i =
      a ++ b ++ c ++ d ++ w ++ (operand ++ (n ++ e ++ f ++ g ++ v ++ h ++ i)) := by
  simp only [String.append_assoc]

/-- The query has the same text in front of every operand. -/
private theorem showTablesText_front (columns filter : String) : ∃ front, ∀ operand, ∃ behind,
    showTablesText columns operand filter = front ++ (operand ++ behind) :=
  ⟨_, fun _ => ⟨_, regroup _ _ _ _ _ _ _ _ _ _ _ _ _⟩⟩

/-- Equal queries with the same columns have operands with the same first character. -/
private theorem head?_of_showTablesText {columns filter first second : String}
    (same : showTablesText columns first filter = showTablesText columns second filter)
    (nonempty : first.toList.head?.isSome) (nonempty' : second.toList.head?.isSome) :
    first.toList.head? = second.toList.head? := by
  obtain ⟨front, split⟩ := showTablesText_front columns filter
  obtain ⟨behind, own⟩ := split first
  obtain ⟨behind', own'⟩ := split second
  rw [own, own', String.append_right_inj] at same
  have heads := congrArg (fun text => text.toList.head?) same
  obtain ⟨c, here⟩ := Option.isSome_iff_exists.mp nonempty
  obtain ⟨d, here'⟩ := Option.isSome_iff_exists.mp nonempty'
  simp only [String.toList_append, List.head?_append, here, here', Option.some_or] at heads
  rw [here, here', heads]

/-- The operand of SHOW TABLES starts with a double quote. -/
theorem not_agree_some (rt : Runtime) (tables : ShowTablesClauses) (columns : ShowColumnsClauses)
    (name : SqlIdentifier) : ¬ Agree rt tables columns (some name) := by
  rintro ⟨rewrite, -⟩
  rw [showTablesRewrite_children] at rewrite
  have texts := congrArg (List.map Tree.getText) (Option.some.inj rewrite)
  simp only [ShowTablesClauses.rewritten, List.map_cons, Tree.getText_leaf] at texts
  have quoted : (s!"\"{shownName rt name}\"").toList.head? = some '"' := by simp [toString]
  have closed : (operand rt (some name)).toList.head? = some '\'' := by
    simp [operand, literal, QuotedName.enclose]
  have heads := head?_of_showTablesText (List.cons.inj texts).1
    (by rw [Option.elim_some, quoted]; rfl) (by rw [closed]; rfl)
  rw [Option.elim_some, quoted, closed] at heads
  cases heads

/-- The queries agree on the schema filter exactly where no schema is named. -/
theorem agree_iff (rt : Runtime) (tables : ShowTablesClauses) (columns : ShowColumnsClauses)
    (schema : Option SqlIdentifier) : Agree rt tables columns schema ↔ schema = none := by
  cases schema with
  | none =>
    refine iff_of_true ⟨?_, showColumns_operand rt columns none⟩ rfl
    rw [showTablesRewrite_children]
    simp only [operand, Option.elim_none]
  | some name => exact iff_of_false (not_agree_some rt tables columns name) (by simp)

/-! ## One schema -/

private def word (type : TokenType) (text : String) : Token :=
  ⟨type, text, .default, 1, 0⟩

private def name (text : String) : SqlIdentifier :=
  ⟨word .id text, rfl, rfl⟩

/-- `SHOW TABLES FROM wp` and `SHOW COLUMNS FROM wp_posts FROM wp` -/
theorem not_agree_wp :
    ¬ Agree ⟨asciiLower, 0⟩
      { show' := ⟨word .kShow "SHOW", List.mem_singleton_self _⟩
        full := none
        tables := ⟨word .kTables "TABLES", List.mem_singleton_self _⟩
        filter := none
        semi := none }
      { show' := ⟨word .kShow "SHOW", List.mem_singleton_self _⟩
        full := none
        table := name "wp_posts"
        filter := none
        semi := none }
      (some (name "wp")) :=
  not_agree_some _ _ _ (name "wp")

end Pgify.SchemaFilter
