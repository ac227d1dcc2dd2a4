import Pgify.Lib.JoinedNames
import Pgify.Model.ColumnGrammar
import Pgify.Proofs.CreateTable

/-! # The names of generated objects

Indexes and sequences share one namespace, functions have their own. Every name is the unquoted name
of the table, a separator and the unquoted name of an index or a column, and the separator may stand
in these too: two names are the same exactly when their words clash.
-/

namespace Pgify.GeneratedNames

open Model

inductive Kind where
  | index | sequence | function
deriving DecidableEq

/-- A generated object: what is put together to its name. -/
structure ObjectName where
  kind : Kind
  table : String
  part : String

namespace Kind

def separator : Kind → String
  | index => "_"
  | sequence => "_"
  | function => "_update_"

def ending : Kind → String
  | index => "_index"
  | sequence => "_seq"
  | function => ""

end Kind

namespace ObjectName

variable (name : ObjectName)

def text : String :=
  name.table ++ name.kind.separator ++ name.part ++ name.kind.ending

def words : List Char × List Char :=
  (name.table.toList, name.part.toList)

/-- Indexes and sequences are relations. -/
def isRelation : Bool :=
  name.kind != .function

/-- Two objects of one kind whose words are joined to the same. -/
def Clash (first second : ObjectName) : Prop :=
  first.kind = second.kind ∧
    JoinedNames.Clash first.kind.separator.toList first.words second.words

end ObjectName

/-! ## The objects of a statement -/

/-- The object that a generated statement creates first. -/
def objectName? : Generated → Option ObjectName
  | .onupdate _ tablename column _ => some ⟨.function, unquote tablename, unquote column⟩
  | .index _ tablename name _ _ => some ⟨.index, unquote tablename, unquote name⟩
  | .autoInc _ tablename column _ => some ⟨.sequence, unquote tablename, unquote column⟩
  | .fkey _ _ => none

/-- What the statement that creates an object begins with. -/
def opening : Generated → String
  | .onupdate schemaName _ _ _ => "CREATE OR REPLACE FUNCTION " ++ schemaName
  | .index _ _ _ _ _ => "CREATE INDEX "
  | .autoInc schemaName _ _ _ => "CREATE SEQUENCE " ++ schemaName
  | .fkey _ _ => ""

/-- The objects that a CREATE TABLE asks for: a function for each ON UPDATE, an index for each key
and a sequence for each AUTO_INCREMENT. A key without a name has that of its first column. -/
def objectNames (table : CreateTable) : List ObjectName :=
  (table.columnDefs.flatMap fun columnDef => columnDef.onupdates.map fun _ =>
    ⟨.function, unquote table.tablename, unquote columnDef.name.1.text⟩) ++
  ((table.constraints.filterMap fun pair => pair.2.indexKey?).map fun key =>
    ⟨.index, unquote table.tablename, unquote (key.name.getD key.columns.first.name).1.text⟩) ++
  (table.columnDefs.filter ColumnDef.isAutoIncrement).map fun columnDef =>
    ⟨.sequence, unquote table.tablename, unquote columnDef.name.1.text⟩

def statements (schemaName : String) (tables : List CreateTable) : List Generated :=
  tables.flatMap fun table => table.generated schemaName

/-- One CREATE TABLE after the other. -/
def walkTables (ws : WalkerState) (tables : List CreateTable) : Option WalkerState :=
  tables.foldlM (fun ws table => (createTableWorker ws table.tree).map Prod.fst) ws

/-- The walk creates no two relations and no two functions of one name. -/
def NamesUnique (ws : WalkerState) (tables : List CreateTable) : Prop :=
  let created := (statements ws.schemaName tables).filterMap objectName?
  walkTables ws tables = some (ws.emit (statements ws.schemaName tables)) ∧
    ((created.filter ObjectName.isRelation).map ObjectName.text).Nodup ∧
    ((created.filter fun name => !name.isRelation).map ObjectName.text).Nodup

private theorem begins_append {text front : String} {more : String}
    (begins : ∃ behind, text = front ++ behind) : ∃ behind, text ++ more = front ++ behind := by
  obtain ⟨behind, rfl⟩ := begins
  exact ⟨behind ++ more, String.append_assoc⟩

private theorem onupdate_begins (schemaName utablename uname name expr : String) :
    ∃ behind, onupdateFunctionText schemaName utablename uname name expr =
      "CREATE OR REPLACE FUNCTION " ++ schemaName ++ (utablename ++ "_update_" ++ uname ++ "") ++
        behind := by
  have line (a s t u n b : String) :
      ∃ behind, a ++ s ++ t ++ u ++ n ++ b = a ++ s ++ (t ++ u ++ n ++ "") ++ behind :=
    ⟨b, by simp only [String.append_assoc, String.empty_append]⟩
  exact begins_append (begins_append (begins_append (begins_append (begins_append
    (begins_append (line _ _ _ _ _ _))))))

private theorem index_begins (schemaName tablename name : String) (indexType : Option String)
    (columns : String) :
    ∃ behind, indexText schemaName tablename name indexType columns =
      "CREATE INDEX " ++ (unquote tablename ++ "_" ++ unquote name ++ "_index") ++ behind := by
  rw [indexText_eq]
  exact begins_append (begins_append (begins_append (begins_append ⟨" ON ", rfl⟩)))

private theorem sequence_begins (schemaName tablename column start : String) :
    ∃ behind, createSequenceText schemaName (sequenceName tablename column) start =
      "CREATE SEQUENCE " ++ schemaName ++
        (unquote tablename ++ "_" ++ unquote column ++ "_seq") ++ behind := by
  have line (a s q b c d : String) :
      ∃ behind, a ++ s ++ q ++ b ++ c ++ d = a ++ s ++ q ++ behind :=
    ⟨b ++ c ++ d, by simp only [String.append_assoc]⟩
  exact line _ _ _ _ _ _

/-- The generated text has the name behind its opening. -/
theorem text_of_objectName {generated : Generated} {name : ObjectName}
    (creates : objectName? generated = some name) :
    ∃ behind, generated.text = opening generated ++ name.text ++ behind := by
  cases generated with
  | onupdate schemaName tablename column clause =>
    cases creates
    exact begins_append (onupdate_begins _ _ _ _ _)
  | index schemaName tablename name indexType columns =>
    cases creates
    exact index_begins _ _ _ _ _
  | autoInc schemaName tablename column start =>
    cases creates
    exact begins_append (sequence_begins _ _ _ _)
  | fkey tablename tokens => cases creates

theorem objectNames_eq (schemaName : String) (table : CreateTable) :
    (table.generated schemaName).filterMap objectName? = objectNames table := by
  have none : table.foreignKeys.filterMap objectName? = [] := by
    simp [CreateTable.foreignKeys, List.filterMap_eq_nil_iff, objectName?]
  have functions : (table.onupdates schemaName).filterMap objectName? =
      table.columnDefs.flatMap fun columnDef => columnDef.onupdates.map fun _ =>
        ⟨.function, unquote table.tablename, unquote columnDef.name.1.text⟩ := by
    rw [CreateTable.onupdates, List.filterMap_flatMap]
    refine List.flatMap_congr fun columnDef _ => ?_
    rw [List.filterMap_map, ← List.filterMap_eq_map]
    rfl
  rw [CreateTable.generated, List.filterMap_append, none, List.append_nil, List.filterMap_append,
    List.filterMap_append, functions, CreateTable.indexes, CreateTable.sequences,
    List.filterMap_map, List.filterMap_map, objectNames]
  congr 1
  · congr 1
    rw [← List.filterMap_eq_map]
    rfl
  · rw [← List.filterMap_eq_map]
    rfl

theorem walkTables_eq (ws : WalkerState) (tables : List CreateTable) :
    walkTables ws tables = some (ws.emit (statements ws.schemaName tables)) := by
  induction tables generalizing ws with
  | nil => simp [walkTables, statements]
  | cons table rest ih =>
    have tail := ih (ws.emit (table.generated ws.schemaName))
    rw [walkTables] at tail ⊢
    rw [List.foldlM_cons, table.createTableWorker_eq, Option.map_some, Option.bind_eq_bind,
      Option.bind_some, tail]
    simp [statements]

/-! ## Equal names -/

theorem toList_text (name : ObjectName) : name.text.toList =
    JoinedNames.join name.kind.separator.toList name.words ++ name.kind.ending.toList := by
  simp [ObjectName.text, JoinedNames.join, ObjectName.words]

/-- In one namespace the ending tells the kind. -/
theorem kind_eq_of_ending {kind kind' : Kind} (space : (kind != .function) = (kind' != .function))
    {front front' : List Char}
    (same : front ++ kind.ending.toList = front' ++ kind'.ending.toList) : kind = kind' := by
  have last := congrArg List.getLast? same
  rw [List.getLast?_append, List.getLast?_append] at last
  cases kind <;> cases kind'
  case index.index => rfl
  case sequence.sequence => rfl
  case function.function => rfl
  case index.sequence =>
    have letters : 'x' = 'q' := Option.some.inj last
    exact absurd letters (by decide)
  case sequence.index =>
    have letters : 'q' = 'x' := Option.some.inj last
    exact absurd letters (by decide)
  all_goals exact absurd space (by decide)

theorem text_eq_iff {first second : ObjectName} (space : first.isRelation = second.isRelation) :
    first.text = second.text ↔ first.Clash second := by
  rw [← String.toList_inj, toList_text, toList_text, ObjectName.Clash]
  by_cases kinds : first.kind = second.kind
  · rw [kinds, List.append_left_inj, JoinedNames.join_eq_iff]
    exact (and_iff_right rfl).symm
  · exact iff_of_false (fun same => kinds (kind_eq_of_ending space same))
      fun clash => kinds clash.1

/-- No two relations and no two functions have one name exactly when no two objects clash. -/
theorem nodup_iff (names : List ObjectName) :
    ((names.filter ObjectName.isRelation).map ObjectName.text).Nodup ∧
        ((names.filter fun name => !name.isRelation).map ObjectName.text).Nodup ↔
      names.Pairwise fun first second => ¬ first.Clash second := by
  rw [List.nodup_iff_pairwise_ne, List.nodup_iff_pairwise_ne, List.pairwise_map,
    List.pairwise_map, List.pairwise_filter, List.pairwise_filter, ← List.pairwise_and_iff]
  refine List.Pairwise.iff_of_mem fun {first second} _ _ => ?_
  constructor
  · rintro ⟨relations, functions⟩ clash
    have space : first.isRelation = second.isRelation := by
      rw [ObjectName.isRelation, clash.1, ObjectName.isRelation]
    have same := (text_eq_iff space).mpr clash
    cases own : first.isRelation with
    | true => exact relations own (space ▸ own) same
    | false =>
      have own' : second.isRelation = false := space ▸ own
      exact functions (by rw [own, Bool.not_false]) (by rw [own', Bool.not_false]) same
  · intro apart
    constructor
    · intro own own' same
      exact apart ((text_eq_iff (own.trans own'.symm)).mp same)
    · intro own own' same
      rw [Bool.not_eq_eq_eq_not] at own own'
      exact apart ((text_eq_iff (own.trans own'.symm)).mp same)

theorem created_eq (schemaName : String) (tables : List CreateTable) :
    (statements schemaName tables).filterMap objectName? = tables.flatMap objectNames := by
  rw [statements, List.filterMap_flatMap]
  simp only [objectNames_eq]

/-- The generated names are unique exactly when the words of no two objects clash. -/
theorem namesUnique_iff (ws : WalkerState) (tables : List CreateTable) :
    NamesUnique ws tables ↔
      (tables.flatMap objectNames).Pairwise fun first second => ¬ first.Clash second := by
  simp only [NamesUnique, and_iff_right (walkTables_eq ws tables), created_eq, nodup_iff]

/-! ## Two tables whose names continue each other -/

/-- The names of the tables, of the keys of each and of the columns of each are distinct. -/
def Distinct (tables : List CreateTable) : Prop :=
  (tables.map fun table => unquote table.tablename).Nodup ∧
    ∀ table ∈ tables, (table.columnDefs.map fun columnDef => unquote columnDef.name.1.text).Nodup ∧
      ((table.constraints.filterMap fun pair => pair.2.indexKey?).filterMap fun key =>
        key.name.map fun name => unquote name.1.text).Nodup

section Continued

private def lexeme (type : TokenType) (text : String) : Token :=
  ⟨type, text, .default, 1, 0⟩

/-- `CREATE TABLE name (column INT AUTO_INCREMENT PRIMARY KEY)` -/
private def numbered (name column : String) : CreateTable where
  header := [⟨lexeme .kCreate "CREATE", by decide⟩, ⟨lexeme .kTable "TABLE", by decide⟩]
  qualifier := none
  name := ⟨lexeme .id name, List.mem_singleton_self _⟩
  lparen := ⟨lexeme .lparen "(", by decide⟩
  first := Column.columnDef
    { name := ⟨lexeme .id column, List.mem_singleton_self _⟩
      datatype := .integer ⟨lexeme (.other 209) "INT", by decide⟩ none none
      options := [.autoIncrement ⟨lexeme .kAutoIncrement "AUTO_INCREMENT", by decide⟩,
        .key (some ⟨lexeme .kPrimary "PRIMARY", by decide⟩) ⟨lexeme .kKey "KEY", by decide⟩] }
  columns := []
  constraints := []
  rparen := ⟨lexeme .rparen ")", by decide⟩
  options := []
  as := none
  select := none
  semi := none

private theorem objectNames_numbered (name column : String) :
    objectNames (numbered name column) = [⟨.sequence, unquote name, unquote column⟩] :=
  rfl

/-- Table `a` with the column `b_c` and table `a_b` with the column `c` both get `a_b_c_seq`. -/
theorem not_namesUnique_continued :
    Distinct [numbered "a" "b_c", numbered "a_b" "c"] ∧
      ¬ NamesUnique (walkerstateNew 0) [numbered "a" "b_c", numbered "a_b" "c"] := by
  constructor
  · refine ⟨by decide, fun table member => ?_⟩
    rcases List.mem_pair.mp member with rfl | rfl
    · exact ⟨List.pairwise_singleton _ _, List.nodup_nil⟩
    · exact ⟨List.pairwise_singleton _ _, List.nodup_nil⟩
  · rintro ⟨-, unique⟩
    rw [created_eq, nodup_iff, List.flatMap_cons, List.flatMap_cons, List.flatMap_nil,
      objectNames_numbered, objectNames_numbered] at unique
    have apart := List.rel_of_pairwise_cons unique List.mem_cons_self
    exact apart ⟨rfl, .inr (.inl ⟨['b'], by decide, by decide⟩)⟩

end Continued

end Pgify.GeneratedNames
