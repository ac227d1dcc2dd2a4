import Pgify.Model.Statement

/-! # Column definitions as the grammar spells them

`column_definition` with its datatype and its options, in any order and any number. `COLLATE`,
`CHARACTER SET` and `UNSIGNED` are accepted and have empty rewrites; an integer type loses its
length. Everything else goes into the T_CREATE_TABLE_COLUMN_DEF node as it stands.
-/

namespace Pgify.Model

/-- A keyword with its spelling, in any case. -/
abbrev Keyword (type : TokenType) (spelling : String) :=
  { token : Token // token.type = type ∧ asciiLower token.text = spelling }

/-- K_INT, K_INTEGER, K_MEDIUMINT, K_TINYINT, K_SMALLINT and K_BIGINT. -/
def integerTypes : List TokenType :=
  [.other 209, .other 210, .other 211, .other 212, .other 213, .other 214]

/-- The other words of `datatype` (K_BINARY_INTEGER to K_UROWID, and those of times, intervals and
character types), its lengths and its commas. -/
def datatypeTypes : List TokenType :=
  [.lparen, .number, .comma, .rparen, .kWith, .other 36, .other 48, .other 124, .other 144,
    .other 145, .other 155, .other 156, .other 159, .other 163, .other 164, .other 165, .other 166,
    .other 167, .other 168, .other 169, .other 170, .other 171, .other 172, .other 173, .other 174,
    .other 175, .other 176, .other 177, .other 178, .other 179, .other 180, .other 181, .other 184,
    .other 185, .other 186, .other 187, .other 188, .other 189, .other 190, .other 191, .other 192,
    .other 193, .other 194, .other 195, .other 196, .other 197, .other 198, .other 199, .other 200,
    .other 201, .other 202, .other 203, .other 204, .other 205, .other 206, .other 207]

/-- `( K_ENUM | K_SET ) LPAREN QUOTED_STRING ( ',' QUOTED_STRING )* RPAREN` -/
structure EnumType where
  keyword : TokenIn [.kEnum, .kSet]
  lparen : TokenIn [.lparen]
  first : TokenIn [.quotedString]
  rest : List (TokenIn [.comma] × TokenIn [.quotedString])
  rparen : TokenIn [.rparen]

namespace EnumType

variable (type : EnumType)

/-- The values of the type, in the order of the definition. -/
def values : List Token :=
  type.first.1 :: type.rest.map fun pair => pair.2.1

/-- From the opening parenthesis to the closing one. -/
def list : List Tree :=
  leafOf type.lparen :: leafOf type.first ::
    (type.rest.flatMap fun pair => [leafOf pair.1, leafOf pair.2]) ++ [leafOf type.rparen]

def tree : Tree :=
  rooted .tCreateTableEnum "T_CREATE_TABLE_ENUM" (leafOf type.keyword :: type.list)

end EnumType

/-- `datatype` -/
inductive Datatype where
  | words (tokens : List (TokenIn datatypeTypes)) (unsigned : Option (TokenIn [.other 215]))
  | integer (keyword : TokenIn integerTypes) (length : Option (TokenIn [.number]))
    (unsigned : Option (TokenIn [.other 215]))
  | double (keyword : Keyword .kDouble "double")
    (precision : Option (Keyword .kPrecision "precision"))
    (unsigned : Option (TokenIn [.other 215]))
  | enum (type : EnumType)
  | zeroDate (literal : TokenIn [.stupidMysqlDate, .stupidMysqlTimestamp])

def Datatype.trees : Datatype → List Tree
  | words tokens _ => tokens.map leafOf
  | integer keyword _ _ => [leafOf keyword]
  | double keyword precision _ => .leaf keyword.1 :: (precision.map fun token => .leaf token.1).toList
  | enum type => [type.tree]
  | zeroDate literal => [leafOf literal]

/-- `column_definition_options` -/
inductive ColumnOption where
  | notNull (first : TokenIn [.kNot]) (second : TokenIn [.kNull])
  | null (keyword : TokenIn [.kNull])
  | default (keyword : TokenIn [.other 47]) (expression : List Tree)
  | onUpdate (on : TokenIn [.kOn]) (update : TokenIn [.kUpdate]) (expression : List Tree)
  | autoIncrement (keyword : TokenIn [.kAutoIncrement])
  | unique (keyword : TokenIn [.kUnique])
  | key (primary : Option (TokenIn [.kPrimary])) (keyword : TokenIn [.kKey])
  | comment (keyword : TokenIn [.other 65]) (text : TokenIn [.quotedString])
  | columnFormat (keyword : TokenIn [.other 67]) (format : TokenIn [.other 68, .other 69, .other 47])
  | storage (keyword : TokenIn [.other 70]) (medium : TokenIn [.other 569, .other 570, .other 47])
  | collate (keyword : TokenIn [.other 52]) (name : TokenIn [.id])
  | charset (words : List (TokenIn [.other 48, .kSet, .other 50])) (name : TokenIn [.id])

namespace ColumnOption

/-- The node of an ON UPDATE clause. -/
def clause (on : TokenIn [.kOn]) (update : TokenIn [.kUpdate]) (expression : List Tree) : Tree :=
  rooted .tCreateTableOnupdate "T_CREATE_TABLE_ONUPDATE" (leafOf on :: leafOf update :: expression)

def trees : ColumnOption → List Tree
  | notNull first second => [leafOf first, leafOf second]
  | null keyword => [leafOf keyword]
  | default keyword expression =>
    [rooted .tCreateTableColumnDefault "T_CREATE_TABLE_COLUMN_DEFAULT"
      (leafOf keyword :: expression)]
  | onUpdate on update expression => [clause on update expression]
  | autoIncrement keyword => [leafOf keyword]
  | unique keyword => [leafOf keyword]
  | key primary keyword => (primary.map leafOf).toList ++ [leafOf keyword]
  | comment keyword text => [leafOf keyword, leafOf text]
  | columnFormat keyword format => [leafOf keyword, leafOf format]
  | storage keyword medium => [leafOf keyword, leafOf medium]
  | collate _ _ => []
  | charset _ _ => []

end ColumnOption

/-- `identifier datatype column_definition_options*` -/
structure Column where
  name : TokenIn [.id]
  datatype : Datatype
  options : List ColumnOption

namespace Column

variable (column : Column)

/-- The children that the options make. -/
def optionTrees : List Tree :=
  column.options.flatMap ColumnOption.trees

/-- The children of the definition behind its name. -/
def parts : List Tree :=
  column.datatype.trees ++ column.optionTrees

end Column

/-! ## What stands in a definition -/

/-- The types of the children that a datatype makes. -/
def Datatype.types : List TokenType :=
  [.kDouble, .kPrecision, .tCreateTableEnum, .stupidMysqlDate, .stupidMysqlTimestamp] ++
    datatypeTypes ++ integerTypes

/-- The types of the children that an option makes. -/
def ColumnOption.ownTypes : ColumnOption → List TokenType
  | notNull .. => [.kNot, .kNull]
  | null .. => [.kNull]
  | default .. => [.tCreateTableColumnDefault]
  | onUpdate .. => [.tCreateTableOnupdate]
  | autoIncrement .. => [.kAutoIncrement]
  | unique .. => [.kUnique]
  | key .. => [.kPrimary, .kKey]
  | comment .. => [.other 65, .quotedString]
  | columnFormat .. => [.other 67, .other 68, .other 69, .other 47]
  | storage .. => [.other 70, .other 569, .other 570, .other 47]
  | collate .. | charset .. => []

/-- The types of the children that options make. -/
def ColumnOption.types : List TokenType :=
  [.kNot, .kNull, .tCreateTableColumnDefault, .tCreateTableOnupdate, .kAutoIncrement, .kUnique,
    .kPrimary, .kKey, .other 65, .quotedString, .other 67, .other 68, .other 69, .other 47,
    .other 70, .other 569, .other 570]

private theorem leafOf_mem {types all : List TokenType} (token : TokenIn types)
    (inside : ∀ type ∈ types, type ∈ all) : (leafOf token).getType ∈ all :=
  inside _ token.2

theorem Datatype.getType_mem (datatype : Datatype) :
    ∀ x ∈ datatype.trees, x.getType ∈ Datatype.types := by
  cases datatype with
  | words tokens unsigned =>
    intro x member
    obtain ⟨token, -, rfl⟩ := List.mem_map.mp member
    exact leafOf_mem token fun type own => List.mem_append_left _ (List.mem_append_right _ own)
  | integer keyword length unsigned =>
    exact List.forall_mem_singleton.mpr
      (leafOf_mem keyword fun type own => List.mem_append_right _ own)
  | double keyword precision unsigned =>
    refine List.forall_mem_cons.mpr ⟨?_, fun x member => ?_⟩
    · rw [Tree.getType_leaf, keyword.2.1]
      decide
    · obtain ⟨token, -, rfl⟩ := Option.map_eq_some_iff.mp (Option.mem_toList.mp member)
      rw [Tree.getType_leaf, token.2.1]
      decide
  | enum type =>
    rintro x member
    rw [List.mem_singleton.mp member, EnumType.tree, getType_rooted]
    decide
  | zeroDate literal => exact List.forall_mem_singleton.mpr (leafOf_mem literal (by decide))

/-- Only ENUM and SET make a node with children. -/
theorem Datatype.leaf_of_mem (datatype : Datatype) {x : Tree} (member : x ∈ datatype.trees)
    (noEnum : x.getType ≠ .tCreateTableEnum) : x.children = [] := by
  cases datatype with
  | words tokens unsigned =>
    obtain ⟨token, -, rfl⟩ := List.mem_map.mp member
    rfl
  | integer | zeroDate => rw [List.mem_singleton.mp member]; rfl
  | double keyword precision unsigned =>
    rcases List.mem_cons.mp member with rfl | own
    · rfl
    · obtain ⟨token, -, rfl⟩ := Option.map_eq_some_iff.mp (Option.mem_toList.mp own)
      rfl
  | enum type =>
    rw [List.mem_singleton.mp member] at noEnum
    exact (noEnum rfl).elim

theorem ColumnOption.getType_mem_ownTypes (option : ColumnOption) :
    ∀ x ∈ option.trees, x.getType ∈ option.ownTypes := by
  have pair {types first second : List TokenType} {a : TokenIn first} {b : TokenIn second}
      (own : ∀ type ∈ first, type ∈ types) (behind : ∀ type ∈ second, type ∈ types) :
      ∀ x ∈ [leafOf a, leafOf b], x.getType ∈ types :=
    List.forall_mem_cons.mpr ⟨leafOf_mem a own,
      List.forall_mem_singleton.mpr (leafOf_mem b behind)⟩
  have single {types : List TokenType} (a : TokenIn types) :
      ∀ x ∈ [leafOf a], x.getType ∈ types := List.forall_mem_singleton.mpr a.2
  cases option with
  | notNull first second => exact pair (by simp [ownTypes]) (by simp [ownTypes])
  | null keyword => exact single keyword
  | default keyword expression =>
    exact List.forall_mem_singleton.mpr (by simp [ownTypes])
  | onUpdate on update expression =>
    exact List.forall_mem_singleton.mpr (by simp [ownTypes, clause])
  | autoIncrement keyword => exact single keyword
  | unique keyword => exact single keyword
  | key primary keyword =>
    cases primary with
    | none => exact List.forall_mem_singleton.mpr (leafOf_mem keyword (by simp [ownTypes]))
    | some primary => exact pair (by simp [ownTypes]) (by simp [ownTypes])
  | comment keyword text => exact pair (by simp [ownTypes]) (by simp [ownTypes])
  | columnFormat keyword format => exact pair (by simp [ownTypes]) (by simp [ownTypes])
  | storage keyword medium => exact pair (by simp [ownTypes]) (by simp [ownTypes])
  | collate keyword name => exact List.forall_mem_nil _
  | charset words name => exact List.forall_mem_nil _

theorem ColumnOption.getType_mem (option : ColumnOption) :
    ∀ x ∈ option.trees, x.getType ∈ ColumnOption.types := by
  have all : ∀ type ∈ option.ownTypes, type ∈ ColumnOption.types := by
    cases option <;> simp [ownTypes, types]
  exact fun x member => all _ (option.getType_mem_ownTypes x member)

/-- Only DEFAULT and ON UPDATE make nodes with children. -/
theorem ColumnOption.leaf_of_mem (option : ColumnOption) {x : Tree} (member : x ∈ option.trees)
    (noDefault : x.getType ≠ .tCreateTableColumnDefault)
    (noClause : x.getType ≠ .tCreateTableOnupdate) : x.children = [] := by
  cases option with
  | default keyword expression =>
    rw [List.mem_singleton.mp member] at noDefault
    exact (noDefault rfl).elim
  | onUpdate on update expression =>
    rw [List.mem_singleton.mp member] at noClause
    exact (noClause rfl).elim
  | key primary keyword =>
    cases primary with
    | none => rw [List.mem_singleton.mp member]; rfl
    | some primary =>
      rcases List.mem_cons.mp member with rfl | own
      · rfl
      · rw [List.mem_singleton.mp own]
        rfl
  | null | autoIncrement | unique => rw [List.mem_singleton.mp member]; rfl
  | notNull | comment | columnFormat | storage =>
    rcases List.mem_cons.mp member with rfl | own
    · rfl
    · rw [List.mem_singleton.mp own]
      rfl
  | collate | charset => cases member

namespace Column

variable (column : Column)

theorem getType_optionTrees {x : Tree} (member : x ∈ column.optionTrees) :
    x.getType ∈ ColumnOption.types := by
  obtain ⟨option, -, own⟩ := List.mem_flatMap.mp member
  exact option.getType_mem x own

/-- An ENUM or SET node among the parts is the datatype. -/
theorem enum_of_mem_parts {part : Tree} (member : part ∈ column.parts)
    (isEnum : hasType .tCreateTableEnum part = true) :
    ∃ type, column.datatype = .enum type ∧ part = type.tree := by
  have isEnum : part.getType = .tCreateTableEnum := by simpa [hasType] using isEnum
  rcases List.mem_append.mp member with own | own
  · cases present : column.datatype with
    | enum type =>
      rw [present] at own
      exact ⟨type, rfl, List.mem_singleton.mp own⟩
    | words tokens unsigned =>
      rw [present] at own
      obtain ⟨token, -, rfl⟩ := List.mem_map.mp own
      have type := token.2
      rw [← getType_leafOf, isEnum] at type
      exact absurd type (by decide)
    | integer keyword length unsigned =>
      rw [present] at own
      have type := keyword.2
      rw [← getType_leafOf, ← List.mem_singleton.mp own, isEnum] at type
      exact absurd type (by decide)
    | double keyword precision unsigned =>
      rw [present, Datatype.trees, List.mem_cons, Option.mem_toList, Option.map_eq_some_iff] at own
      rcases own with rfl | ⟨token, -, rfl⟩
      · exact absurd (keyword.2.1.symm.trans isEnum) (by decide)
      · exact absurd (token.2.1.symm.trans isEnum) (by decide)
    | zeroDate literal =>
      rw [present] at own
      have type := literal.2
      rw [← getType_leafOf, ← List.mem_singleton.mp own, isEnum] at type
      exact absurd type (by decide)
  · have type := column.getType_optionTrees own
    rw [isEnum] at type
    exact absurd type (by decide)

/-- The definition as the passes see it. -/
def columnDef : ColumnDef where
  name := column.name
  parts := column.parts
  enums part member isEnum := by
    obtain ⟨type, -, rfl⟩ := column.enum_of_mem_parts member isEnum
    have keyword : hasType .kEnum (leafOf type.keyword) = true ∨
        hasType .kSet (leafOf type.keyword) = true := by
      have own := type.keyword.2
      simp only [List.mem_cons, List.not_mem_nil, or_false] at own
      simpa [hasType] using own
    have rparen : hasType .rparen (leafOf type.rparen) = true := by
      simpa [hasType] using type.rparen.2
    exact ⟨⟨_, List.mem_cons_self, keyword⟩, _, by simp [EnumType.tree, EnumType.list], rparen⟩

end Column

/-- A CREATE TABLE with its column definitions spelled out. -/
structure SpelledTable where
  table : CreateTable
  columns : List Column
  spelled : table.columnDefs = columns.map Column.columnDef

/-- A CREATE TABLE with column definitions or with LIKE. -/
inductive Create where
  | columns (table : SpelledTable)
  | like (table : CreateTableLike)

namespace Create

def tree : Create → Tree
  | columns table => table.table.tree
  | like table => table.tree

def columnList : Create → List Column
  | columns table => table.columns
  | like _ => []

def qualifier : Create → Option (SqlIdentifier × TokenIn [.dot])
  | columns table => table.table.qualifier
  | like table => table.qualifier

/-- The children without the table options and the elements that have no place in the statement. -/
def survivors : Create → List Tree
  | columns table => table.table.survivors
  | like table => table.front ++ table.tail

end Create

end Pgify.Model
