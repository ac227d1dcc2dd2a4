import Mathlib.Data.List.DropRight
import Pgify.Proofs.CreateTableLike
import Pgify.Proofs.OptionTrees

/-! # The MySQL-only attributes of columns and keys

The rewrite rules of the grammar drop UNSIGNED, COLLATE, CHARACTER SET and what follows the columns
of a key, and the passes delete the indexes. COMMENT, COLUMN_FORMAT, STORAGE and KEY are options
without a rewrite, and the order of a key column is kept by its rule.
-/

namespace Pgify.Model

/-- An option that PostgreSQL knows, or of which nothing is left. -/
def ColumnOption.isPortable : ColumnOption → Bool
  | comment .. | columnFormat .. | storage .. => false
  | key primary _ => primary.isSome
  | _ => true

/-- No column of the list has an order. -/
def KeyColumns.Unordered (columns : KeyColumns) : Prop :=
  columns.first.order = none ∧ ∀ pair ∈ columns.rest, pair.2.order = none

/-- The columns of a PRIMARY KEY or UNIQUE have no order. -/
def Constraint.Unordered : Constraint → Prop
  | primaryKey _ _ columns | uniqueKey _ columns => columns.Unordered
  | _ => True

def Create.constraints : Create → List (TokenIn [.comma] × Constraint)
  | columns table => table.table.constraints
  | like _ => []

end Pgify.Model

namespace Pgify.Attributes

open Model AdjacentPairs

/-! ## The property -/

/-- What stands between the first parenthesis of the statement and the last one. -/
def elementList (children : List Tree) : List Tree :=
  ((children.dropWhile fun x => !hasType .lparen x).tail.rdropWhile
    fun x => !hasType .rparen x).dropLast

/-- The leaves of an element; the expression of a DEFAULT stays closed. -/
def elementLeaves (x : Tree) : List Tree :=
  if x.getType = .tCreateTableColumnDef then
    x.children.flatMap fun child =>
      if child.getType = .tCreateTableEnum then child.children else [child]
  else [x]

/-- The leaves of the element list that are printed. -/
def printedElements (tree : Tree) : List Tree :=
  (elementList tree.children).flatMap elementLeaves

/-- COMMENT, COLUMN_FORMAT, STORAGE, UNSIGNED, CHARSET, COLLATE, the order of a key column, and
what makes an element a FULLTEXT or plain index. -/
def attributeTypes : List TokenType :=
  [.other 65, .other 67, .other 70, .other 215, .other 50, .other 52, .kAsc, .kDesc, .other 77,
    .other 73, .tCreateTableFulltextIndex, .tCreateTableIndex]

/-- No MySQL-only attribute is among the leaves: none of the types, no CHARACTER in front of SET,
and no KEY but behind PRIMARY. -/
structure Portable (leaves : List Tree) : Prop where
  attributes : ∀ x ∈ leaves, x.getType ∉ attributeTypes
  characterSet : Absent (hasType (.other 48)) (hasType .kSet) leaves
  keys : Preceded (hasType .kPrimary) (hasType .kKey) leaves

/-! ## Elements between commas -/

theorem portable_nil : Portable [] :=
  ⟨by simp, List.isChain_nil, List.isChain_nil, by simp⟩

/-- The comma in front of an element parts it from the one before. -/
theorem portable_append_comma {comma : Tree} (isComma : comma.getType = .comma)
    (first rest : List Tree) :
    Portable (first ++ comma :: rest) ↔ Portable first ∧ Portable rest := by
  have noKey : hasType .kKey comma = false := by simp [hasType, isComma]
  have noSet : hasType .kSet comma = false := by simp [hasType, isComma]
  have noPrimary : hasType .kPrimary comma = false := by simp [hasType, isComma]
  have noCharacter : hasType (.other 48) comma = false := by simp [hasType, isComma]
  constructor
  · rintro ⟨attributes, absent, preceded, head⟩
    obtain ⟨front, behind, -⟩ := List.isChain_append.mp absent
    obtain ⟨frontKeys, behindKeys, -⟩ := List.isChain_append.mp preceded
    obtain ⟨restHead, restKeys⟩ := List.isChain_cons.mp behindKeys
    refine ⟨⟨fun x member => attributes x (List.mem_append_left _ member), front, frontKeys, ?_⟩,
      fun x member => attributes x (List.mem_append_right _ (List.mem_cons_of_mem _ member)),
      List.IsChain.tail behind, restKeys, fun y own => ?_⟩
    · intro y own
      exact head y (by cases first with | nil => cases own | cons z more => simpa using own)
    · exact Bool.eq_false_iff.mpr fun hit => by simp [restHead y own hit] at noPrimary
  · rintro ⟨⟨frontAttributes, frontAbsent, frontKeys, frontHead⟩,
      ⟨attributes, absent, keys, head⟩⟩
    refine ⟨fun x member => ?_, ?_, ?_, fun y own => ?_⟩
    · rcases List.mem_append.mp member with own | own
      · exact frontAttributes x own
      · rcases List.mem_cons.mp own with rfl | own
        · rw [isComma]
          decide
        · exact attributes x own
    · refine frontAbsent.append (absent.cons fun y own both => ?_) fun x _ y own both => ?_
      · simp [noCharacter] at both
      · cases own
        simp [noSet] at both
    · refine frontKeys.append (keys.cons fun y own hit => ?_) fun x _ y own hit => ?_
      · simp [head y own] at hit
      · cases own
        simp [noKey] at hit
    · cases first with
      | nil => cases own; exact noKey
      | cons z more => exact frontHead y (by simpa using own)

/-- A list of elements, each behind its comma. -/
theorem portable_append_flatMap {α : Type*} (f : α → List Tree)
    (pairs : List (TokenIn [.comma] × α)) (first : List Tree) :
    Portable (first ++ pairs.flatMap fun pair => leafOf pair.1 :: f pair.2) ↔
      Portable first ∧ ∀ pair ∈ pairs, Portable (f pair.2) := by
  induction pairs generalizing first with
  | nil => simp
  | cons pair rest ih =>
    have isComma : (leafOf pair.1).getType = .comma := List.mem_singleton.mp pair.1.2
    rw [List.flatMap_cons, ← List.append_assoc, ih, portable_append_comma isComma,
      List.forall_mem_cons, and_assoc]

/-! ## Columns -/

section Column

variable (column : Column)

/-- The leaves of the type behind the ENUM pass. -/
def typeLeaves : List Tree :=
  (column.datatype.rewritten column.name.1.text).flatMap fun child =>
    if child.getType = .tCreateTableEnum then child.children else [child]

theorem elementLeaves_column :
    elementLeaves (CreateTable.rewrittenColumn column.columnDef) =
      leafOf column.name :: typeLeaves column ++ column.finalOptions := by
  have open_leaf {l : List Tree} (leaf : ∀ x ∈ l, x.getType ≠ .tCreateTableEnum) :
      (l.flatMap fun child => if child.getType = .tCreateTableEnum then child.children
        else [child]) = l := by
    rw [List.flatMap_congr (g := fun x => [x]) fun x member => if_neg (leaf x member),
      List.flatMap_singleton']
  have name : (leafOf column.name).getType ≠ .tCreateTableEnum := by
    have type : column.name.1.type = .id := List.mem_singleton.mp column.name.2
    simp [type]
  have options : ∀ x ∈ column.finalOptions, x.getType ≠ .tCreateTableEnum := by
    intro x member isEnum
    have type := column.getType_optionTrees (column.finalOptions_sublist.subset member)
    rw [isEnum] at type
    exact absurd type (by decide)
  rw [elementLeaves, if_pos (CreateTable.getType_rewrittenColumn _),
    column.rewrittenColumn_columnDef, Column.typed, List.cons_append, List.flatMap_cons,
    if_neg name, List.flatMap_append, open_leaf options]
  rfl

/-- The leaves of an ENUM or SET, or the words of another type. -/
theorem getType_typeLeaves :
    (∀ x ∈ typeLeaves column,
        x.getType ∈ [TokenType.kEnum, .kSet, .lparen, .quotedString, .comma, .rparen]) ∨
      ∀ x ∈ typeLeaves column, x.getType ∈ Datatype.types := by
  have types := column.datatype.getType_rewritten column.name.1.text
  by_cases isEnum : ∃ type, column.datatype = .enum type
  · obtain ⟨type, isType⟩ := isEnum
    refine Or.inl fun x member => ?_
    rw [typeLeaves, isType] at member
    have own : x ∈ (type.rewritten column.name.1.text).children := by
      simpa [Datatype.rewritten, EnumType.rewritten] using member
    exact (type.mem_rewritten own).2
  · refine Or.inr fun x member => ?_
    obtain ⟨child, own, inside⟩ := List.mem_flatMap.mp member
    split at inside
    · next enumChild =>
      have part : child ∈ column.datatype.trees := by
        cases type : column.datatype with
        | enum own => exact (isEnum ⟨own, type⟩).elim
        | words | integer | double | zeroDate => rwa [type] at own
      obtain ⟨type, isType, -⟩ := column.enum_of_mem_parts (List.mem_append_left _ part)
        (by simpa [hasType] using enumChild)
      exact (isEnum ⟨type, isType⟩).elim
    · rw [List.mem_singleton.mp inside]
      exact types child own

/-- The name and the type have no attribute and no word of a key. -/
private theorem front_clear {types : List TokenType}
    (none : ∀ k ∈ types, k ∉ .id :: Datatype.types ∧
      k ∉ [TokenType.id, .kEnum, .kSet, .lparen, .quotedString, .comma, .rparen]) :
    ∀ x ∈ leafOf column.name :: typeLeaves column, x.getType ∉ types := by
  intro x member isOne
  obtain ⟨noWord, noEnum⟩ := none _ isOne
  rcases List.mem_cons.mp member with rfl | own
  · exact noWord (List.mem_cons.mpr (Or.inl (List.mem_singleton.mp column.name.2)))
  · rcases getType_typeLeaves column with enum | words
    · exact noEnum (List.mem_cons_of_mem _ (enum x own))
    · exact noWord (List.mem_cons_of_mem _ (words x own))

theorem paired_key (option : ColumnOption) :
    Paired (hasType .kPrimary) (hasType .kKey) option.trees := by
  cases option with
  | key primary keyword =>
    have noPrimary := hasType_leafOf keyword (k := .kPrimary) (by decide)
    cases primary with
    | none => exact paired_of_clear (List.forall_mem_singleton.mpr noPrimary)
    | some token =>
      have isKey : hasType .kKey (leafOf keyword) = true := by simpa [hasType] using keyword.2
      exact ⟨fun _ => ⟨leafOf keyword, rfl, isKey⟩, by simp [noPrimary], trivial⟩
  | _ => exact paired_of_clear (ColumnOption.clear _ (by simp [ColumnOption.ownTypes]))

private theorem isPrimary_of_isKey (x : Tree) (isKey : hasType .kKey x = true) :
    hasType .kPrimary x = false := hasType_apart (by decide) isKey

/-- The options have as many KEY as PRIMARY exactly when each of them has. -/
private theorem countP_key_iff :
    column.optionTrees.countP (hasType .kKey) = column.optionTrees.countP (hasType .kPrimary) ↔
      ∀ option ∈ column.options,
        option.trees.countP (hasType .kKey) = option.trees.countP (hasType .kPrimary) := by
  have fewer (options : List ColumnOption) :
      (options.flatMap ColumnOption.trees).countP (hasType .kPrimary) ≤
        (options.flatMap ColumnOption.trees).countP (hasType .kKey) := by
    induction options with
    | nil => exact Nat.le_refl _
    | cons option rest ih =>
      have own := ((paired_key option).preceded_iff isPrimary_of_isKey).1
      rw [List.flatMap_cons, List.countP_append, List.countP_append]
      omega
  rw [Column.optionTrees]
  induction column.options with
  | nil => simp
  | cons option rest ih =>
    have own := ((paired_key option).preceded_iff isPrimary_of_isKey).1
    have behind := fewer rest
    rw [List.forall_mem_cons, List.flatMap_cons, List.countP_append, List.countP_append]
    constructor
    · exact fun whole => ⟨by omega, ih.mp (by omega)⟩
    · rintro ⟨first, each⟩
      rw [first, ih.mpr each]

private theorem isPortable_iff (option : ColumnOption) :
    option.isPortable = true ↔ (∀ x ∈ option.trees, x.getType ∉ attributeTypes) ∧
      option.trees.countP (hasType .kKey) = option.trees.countP (hasType .kPrimary) := by
  have plain (option : ColumnOption) (noAttribute : ∀ k ∈ option.ownTypes, k ∉ attributeTypes)
      (noKey : .kKey ∉ option.ownTypes) (noPrimary : .kPrimary ∉ option.ownTypes) :
      (∀ x ∈ option.trees, x.getType ∉ attributeTypes) ∧
        option.trees.countP (hasType .kKey) = option.trees.countP (hasType .kPrimary) :=
    ⟨fun x member => noAttribute _ (option.getType_mem_ownTypes x member), by
      rw [option.countP_of_clear noKey, option.countP_of_clear noPrimary]⟩
  have listed {k : TokenType} (keyword : TokenIn [k]) (isAttribute : k ∈ attributeTypes) :
      (leafOf keyword).getType ∈ attributeTypes := by
    rwa [getType_leafOf, List.mem_singleton.mp keyword.2]
  cases option with
  | comment keyword _ | columnFormat keyword _ | storage keyword _ =>
    refine iff_of_false Bool.noConfusion fun portable => ?_
    exact portable.1 _ List.mem_cons_self (listed keyword (by decide))
  | key primary keyword =>
    have noAttribute : ∀ x ∈ (ColumnOption.key primary keyword).trees,
        x.getType ∉ attributeTypes := by
      have all : ∀ k ∈ [TokenType.kPrimary, .kKey], k ∉ attributeTypes := by decide
      exact fun x member => all _ (ColumnOption.getType_mem_ownTypes _ x member)
    have isKey : hasType .kKey (leafOf keyword) = true := by simpa [hasType] using keyword.2
    have noPrimary := hasType_leafOf keyword (k := .kPrimary) (by decide)
    cases primary with
    | none =>
      refine iff_of_false Bool.noConfusion fun portable => ?_
      simpa [ColumnOption.trees, isKey, noPrimary] using portable.2
    | some token =>
      have noKey := hasType_leafOf token (k := .kKey) (by decide)
      have isPrimary : hasType .kPrimary (leafOf token) = true := by
        simpa [hasType] using token.2
      refine iff_of_true rfl ⟨noAttribute, ?_⟩
      simp [ColumnOption.trees, isKey, noPrimary, noKey, isPrimary]
  | _ =>
    exact iff_of_true rfl (plain _ (by simp [ColumnOption.ownTypes, attributeTypes])
      (by simp [ColumnOption.ownTypes]) (by simp [ColumnOption.ownTypes]))

/-- What no pass deletes is behind the passes as it was before. -/
private theorem finalOptions_kept {q : Tree → Bool}
    (deleted : ∀ k ∈ [TokenType.tCreateTableOnupdate, .kNot, .kNull, .kAutoIncrement], ∀ x,
      hasType k x = true → q x = false) :
    column.finalOptions.filter q = column.optionTrees.filter q := by
  rw [column.finalOptions_filter fun x _ => deleted _ (by simp) x,
    column.datedOptions_filter (fun x _ => deleted _ (by simp) x) fun x _ => deleted _ (by simp) x,
    column.keptOptions_filter fun x _ => deleted _ (by simp) x]

private theorem finalOptions_attributes_iff :
    (∀ x ∈ column.finalOptions, x.getType ∉ attributeTypes) ↔
      ∀ option ∈ column.options, ∀ x ∈ option.trees, x.getType ∉ attributeTypes := by
  have none (l : List Tree) : (∀ x ∈ l, x.getType ∉ attributeTypes) ↔
      l.filter (fun x => decide (x.getType ∈ attributeTypes)) = [] := by
    rw [List.filter_eq_nil_iff]
    simp
  have deleted : ∀ k ∈ [TokenType.tCreateTableOnupdate, .kNot, .kNull, .kAutoIncrement],
      k ∉ attributeTypes := by decide
  rw [none, finalOptions_kept column fun k own x hit => ?_, ← none, Column.optionTrees,
    List.forall_mem_flatMap]
  simp only [hasType, beq_iff_eq] at hit
  simpa [hit] using deleted k own

private theorem finalOptions_keys_iff :
    Preceded (hasType .kPrimary) (hasType .kKey) column.finalOptions ↔
      ∀ option ∈ column.options,
        option.trees.countP (hasType .kKey) = option.trees.countP (hasType .kPrimary) := by
  have deleted {k : TokenType}
      (other : k ∉ [TokenType.tCreateTableOnupdate, .kNot, .kNull, .kAutoIncrement]) :
      ∀ l ∈ [TokenType.tCreateTableOnupdate, .kNot, .kNull, .kAutoIncrement], ∀ x,
        hasType l x = true → hasType k x = false :=
    fun l own x hit => hasType_apart (fun same : l = k => other (same ▸ own)) hit
  have counted {k : TokenType}
      (other : k ∉ [TokenType.tCreateTableOnupdate, .kNot, .kNull, .kAutoIncrement]) :
      column.finalOptions.countP (hasType k) = column.optionTrees.countP (hasType k) := by
    rw [List.countP_eq_length_filter, finalOptions_kept column (deleted other),
      ← List.countP_eq_length_filter]
  have whole : Paired (hasType .kPrimary) (hasType .kKey) column.optionTrees := by
    rw [Column.optionTrees]
    induction column.options with
    | nil => trivial
    | cons option rest ih =>
      rw [List.flatMap_cons]
      exact (paired_key option).append ih
  have paired := whole.of_sublist column.finalOptions_sublist
    (finalOptions_kept column fun l own x hit => by
      rw [deleted (by decide) l own x hit, deleted (by decide) l own x hit]
      rfl)
  rw [(paired.preceded_iff isPrimary_of_isKey).2, counted (by decide), counted (by decide),
    countP_key_iff]

private theorem options_clear {k : TokenType} (other : k ∉ ColumnOption.types) :
    ∀ x ∈ column.finalOptions, hasType k x = false := fun _ member =>
  hasType_of_mem other (column.getType_optionTrees (column.finalOptions_sublist.subset member))

/-- In the leaves of a column no CHARACTER stands in front of SET: a SET has only its values behind
it, and the words of another type are no SET. -/
private theorem column_characterSet : Absent (hasType (.other 48)) (hasType .kSet)
    (leafOf column.name :: typeLeaves column ++ column.finalOptions) := by
  have clear {k : TokenType} (name : k ∉ [TokenType.id])
      (type : ∀ x ∈ typeLeaves column, hasType k x = false) (other : k ∉ ColumnOption.types) :
      ∀ x ∈ leafOf column.name :: typeLeaves column ++ column.finalOptions,
        hasType k x = false :=
    List.forall_mem_append.mpr ⟨List.forall_mem_cons.mpr ⟨hasType_leafOf column.name name, type⟩,
      options_clear column other⟩
  refine absent_of_clear ?_
  rcases getType_typeLeaves column with enum | words
  · exact .inl (clear (by decide) (fun x own => hasType_of_mem (by decide) (enum x own))
      (by decide))
  · exact .inr (clear (by decide) (fun x own => hasType_of_mem (by decide) (words x own))
      (by decide))

private theorem column_keys_iff :
    Preceded (hasType .kPrimary) (hasType .kKey)
        (leafOf column.name :: typeLeaves column ++ column.finalOptions) ↔
      ∀ option ∈ column.options,
        option.trees.countP (hasType .kKey) = option.trees.countP (hasType .kPrimary) := by
  have front {k : TokenType} (word : k ∉ .id :: Datatype.types)
      (enum : k ∉ [TokenType.id, .kEnum, .kSet, .lparen, .quotedString, .comma, .rparen]) :
      ∀ x ∈ leafOf column.name :: typeLeaves column, hasType k x = false := by
    intro x member
    have none := @front_clear column [k] (List.forall_mem_singleton.mpr ⟨word, enum⟩) x member
    simpa [hasType] using none
  rw [preceded_append_of_clear (front (by decide) (by decide)) (front (by decide) (by decide)),
    finalOptions_keys_iff]

theorem portable_column_iff :
    Portable (elementLeaves (CreateTable.rewrittenColumn column.columnDef)) ↔
      ∀ option ∈ column.options, option.isPortable = true := by
  rw [elementLeaves_column]
  constructor
  · intro portable option member
    refine (isPortable_iff option).mpr ⟨?_, (column_keys_iff column).mp portable.keys option member⟩
    exact (finalOptions_attributes_iff column).mp
      (fun x own => portable.attributes x (List.mem_append_right _ own)) option member
  · intro each
    have parts (option : ColumnOption) (member : option ∈ column.options) :=
      (isPortable_iff option).mp (each option member)
    refine ⟨List.forall_mem_append.mpr ⟨front_clear column (by decide), ?_⟩,
      column_characterSet column, (column_keys_iff column).mpr fun option member =>
        (parts option member).2⟩
    exact (finalOptions_attributes_iff column).mpr fun option member => (parts option member).1

end Column

/-! ## Keys -/

private theorem leafOf_notMem {k : TokenType} (token : TokenIn [k]) (other : k ∉ attributeTypes) :
    (leafOf token).getType ∉ attributeTypes := by
  rwa [getType_leafOf, List.mem_singleton.mp token.2]

private theorem keyColumns_attributes_iff (columns : KeyColumns) :
    (∀ x ∈ columns.trees, x.getType ∉ attributeTypes) ↔ columns.Unordered := by
  have listed (column : KeyColumn) :
      (∀ x ∈ column.trees, x.getType ∉ attributeTypes) ↔ column.order = none := by
    have name := leafOf_notMem column.name (by decide)
    cases order : column.order with
    | none => simpa [KeyColumn.trees, order] using name
    | some token =>
      refine iff_of_false (fun none => ?_) (by simp)
      have all : ∀ k ∈ [TokenType.kAsc, .kDesc], k ∈ attributeTypes := by decide
      exact none (leafOf token) (by simp [KeyColumn.trees, order]) (all _ token.2)
  rw [columns.trees_eq, List.forall_mem_append, List.forall_mem_append, List.forall_mem_cons,
    List.forall_mem_singleton, listed, List.forall_mem_flatMap, KeyColumns.Unordered]
  have rest : (∀ pair ∈ columns.rest, ∀ x ∈ leafOf pair.1 :: pair.2.trees,
      x.getType ∉ attributeTypes) ↔ ∀ pair ∈ columns.rest, pair.2.order = none := by
    refine forall₂_congr fun pair _ => ?_
    rw [List.forall_mem_cons, listed]
    exact and_iff_right (leafOf_notMem pair.1 (by decide))
  rw [rest]
  exact ⟨fun all => ⟨all.1.1.2, all.1.2⟩,
    fun both => ⟨⟨⟨leafOf_notMem columns.lparen (by decide), both.1⟩, both.2⟩,
      leafOf_notMem columns.rparen (by decide)⟩⟩

private theorem keyColumns_clear (columns : KeyColumns) {k : TokenType}
    (other : k ∉ [TokenType.lparen, .comma, .rparen, .id, .kAsc, .kDesc]) :
    ∀ x ∈ columns.trees, hasType k x = false :=
  fun x member => hasType_of_mem other (columns.getType_mem x member)

/-- The columns of a key behind its words. -/
private theorem portable_words_iff {words : List Tree} (columns : KeyColumns)
    (plain : ∀ x ∈ words, x.getType ∉ attributeTypes) (noSet : ∀ x ∈ words, hasType .kSet x = false)
    (keys : Preceded (hasType .kPrimary) (hasType .kKey) (words ++ columns.trees)) :
    Portable (words ++ columns.trees) ↔ columns.Unordered := by
  rw [← keyColumns_attributes_iff]
  constructor
  · exact fun portable x member => portable.attributes x (List.mem_append_right _ member)
  · intro unordered
    exact ⟨List.forall_mem_append.mpr ⟨plain, unordered⟩, absent_of_clear
      (.inr (List.forall_mem_append.mpr ⟨noSet, keyColumns_clear columns (by decide)⟩)), keys⟩

theorem portable_key_iff (constraint : Constraint) (isKey : constraint.isKey = true) :
    Portable constraint.trees ↔ constraint.Unordered := by
  cases constraint with
  | primaryKey primary key columns =>
    have noKey := keyColumns_clear columns (k := .kKey) (by decide)
    have isPrimary : hasType .kPrimary (leafOf primary) = true := by
      simpa [hasType] using primary.2
    have keys : Preceded (hasType .kPrimary) (hasType .kKey)
        ([leafOf primary, leafOf key] ++ columns.trees) := by
      have behind := (preceded_of_clear (p := hasType .kPrimary) noKey).1
      refine ⟨(behind.cons fun y own hit => ?_).cons fun y own hit => isPrimary, fun y own => ?_⟩
      · rw [noKey y (List.mem_of_mem_head? own)] at hit
        cases hit
      · cases own
        exact hasType_leafOf primary (by decide)
    refine portable_words_iff columns ?_ ?_ keys
    · exact List.forall_mem_cons.mpr ⟨leafOf_notMem primary (by decide),
        List.forall_mem_singleton.mpr (leafOf_notMem key (by decide))⟩
    · exact List.forall_mem_cons.mpr ⟨hasType_leafOf primary (by decide),
        List.forall_mem_singleton.mpr (hasType_leafOf key (by decide))⟩
  | uniqueKey unique columns =>
    refine @portable_words_iff [leafOf unique] columns ?_ ?_ (preceded_of_clear ?_)
    · exact List.forall_mem_singleton.mpr (leafOf_notMem unique (by decide))
    · exact List.forall_mem_singleton.mpr (hasType_leafOf unique (by decide))
    · exact List.forall_mem_cons.mpr ⟨hasType_leafOf unique (by decide),
        keyColumns_clear columns (by decide)⟩
  | index | fulltext | fkey => cases isKey

/-! ## The element list -/

theorem elementList_eq {before body after : List Tree} {lparen rparen : Tree}
    (opens : hasType .lparen lparen = true) (closes : hasType .rparen rparen = true)
    (noOpening : ∀ x ∈ before, hasType .lparen x = false)
    (noClosing : ∀ x ∈ after, hasType .rparen x = false) :
    elementList (before ++ lparen :: body ++ rparen :: after) = body := by
  have dropped : (before ++ lparen :: body ++ rparen :: after).dropWhile
      (fun x => !hasType .lparen x) = lparen :: (body ++ [rparen] ++ after) := by
    rw [List.append_assoc,
      List.dropWhile_append_of_pos fun x member => by simp [noOpening x member],
      List.cons_append, List.dropWhile_cons_of_neg (by simp [opens])]
    simp
  have behind : (body ++ [rparen] ++ after).rdropWhile (fun x => !hasType .rparen x) =
      (body ++ [rparen]).rdropWhile fun x => !hasType .rparen x := by
    rw [List.rdropWhile, List.reverse_append,
      List.dropWhile_append_of_pos fun x member => by
        simp [noClosing x (List.mem_reverse.mp member)], List.rdropWhile]
  rw [elementList, dropped, List.tail_cons, behind,
    List.rdropWhile_concat_neg _ _ _ (by simp [closes]), List.dropLast_concat]

theorem elementList_of_noOpening {children : List Tree}
    (noOpening : ∀ x ∈ children, hasType .lparen x = false) : elementList children = [] := by
  rw [elementList, List.dropWhile_eq_nil_iff.mpr fun x member => by simp [noOpening x member]]
  rfl

private theorem qualifier_noOpening (qualifier : Option (SqlIdentifier × TokenIn [.dot])) :
    ∀ x ∈ qualifier.elim [] fun pair => [Tree.leaf pair.1.1, leafOf pair.2],
      hasType .lparen x = false := by
  intro x member
  obtain ⟨schema, dot, -, rfl | rfl⟩ := mem_qualifier member
  · rw [hasType, beq_eq_false_iff_ne, Tree.getType_leaf]
    intro isParen
    have plain := schema.2.2
    rw [isParen] at plain
    cases plain
  · exact hasType_leafOf dot (by decide)

private theorem header_noOpening {types : List TokenType} (header : List (TokenIn types))
    (other : .lparen ∉ types) : ∀ x ∈ header.map leafOf, hasType .lparen x = false := by
  intro x member
  obtain ⟨token, -, rfl⟩ := List.mem_map.mp member
  exact hasType_leafOf token other

/-- No parenthesis stands in front of the list of elements. -/
private theorem before_noOpening {types names : List TokenType} (header : List (TokenIn types))
    (qualifier : Option (SqlIdentifier × TokenIn [.dot])) (name : TokenIn names)
    (inHeader : .lparen ∉ types) (inName : .lparen ∉ names) :
    ∀ x ∈ header.map leafOf ++ (qualifier.elim [] fun pair => [.leaf pair.1.1, leafOf pair.2]) ++
      [leafOf name], hasType .lparen x = false := by
  refine List.forall_mem_append.mpr ⟨List.forall_mem_append.mpr ⟨?_, ?_⟩, ?_⟩
  · exact header_noOpening header inHeader
  · exact qualifier_noOpening qualifier
  · exact List.forall_mem_singleton.mpr (hasType_leafOf name inName)

/-! ## CREATE TABLE with columns -/

private theorem elementList_rewritten (table : CreateTable) :
    elementList table.rewritten =
      CreateTable.rewrittenColumn table.first ::
        (table.columns.flatMap fun pair =>
          [leafOf pair.1, CreateTable.rewrittenColumn pair.2]) ++
        CreateTable.constraintTrees
          (table.constraints.filter fun pair => pair.2.isKey) := by
  have opens : hasType .lparen (leafOf table.lparen) = true := by
    simpa [hasType] using table.lparen.2
  have closes : hasType .rparen (leafOf table.rparen) = true := by
    simpa [hasType] using table.rparen.2
  have before : ∀ x ∈ table.header.map leafOf ++ table.doubled.qualifierTrees ++
      [leafOf table.name], hasType .lparen x = false :=
    before_noOpening table.header table.doubled.qualifier table.name (by decide) (by decide)
  have after : ∀ x ∈ table.tail, hasType .rparen x = false :=
    fun x member => hasType_of_mem (by decide) (getType_tail member)
  have list := @elementList_eq _ (CreateTable.rewrittenColumn table.first ::
      (table.columns.flatMap fun pair => [leafOf pair.1, CreateTable.rewrittenColumn pair.2]) ++
        CreateTable.constraintTrees (table.constraints.filter fun pair => pair.2.isKey)) _ _ _
    opens closes before after
  rw [← list, CreateTable.rewritten, CreateTable.layout, CreateTable.front_eq]
  refine congrArg elementList ?_
  simp only [List.append_assoc, List.cons_append, List.nil_append, List.map_nil]
  rfl

private theorem flatMap_elementLeaves {l : List Tree}
    (none : ∀ x ∈ l, x.getType ≠ .tCreateTableColumnDef) : l.flatMap elementLeaves = l := by
  have each : ∀ x ∈ l, elementLeaves x = [x] := fun x member => if_neg (none x member)
  rw [List.flatMap_congr each, List.flatMap_singleton']

private theorem printedElements_rewritten (table : CreateTable) (root : Tree)
    (own : root.children = table.rewritten) :
    printedElements root =
      elementLeaves (CreateTable.rewrittenColumn table.first) ++
        (table.columns.flatMap fun pair =>
          leafOf pair.1 :: elementLeaves (CreateTable.rewrittenColumn pair.2)) ++
        (table.constraints.filter fun pair => pair.2.isKey).flatMap fun pair =>
          leafOf pair.1 :: pair.2.trees := by
  have comma (token : TokenIn [.comma]) : elementLeaves (leafOf token) = [leafOf token] := by
    have isComma : token.1.type = .comma := List.mem_singleton.mp token.2
    simp [elementLeaves, isComma]
  have constraints : ∀ x ∈ CreateTable.constraintTrees
      (table.constraints.filter fun pair => pair.2.isKey), x.getType ≠ .tCreateTableColumnDef := by
    intro x member
    have none := CreateTable.constraintTrees_others _ (k := .tCreateTableColumnDef) rfl (by decide)
      (by decide) (by decide) x member
    simpa [hasType] using none
  rw [printedElements, own, elementList_rewritten, List.cons_append, List.flatMap_cons,
    List.flatMap_append, flatMap_elementLeaves constraints, List.append_assoc]
  refine congrArg (_ ++ ·) (congrArg (· ++ _) ?_)
  rw [List.flatMap_assoc]
  refine List.flatMap_congr fun pair _ => ?_
  rw [List.flatMap_cons, comma, List.flatMap_singleton]
  rfl

private theorem portable_rewritten_iff (table : SpelledTable) (root : Tree)
    (own : root.children = table.table.rewritten) :
    Portable (printedElements root) ↔
      (∀ column ∈ table.columns, ∀ option ∈ column.options, option.isPortable = true) ∧
        ∀ pair ∈ table.table.constraints, pair.2.Unordered := by
  have columns : (∀ column ∈ table.columns, ∀ option ∈ column.options,
      option.isPortable = true) ↔ ∀ columnDef ∈ table.table.columnDefs,
        Portable (elementLeaves (CreateTable.rewrittenColumn columnDef)) := by
    rw [table.spelled, List.forall_mem_map]
    exact forall₂_congr fun column _ => (portable_column_iff column).symm
  have constraints : (∀ pair ∈ table.table.constraints, pair.2.Unordered) ↔
      ∀ pair ∈ table.table.constraints.filter fun pair => pair.2.isKey,
        Portable pair.2.trees := by
    constructor
    · intro unordered pair member
      obtain ⟨inside, isKey⟩ := List.mem_filter.mp member
      exact (portable_key_iff pair.2 isKey).mpr (unordered pair inside)
    · intro portable pair inside
      cases isKey : pair.2.isKey with
      | true =>
        exact (portable_key_iff pair.2 isKey).mp
          (portable pair (List.mem_filter.mpr ⟨inside, isKey⟩))
      | false =>
        obtain ⟨comma, constraint⟩ := pair
        cases constraint with
        | primaryKey | uniqueKey => cases isKey
        | index | fulltext | fkey => trivial
  rw [printedElements_rewritten table.table root own,
    portable_append_flatMap (fun constraint : Constraint => constraint.trees),
    portable_append_flatMap fun columnDef =>
      elementLeaves (CreateTable.rewrittenColumn columnDef), columns, constraints,
    CreateTable.columnDefs, List.forall_mem_cons, List.forall_mem_map]

/-! ## CREATE TABLE with LIKE -/

private theorem like_clear (table : CreateTableLike) (k : TokenType)
    (other : k ∉ [TokenType.kLike, .id]) :
    ∀ x ∈ [leafOf table.like, leafOf table.template], hasType k x = false := by
  have each : .kLike ≠ k ∧ .id ≠ k := by simpa [eq_comm] using other
  have isLike : table.like.1.type = .kLike := List.mem_singleton.mp table.like.2
  have isId : table.template.1.type = .id := List.mem_singleton.mp table.template.2
  simp [hasType, isLike, isId, each.1, each.2]

/-- Between parentheses LIKE and the template are the only element. -/
private theorem printedElements_like (table : CreateTableLike) (root : Tree)
    (own : root.children = table.rewritten) :
    printedElements root =
      table.parens.elim [] fun _ => [leafOf table.like, leafOf table.template] := by
  have before : ∀ x ∈ table.header.map leafOf ++ table.doubled.qualifierTrees ++
      [leafOf table.name], hasType .lparen x = false :=
    before_noOpening table.header table.doubled.qualifier table.name (by decide) (by decide)
  have children : table.rewritten = table.header.map leafOf ++ table.doubled.qualifierTrees ++
      [leafOf table.name] ++ (table.doubled.body ++ table.tail) := by
    simp only [CreateTableLike.rewritten, CreateTableLike.front, List.append_assoc,
      List.cons_append, List.nil_append]
    rfl
  have tail {k : TokenType} (other : k ∉ [TokenType.kAs, .tSelectStatement, .semi]) :
      ∀ x ∈ table.tail, hasType k x = false :=
    fun x member => hasType_of_mem other (getType_tail member)
  rw [printedElements, own, children]
  cases parens : table.parens with
  | none =>
    have body : table.doubled.body = [leafOf table.like, leafOf table.template] := by
      simp [CreateTableLike.body, CreateTableLike.doubled, parens]
    rw [body, elementList_of_noOpening (List.forall_mem_append.mpr ⟨before,
      List.forall_mem_append.mpr ⟨like_clear table _ (by decide), tail (by decide)⟩⟩)]
    rfl
  | some pair =>
    have body : table.doubled.body = leafOf pair.1 :: [leafOf table.like, leafOf table.template] ++
        [leafOf pair.2] := by
      simp [CreateTableLike.body, CreateTableLike.doubled, parens]
    have opens : hasType .lparen (leafOf pair.1) = true := by simpa [hasType] using pair.1.2
    have closes : hasType .rparen (leafOf pair.2) = true := by simpa [hasType] using pair.2.2
    have list := @elementList_eq _ [leafOf table.like, leafOf table.template] _ _ _ opens closes
      before (tail (by decide))
    rw [body, List.append_assoc _ _ table.tail, List.singleton_append, ← List.append_assoc, list]
    exact flatMap_elementLeaves fun x member => by
      simpa [hasType] using like_clear table .tCreateTableColumnDef (by decide) x member

private theorem portable_like (table : CreateTableLike) (root : Tree)
    (own : root.children = table.rewritten) : Portable (printedElements root) := by
  rw [printedElements_like table root own]
  cases table.parens with
  | none => exact portable_nil
  | some pair =>
    have none : ∀ k ∈ attributeTypes, k ∉ [TokenType.kLike, .id] := by decide
    refine ⟨fun x member listed => ?_, absent_of_clear (.inl (like_clear table _ (by decide))),
      preceded_of_clear (like_clear table _ (by decide))⟩
    simpa [hasType] using like_clear table _ (none _ listed) x member

/-- No MySQL-only attribute reaches the element list exactly when no column has COMMENT,
COLUMN_FORMAT, STORAGE or a KEY without PRIMARY, and no column of a key has an order. -/
theorem createTableWorker_portable_iff (ws : WalkerState) (create : Create) :
    (∃ ws' tree, createTableWorker ws create.tree = some (ws', tree) ∧
        Portable (printedElements tree)) ↔
      (∀ column ∈ create.columnList, ∀ option ∈ column.options, option.isPortable = true) ∧
        ∀ pair ∈ create.constraints, pair.2.Unordered := by
  cases create with
  | columns table =>
    refine (table.table.createTableWorker_behind_iff ws _).trans ?_
    exact portable_rewritten_iff table _ (children_rooted _ _ _)
  | like table =>
    exact iff_of_true ⟨_, _, table.createTableWorker_eq ws,
      portable_like table _ (children_rooted _ _ _)⟩ ⟨by simp [Create.columnList],
        by simp [Create.constraints]⟩

/-! ## A column with a comment -/

section Commented

private def word (type : TokenType) (text : String) : Token :=
  ⟨type, text, .default, 1, 0⟩

private def commentedColumn : Column where
  name := ⟨word .id "a", by decide⟩
  datatype := .integer ⟨word (.other 209) "INT", by decide⟩ none none
  options := [.comment ⟨word (.other 65) "COMMENT", by decide⟩
    ⟨word .quotedString "E'x'", by decide⟩]

/-- `CREATE TABLE t (a INT COMMENT 'x')` -/
private def commentedTable : SpelledTable where
  table :=
    { header := [⟨word .kCreate "CREATE", by decide⟩, ⟨word .kTable "TABLE", by decide⟩]
      qualifier := none
      name := ⟨word .id "t", by decide⟩
      lparen := ⟨word .lparen "(", by decide⟩
      first := commentedColumn.columnDef
      columns := []
      constraints := []
      rparen := ⟨word .rparen ")", by decide⟩
      options := []
      as := none
      select := none
      semi := none }
  columns := [commentedColumn]
  spelled := rfl

/-- The comment is printed with the column. -/
theorem not_createTableWorker_portable_commented :
    ¬ ∃ ws' tree, createTableWorker (walkerstateNew 0) (Create.columns commentedTable).tree =
      some (ws', tree) ∧ Portable (printedElements tree) := by
  intro behind
  have printed := (commentedTable.table.createTableWorker_behind_iff _ _).mp behind
  have written := (portable_rewritten_iff commentedTable _ (children_rooted _ _ _)).mp printed
  have portable := written.1 commentedColumn List.mem_cons_self _ List.mem_cons_self
  cases portable

end Commented

end Pgify.Attributes
