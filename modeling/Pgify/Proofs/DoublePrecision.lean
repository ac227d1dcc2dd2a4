import Mathlib.Data.List.Flatten
import Pgify.Model.Printer
import Pgify.Proofs.CreateTableLike
import Pgify.Proofs.SpelledColumns

/-! # DOUBLE PRECISION

`create_rewrite_datatypes` looks for DOUBLE among the children of the statement. The types stand one
level deeper, below the column definitions, so the pass misses all of them; the one child that can
be a DOUBLE is the schema qualifier of the table.
-/

namespace Pgify.DoublePrecision

open Model

/-! ## The property -/

def isDoubleWord (x : Tree) : Bool :=
  hasType .kDouble x || hasType .kPrecision x

/-- The words of a text, in lower case. -/
def words (text : String) : List (List Char) :=
  ((asciiLower text).toList.splitOn ' ').filter fun word => !word.isEmpty

/-- The words of the DOUBLE and PRECISION tokens right behind the name of a column. -/
def typeWords (definition : Tree) : List (List Char) :=
  (definition.children.tail.takeWhile isDoubleWord).flatMap fun x => words x.getText

/-- Every definition of a DOUBLE column prints DOUBLE PRECISION behind the name. -/
def TypesPrinted (children : List Tree) : Prop :=
  ∀ definition ∈ children, definition.getType = .tCreateTableColumnDef →
    definition.children.any (hasType .kDouble) = true →
      typeWords definition = ["double".toList, "precision".toList]

/-- The printed DOUBLE tokens below an element that are no type of a column. -/
def otherDoubles (x : Tree) : List Tree :=
  (leavesOf (if x.getType = .tCreateTableColumnDef then
    x.children.filter fun child => !hasType .kDouble child else [x])).filter (hasType .kDouble)

/-- Every DOUBLE that is no type is one of the original element. -/
def OthersKept (original result : Tree) : Prop :=
  (otherDoubles result).Sublist (otherDoubles original)

/-- Exactly the types become DOUBLE PRECISION. -/
def Doubled (create : Create) (tree : Tree) : Prop :=
  TypesPrinted tree.children ∧ List.Forall₂ OthersKept create.survivors tree.children

/-! ## The columns -/

private theorem othersKept_refl (x : Tree) : OthersKept x x := List.Sublist.refl _

section Columns

variable (column : Column)

/-- A DOUBLE has its PRECISION written behind it. -/
def DoubleSpelled : Datatype → Prop
  | .double _ precision _ => precision.isSome = true
  | _ => True

private theorem not_doubleWord {x : Tree} (member : x ∈ column.finalOptions) :
    isDoubleWord x = false := by
  have all : ∀ type ∈ ColumnOption.types, type ≠ .kDouble ∧ type ≠ .kPrecision := by decide
  have type := all _ (column.getType_optionTrees (column.finalOptions_sublist.subset member))
  simp [isDoubleWord, hasType, type.1, type.2]

private theorem takeWhile_finalOptions : column.finalOptions.takeWhile isDoubleWord = [] := by
  cases options : column.finalOptions with
  | nil => rfl
  | cons x rest =>
    have other := not_doubleWord column (x := x) (by rw [options]; exact List.mem_cons_self)
    rw [List.takeWhile_cons_of_neg (by simp [other])]

private theorem words_of_asciiLower {text spelling : String} (lower : asciiLower text = spelling) :
    words text = (spelling.toList.splitOn ' ').filter fun word => !word.isEmpty := by
  rw [words, lower]

private theorem typeWords_double {keyword : Keyword .kDouble "double"}
    {precision : Option (Keyword .kPrecision "precision")}
    {unsigned : Option (TokenIn [.other 215])}
    (type : column.datatype = .double keyword precision unsigned) :
    typeWords (CreateTable.rewrittenColumn column.columnDef) =
      "double".toList :: (precision.map fun _ => "precision".toList).toList := by
  have typed : column.typed = leafOf column.name :: .leaf keyword.1 ::
      (precision.map fun token => .leaf token.1).toList := by
    rw [Column.typed, type]
    rfl
  have first : isDoubleWord (.leaf keyword.1) = true := by
    simp [isDoubleWord, hasType, keyword.2.1]
  have double : words keyword.1.text = ["double".toList] := by
    rw [words_of_asciiLower keyword.2.2]
    decide
  rw [typeWords, column.rewrittenColumn_columnDef, typed, List.cons_append, List.tail_cons]
  cases precision with
  | none => simp [first, double, takeWhile_finalOptions]
  | some token =>
    have second : isDoubleWord (.leaf token.1) = true := by
      simp [isDoubleWord, hasType, token.2.1]
    have precision : words token.1.text = ["precision".toList] := by
      rw [words_of_asciiLower token.2.2]
      decide
    simp [first, second, double, precision, takeWhile_finalOptions]

/-- Only the datatype DOUBLE puts a DOUBLE into a definition. -/
private theorem double_of_any
    (any : (CreateTable.rewrittenColumn column.columnDef).children.any (hasType .kDouble) = true) :
    ∃ keyword precision unsigned, column.datatype = .double keyword precision unsigned := by
  obtain ⟨x, member, hit⟩ := List.any_eq_true.mp any
  have isDouble : x.getType = .kDouble := by simpa [hasType] using hit
  rw [column.rewrittenColumn_columnDef, List.mem_append, Column.typed, List.mem_cons] at member
  have other {types : List TokenType} (absent : .kDouble ∉ types) (own : x.getType ∈ types) :
      False := absent (isDouble ▸ own)
  rcases member with (rfl | own) | own
  · exact (other (by decide) column.name.2).elim
  · cases type : column.datatype with
    | double keyword precision unsigned => exact ⟨keyword, precision, unsigned, rfl⟩
    | words tokens unsigned =>
      rw [type] at own
      obtain ⟨token, -, rfl⟩ := List.mem_map.mp own
      exact (other (by decide) token.2).elim
    | integer keyword length unsigned =>
      rw [type] at own
      obtain rfl := List.mem_singleton.mp own
      exact (other (by decide) keyword.2).elim
    | enum type' =>
      rw [type] at own
      obtain rfl := List.mem_singleton.mp own
      cases isDouble
    | zeroDate literal =>
      rw [type] at own
      obtain rfl := List.mem_singleton.mp own
      exact (other (by decide) literal.2).elim
  · have options := column.getType_optionTrees (column.finalOptions_sublist.subset own)
    exact (other (by decide) options).elim

private theorem typesPrinted_column_iff :
    ((CreateTable.rewrittenColumn column.columnDef).children.any (hasType .kDouble) = true →
      typeWords (CreateTable.rewrittenColumn column.columnDef) =
        ["double".toList, "precision".toList]) ↔ DoubleSpelled column.datatype := by
  cases type : column.datatype with
  | double keyword precision unsigned =>
    have hit : hasType .kDouble (.leaf keyword.1) = true := by simp [hasType, keyword.2.1]
    have any : (CreateTable.rewrittenColumn column.columnDef).children.any (hasType .kDouble) =
        true := by
      rw [column.rewrittenColumn_columnDef, Column.typed, type]
      exact List.any_eq_true.mpr ⟨.leaf keyword.1, by simp [Datatype.rewritten, Datatype.trees], hit⟩
    rw [typeWords_double column type]
    cases precision with
    | none => simp [any, DoubleSpelled]
    | some token => simp [DoubleSpelled]
  | words | integer | enum | zeroDate =>
    refine iff_of_true (fun any => ?_) trivial
    obtain ⟨_, _, _, isDouble⟩ := double_of_any column any
    rw [type] at isDouble
    cases isDouble

end Columns

/-! ## The other roles -/

/-- The DOUBLE leaves among and below some siblings, those among the siblings left out. -/
def innerDoubles (l : List Tree) : List Tree :=
  (leavesOf (l.filter fun x => !hasType .kDouble x)).filter (hasType .kDouble)

theorem innerDoubles_append (first second : List Tree) :
    innerDoubles (first ++ second) = innerDoubles first ++ innerDoubles second := by
  rw [innerDoubles, List.filter_append, leavesOf_append, List.filter_append]
  rfl

theorem innerDoubles_sublist {first second : List Tree} (kept : first.Sublist second) :
    (innerDoubles first).Sublist (innerDoubles second) := by
  rw [innerDoubles, innerDoubles, leavesOf_eq_flatMap, leavesOf_eq_flatMap]
  exact ((kept.filter _).flatMap _).filter _

private theorem innerDoubles_of_leaves {l : List Tree} (leaves : ∀ x ∈ l, x.children = []) :
    innerDoubles l = [] := by
  rw [innerDoubles, leavesOf_of_childless fun x member => leaves x (List.mem_of_mem_filter member)]
  refine List.filter_eq_nil_iff.mpr fun x member => ?_
  simpa using (List.mem_filter.mp (List.mem_of_mem_filter member)).2

private theorem innerDoubles_typed (column : Column) : innerDoubles column.typed = [] := by
  cases type : column.datatype with
  | enum type' =>
    have node : column.typed = [leafOf column.name] ++ [type'.rewritten column.name.1.text] := by
      rw [Column.typed, type]
      rfl
    have below : leavesOf [type'.rewritten column.name.1.text] =
        leavesOf (type'.rewritten column.name.1.text).children :=
      leavesOf_node _ (List.cons_ne_nil _ _)
    have other : hasType .kDouble (type'.rewritten column.name.1.text) = false := rfl
    rw [node, innerDoubles_append, innerDoubles_of_leaves (l := [leafOf column.name])
      (List.forall_mem_singleton.mpr rfl), List.nil_append, innerDoubles,
      List.filter_cons_of_pos (by simp [other]), List.filter_nil, below,
      leavesOf_of_childless fun x member => (type'.mem_rewritten member).1]
    refine List.filter_eq_nil_iff.mpr fun x member => ?_
    have inside := List.mem_of_mem_filter member
    have all : ∀ k ∈ [TokenType.kEnum, .kSet, .lparen, .quotedString, .comma, .rparen],
        k ≠ .kDouble := by decide
    simpa [hasType] using all _ (type'.mem_rewritten inside).2
  | words | integer | double | zeroDate =>
    refine innerDoubles_of_leaves fun x member => ?_
    rw [Column.typed, type] at member
    rcases List.mem_cons.mp member with rfl | own
    · rfl
    · have part : x ∈ column.datatype.trees := by
        rw [type]
        exact own
      refine column.datatype.leaf_of_mem part fun isEnum => ?_
      obtain ⟨_, isType, -⟩ := column.enum_of_mem_parts (List.mem_append_left _ part)
        (by simpa [hasType] using isEnum)
      rw [type] at isType
      cases isType

private theorem othersKept_column (column : Column) :
    OthersKept column.columnDef.tree (CreateTable.rewrittenColumn column.columnDef) := by
  have original : otherDoubles column.columnDef.tree =
      innerDoubles (leafOf column.name :: column.datatype.trees ++ column.optionTrees) := rfl
  have result : otherDoubles (CreateTable.rewrittenColumn column.columnDef) =
      innerDoubles (column.typed ++ column.finalOptions) := by
    have type := CreateTable.getType_rewrittenColumn column.columnDef
    rw [otherDoubles, if_pos type, column.rewrittenColumn_columnDef]
    rfl
  rw [OthersKept, original, result, innerDoubles_append, innerDoubles_append,
    innerDoubles_typed column, List.nil_append]
  exact (innerDoubles_sublist column.finalOptions_sublist).trans (List.sublist_append_right _ _)

/-- A schema qualifier keeps its text unless it is a DOUBLE. -/
private theorem othersKept_qualifier_iff (qualifier : Option (SqlIdentifier × TokenIn [.dot])) :
    List.Forall₂ OthersKept
        (qualifier.elim [] fun pair => [.leaf pair.1.1, leafOf pair.2])
        ((qualifier.map fun pair => (doubledSchema pair.1, pair.2)).elim [] fun pair =>
          [.leaf pair.1.1, leafOf pair.2]) ↔
      ∀ pair ∈ qualifier, pair.1.1.type ≠ .kDouble := by
  cases qualifier with
  | none => simp
  | some pair =>
    obtain ⟨schema, dot⟩ := pair
    simp only [Option.map_some, Option.elim_some, Option.mem_def, Option.some.injEq,
      forall_eq']
    by_cases isDouble : schema.1.type = .kDouble
    · have own (token : Token) (type : token.type = .kDouble) :
          otherDoubles (.leaf token) = [.leaf token] := by
        simp [otherDoubles, type, leavesOf, hasType]
      refine iff_of_false (fun all => ?_) (fun other => other isDouble)
      have first := (List.forall₂_cons.mp all).1
      rw [OthersKept, own _ isDouble, own _ (by rw [type_doubledSchema, isDouble]),
        doubledSchema, if_pos isDouble] at first
      have same := congrArg (fun l => l.map fun x => x.getText.length)
        (first.eq_of_length rfl)
      simp at same
    · rw [doubledSchema_of_ne isDouble]
      exact iff_of_true (List.forall₂_same.mpr fun x _ => othersKept_refl x) isDouble

/-! ## The statement -/

private theorem typesPrinted_iff (table : SpelledTable) :
    TypesPrinted table.table.rewritten ↔
      ∀ column ∈ table.columns, DoubleSpelled column.datatype := by
  have definitions (x : Tree) : (x ∈ table.table.rewritten ∧ x.getType = .tCreateTableColumnDef) ↔
      ∃ column ∈ table.columns, CreateTable.rewrittenColumn column.columnDef = x := by
    have kept : x ∈ table.table.rewritten.filter (hasType .tCreateTableColumnDef) ↔
        x ∈ table.table.rewritten ∧ x.getType = .tCreateTableColumnDef := by
      rw [List.mem_filter, hasType, beq_iff_eq]
    rw [← kept, table.filter_rewritten, List.mem_map]
  constructor
  · intro printed column member
    obtain ⟨inside, type⟩ := (definitions _).mpr ⟨column, member, rfl⟩
    exact (typesPrinted_column_iff column).mp (printed _ inside type)
  · intro spelled definition inside type
    obtain ⟨column, member, rfl⟩ := (definitions _).mp ⟨inside, type⟩
    exact (typesPrinted_column_iff column).mpr (spelled column member)

private theorem othersKept_iff (table : SpelledTable) :
    List.Forall₂ OthersKept table.table.survivors table.table.rewritten ↔
      ∀ pair ∈ table.table.qualifier, pair.1.1.type ≠ .kDouble := by
  rw [table.table.forall₂_survivors othersKept_refl fun columnDef member => ?_]
  · exact othersKept_qualifier_iff table.table.qualifier
  · rw [table.spelled] at member
    obtain ⟨column, -, rfl⟩ := List.mem_map.mp member
    exact othersKept_column column

private theorem othersKept_like_iff (table : CreateTableLike) :
    List.Forall₂ OthersKept (table.front ++ table.tail) table.rewritten ↔
      ∀ pair ∈ table.qualifier, pair.1.1.type ≠ .kDouble := by
  have same (l : List Tree) : List.Forall₂ OthersKept l l :=
    List.forall₂_same.mpr fun x _ => othersKept_refl x
  have qualifiers := othersKept_qualifier_iff table.qualifier
  have lengths : table.qualifierTrees.length = table.doubled.qualifierTrees.length := by
    cases present : table.qualifier with
    | none => simp [CreateTableLike.qualifierTrees, CreateTableLike.doubled, present]
    | some pair => simp [CreateTableLike.qualifierTrees, CreateTableLike.doubled, present]
  have header : (table.header.map leafOf).length = (table.doubled.header.map leafOf).length := rfl
  have front : (table.header.map leafOf ++ table.qualifierTrees).length =
      (table.doubled.header.map leafOf ++ table.doubled.qualifierTrees).length := by
    rw [List.length_append, List.length_append, header, lengths]
  have named : table.front.length = table.doubled.front.length := by
    simp only [CreateTableLike.front, List.length_append] at front ⊢
    exact congrArg₂ (· + ·) front rfl
  rw [CreateTableLike.rewritten, forall₂_append_iff named, CreateTableLike.front,
    CreateTableLike.front, forall₂_append_iff front, forall₂_append_iff header]
  exact ⟨fun all => qualifiers.mp all.1.1.2,
    fun other => ⟨⟨⟨same _, qualifiers.mpr other⟩, same _⟩, same _⟩⟩

/-- Exactly the types become DOUBLE PRECISION if and only if every DOUBLE column has PRECISION
written behind it and the table's schema is not called DOUBLE. -/
theorem createTableWorker_doubled_iff (ws : WalkerState) (create : Create) :
    (∃ ws' tree, createTableWorker ws create.tree = some (ws', tree) ∧ Doubled create tree) ↔
      (∀ column ∈ create.columnList, DoubleSpelled column.datatype) ∧
        ∀ pair ∈ create.qualifier, pair.1.1.type ≠ .kDouble := by
  cases create with
  | columns table =>
    refine (table.table.createTableWorker_behind_iff ws _).trans ?_
    exact and_congr (typesPrinted_iff table) (othersKept_iff table)
  | like table =>
    refine (table.createTableWorker_behind_iff ws _).trans ?_
    refine and_congr (iff_of_true (fun definition member type => ?_) fun column member => ?_)
      (othersKept_like_iff table)
    · exact absurd type (table.not_columnDef member)
    · exact (List.not_mem_nil member).elim

/-! ## A column of the type DOUBLE -/

section Untouched

private def word (type : TokenType) (text : String) : Token :=
  ⟨type, text, .default, 1, 0⟩

private def untouchedColumn : Column where
  name := ⟨word .id "a", by decide⟩
  datatype := .double ⟨word .kDouble "DOUBLE", rfl, by decide⟩ none none
  options := []

/-- `CREATE TABLE t (a DOUBLE)` -/
private def untouchedTable : SpelledTable where
  table :=
    { header := [⟨word .kCreate "CREATE", by decide⟩, ⟨word .kTable "TABLE", by decide⟩]
      qualifier := none
      name := ⟨word .id "t", by decide⟩
      lparen := ⟨word .lparen "(", by decide⟩
      first := untouchedColumn.columnDef
      columns := []
      constraints := []
      rparen := ⟨word .rparen ")", by decide⟩
      options := []
      as := none
      select := none
      semi := none }
  columns := [untouchedColumn]
  spelled := rfl

/-- The type is printed as DOUBLE alone. -/
theorem not_createTableWorker_doubled_untouched :
    ¬ ∃ ws' tree, createTableWorker (walkerstateNew 0) (Create.columns untouchedTable).tree =
      some (ws', tree) ∧ Doubled (Create.columns untouchedTable) tree := by
  intro behind
  obtain ⟨types, -⟩ := (untouchedTable.table.createTableWorker_behind_iff _ _).mp behind
  have spelled := (typesPrinted_iff untouchedTable).mp types untouchedColumn List.mem_cons_self
  cases spelled

end Untouched

end Pgify.DoublePrecision
