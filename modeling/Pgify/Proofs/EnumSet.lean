import Pgify.Lib.QuotedName
import Pgify.Model.Printer
import Pgify.Proofs.CreateTable
import Pgify.Proofs.Escapes
import Pgify.Proofs.SpelledColumns

/-! # ENUM and SET columns

Both types become a text column with a condition that lists the values. That is the type ENUM. A SET
also stores every selection of its values, joined by commas, and the longest of these is no value of
a list that has two.
-/

namespace Pgify.EnumSet

open Model Escapes

/-! ## The values of literals -/

/-- The units of a literal that nothing stands behind. -/
def whole (read : Option (List ℕ × List Char)) : Option (List ℕ) :=
  read.bind fun result => if result.2 = [] then some result.1 else none

theorem whole_eq_some_iff {read : Option (List ℕ × List Char)} {value : List ℕ} :
    whole read = some value ↔ read = some (value, []) := by
  cases read with
  | none => simp [whole]
  | some result =>
    obtain ⟨units, rest⟩ := result
    by_cases ends : rest = []
    · simp [whole, ends]
    · simp [whole, ends]

/-- MySQL's reading of the literal that the lexer made the token of; escapes put an E in front. -/
def mysqlValue (text : String) : Option (List ℕ) :=
  match text.toList with
  | 'E' :: literal => whole (mysqlLiteral literal)
  | literal => whole (mysqlLiteral literal)

/-- PostgreSQL's reading of the token, with `standard_conforming_strings` on. -/
def postgresValue (text : String) : Option (List ℕ) :=
  match text.toList with
  | 'E' :: literal => whole (pgLiteral ('E' :: literal))
  | literal =>
    whole ((QuotedName.read '\'' literal).map fun read => (read.1.map Char.toNat, read.2))

/-- Both servers read the token as one literal with the same value. -/
def ReadAlike (text : String) : Prop :=
  ∃ value, mysqlValue text = some value ∧ postgresValue text = some value

/-- With escapes on this is a literal none of whose escapes is read differently. -/
theorem readAlike_escaped_iff (input : List Char) :
    ReadAlike (String.ofList ('E' :: '\'' :: input)) ↔
      (whole (mysqlRead input)).isSome = true ∧ escapesAgree input = true := by
  have mysql : mysqlValue (String.ofList ('E' :: '\'' :: input)) = whole (mysqlRead input) := by
    simp [mysqlValue, mysqlLiteral]
  have postgres : postgresValue (String.ofList ('E' :: '\'' :: input)) =
      whole (pgRead 0 input) := by
    simp [postgresValue, pgLiteral]
  rw [ReadAlike, mysql, postgres]
  constructor
  · rintro ⟨value, readMysql, readPostgres⟩
    have both := (whole_eq_some_iff.mp readPostgres).trans (whole_eq_some_iff.mp readMysql).symm
    have closed := isClosed_of_mysqlRead (whole_eq_some_iff.mp readMysql)
    exact ⟨by rw [readMysql]; rfl, (pgRead_eq_mysqlRead_iff input).mp both closed⟩
  · rintro ⟨literal, agree⟩
    obtain ⟨value, readMysql⟩ := Option.isSome_iff_exists.mp literal
    rw [(pgRead_eq_mysqlRead_iff input).mpr fun _ => agree]
    exact ⟨value, readMysql, readMysql⟩

/-! ## The condition that is printed -/

/-- A check: what stands in front of the list, and the literals in it. -/
structure Check where
  opening : String
  literals : List String

/-- `literal ( ',' literal )*` up to two closing parentheses and nothing more. -/
def readLiterals : List Tree → Option (List String)
  | [literal, rparen, closing] =>
    if literal.getType = .quotedString ∧ rparen.getType = .rparen ∧ closing.getType = .rparen then
      some [literal.getText] else none
  | literal :: comma :: rest =>
    if literal.getType = .quotedString ∧ comma.getType = .comma then
      (readLiterals rest).map (literal.getText :: ·)
    else none
  | _ => none

/-- The check that some leaves spell; the second closing parenthesis is that of the opening. -/
def readCheck : List Tree → Option Check
  | opening :: lparen :: rest =>
    if lparen.getType = .lparen then
      (readLiterals rest).map fun literals => ⟨opening.getText, literals⟩
    else none
  | _ => none

/-- The check that a column definition prints for its type. -/
def printedCheck (definition : Tree) : Option Check :=
  readCheck (leavesOf (definition.children.filter (hasType .tCreateTableEnum)))

/-- PostgreSQL: the condition is true for the string. -/
def Check.Holds (check : Check) (string : List ℕ) : Prop :=
  ∃ literal ∈ check.literals, postgresValue literal = some string

/-! ## What MySQL stores -/

/-- A listed value of an ENUM; for a SET any selection of the listed values in their order, joined
by commas. -/
def Stores (keyword : TokenType) (values : List (List ℕ)) (string : List ℕ) : Prop :=
  if keyword = .kSet then
    ∃ selection : List (List ℕ), selection.Sublist values ∧ string = [44].intercalate selection
  else string ∈ values

/-- The definition prints a check on the column's own name with the values of the type, each as
MySQL reads it and in their order, and the check lets through what MySQL stores. -/
def Accepts (name : String) (type : EnumType) (definition : Tree) : Prop :=
  ∃ check values, printedCheck definition = some check ∧
    check.opening = s!"text CHECK ( {name} IN " ∧
    check.literals = type.values.map Token.text ∧
    type.values.mapM (fun token => mysqlValue token.text) = some values ∧
    check.literals.mapM postgresValue = some values ∧
    ∀ string, check.Holds string ↔ Stores type.keyword.1.type values string

/-! ## Reading the check back -/

private theorem readLiterals_cons {literal comma : Tree} {rest : List Tree}
    (isString : literal.getType = .quotedString) (isComma : comma.getType = .comma)
    (more : rest.length ≠ 1) :
    readLiterals (literal :: comma :: rest) = (readLiterals rest).map (literal.getText :: ·) := by
  cases rest with
  | nil => simp [readLiterals]
  | cons x rest =>
    cases rest with
    | nil => exact (more rfl).elim
    | cons y rest => simp [readLiterals, isString, isComma]

private theorem readLiterals_list (first : TokenIn [.quotedString])
    (rest : List (TokenIn [.comma] × TokenIn [.quotedString])) (rparen : TokenIn [.rparen]) :
    readLiterals (leafOf first :: (rest.flatMap fun pair => [leafOf pair.1, leafOf pair.2]) ++
        [leafOf rparen, leafOf rparen]) =
      some (first.1.text :: rest.map fun pair => pair.2.1.text) := by
  have isRparen : rparen.1.type = .rparen := List.mem_singleton.mp rparen.2
  induction rest generalizing first with
  | nil =>
    have isString : first.1.type = .quotedString := List.mem_singleton.mp first.2
    simp [readLiterals, isString, isRparen]
    rfl
  | cons pair rest ih =>
    have isString : (leafOf first).getType = .quotedString := List.mem_singleton.mp first.2
    have isComma : (leafOf pair.1).getType = .comma := List.mem_singleton.mp pair.1.2
    have tail := ih pair.2
    rw [List.flatMap_cons, List.cons_append, List.cons_append, List.cons_append,
      readLiterals_cons isString isComma (by simp), List.singleton_append, tail]
    rfl

theorem printedCheck_rewritten (column : Column) (type : EnumType)
    (isEnum : column.datatype = .enum type) :
    printedCheck (CreateTable.rewrittenColumn column.columnDef) =
      some ⟨s!"text CHECK ( {column.name.1.text} IN ", type.values.map Token.text⟩ := by
  have isLparen : type.lparen.1.type = .lparen := List.mem_singleton.mp type.lparen.2
  have options : column.finalOptions.filter (hasType .tCreateTableEnum) = [] := by
    refine CreateTable.filter_of_clear fun x member => ?_
    exact hasType_of_mem (by decide)
      (column.getType_optionTrees (column.finalOptions_sublist.subset member))
  have node : (CreateTable.rewrittenColumn column.columnDef).children.filter
      (hasType .tCreateTableEnum) = [type.rewritten column.name.1.text] := by
    have name := hasType_leafOf column.name (k := .tCreateTableEnum) (by decide)
    have hit : hasType .tCreateTableEnum (type.rewritten column.name.1.text) = true := rfl
    rw [column.rewrittenColumn_columnDef, Column.typed, isEnum, List.filter_append, options,
      List.append_nil, List.filter_cons_of_neg (by simp [name])]
    exact List.filter_cons_of_pos hit
  have leaves : leavesOf [type.rewritten column.name.1.text] =
      (type.rewritten column.name.1.text).children := by
    have opened : leavesOf [type.rewritten column.name.1.text] =
        leavesOf (type.rewritten column.name.1.text).children :=
      leavesOf_node _ (List.cons_ne_nil _ _)
    have visible : ∀ k ∈ [TokenType.kEnum, .kSet, .lparen, .quotedString, .comma, .rparen],
        k ≠ .eof := by decide
    rw [opened, leavesOf_of_childless fun x member => (type.mem_rewritten member).1]
    exact List.filter_eq_self.mpr fun x member =>
      bne_iff_ne.mpr (visible _ (type.mem_rewritten member).2)
  have list := readLiterals_list type.first type.rest type.rparen
  have shape : (type.rewritten column.name.1.text).children =
      (leafOf type.keyword).setText s!"text CHECK ( {column.name.1.text} IN " ::
        leafOf type.lparen :: (leafOf type.first ::
          (type.rest.flatMap fun pair => [leafOf pair.1, leafOf pair.2]) ++
            [leafOf type.rparen, leafOf type.rparen]) := by
    simp [EnumType.rewritten, EnumType.list]
  rw [printedCheck, node, leaves, shape, readCheck, if_pos (by simp [isLparen]), list,
    EnumType.values, List.map_cons, List.map_map]
  rfl

/-! ## The values -/

theorem mapM_eq_some_iff {α β : Type*} {f : α → Option β} {l : List α} {values : List β} :
    l.mapM f = some values ↔ List.Forall₂ (fun x value => f x = some value) l values := by
  induction l generalizing values with
  | nil => simp [eq_comm]
  | cons x rest ih =>
    simp only [List.mapM_cons, Option.bind_eq_bind, Option.pure_def, Option.bind_eq_some_iff,
      Option.some.injEq, ih, List.forall₂_cons_left_iff]
    constructor
    · rintro ⟨value, own, tail, behind, rfl⟩
      exact ⟨value, tail, own, behind, rfl⟩
    · rintro ⟨value, tail, own, behind, rfl⟩
      exact ⟨value, own, tail, behind, rfl⟩

theorem mapM_both_iff {α β : Type*} {f g : α → Option β} {l : List α} :
    (∃ values, l.mapM f = some values ∧ l.mapM g = some values) ↔
      ∀ x ∈ l, ∃ value, f x = some value ∧ g x = some value := by
  simp only [mapM_eq_some_iff]
  induction l with
  | nil => simp
  | cons x rest ih =>
    rw [List.forall_mem_cons, ← ih]
    constructor
    · rintro ⟨values, first, second⟩
      cases first with
      | cons own behind =>
        cases second with
        | cons own' behind' => exact ⟨⟨_, own, own'⟩, _, behind, behind'⟩
    · rintro ⟨⟨value, own, own'⟩, tail, behind, behind'⟩
      exact ⟨value :: tail, .cons own behind, .cons own' behind'⟩

theorem mem_of_forall₂ {α β : Type*} {f : α → Option β} {l : List α} {values : List β}
    (each : List.Forall₂ (fun x value => f x = some value) l values) (value : β) :
    value ∈ values ↔ ∃ x ∈ l, f x = some value := by
  induction each with
  | nil => simp
  | cons own behind ih =>
    rw [List.mem_cons, ih]
    simp [own, eq_comm]

/-! ## Selections -/

/-- A value is shorter than the join of a list that has more than it. -/
theorem length_lt_intercalate {values : List (List ℕ)} {value : List ℕ} (member : value ∈ values) :
    value.length + (values.length - 1) ≤ ([44].intercalate values).length := by
  induction values generalizing value with
  | nil => cases member
  | cons first rest ih =>
    cases rest with
    | nil =>
      rw [List.mem_singleton.mp member]
      simp
    | cons second more =>
      rw [List.intercalate_cons_cons]
      simp only [List.length_append, List.length_cons, List.length_nil] at ih ⊢
      rcases List.mem_cons.mp member with rfl | behind
      · have short := ih List.mem_cons_self
        omega
      · have short := ih behind
        omega

/-- A list holds every selection of its values only if it is the empty value alone. -/
theorem selections_iff {values : List (List ℕ)} (nonempty : values ≠ []) :
    (∀ string, string ∈ values ↔ Stores .kSet values string) ↔ values = [[]] := by
  simp only [Stores, if_true]
  constructor
  · intro all
    have join := (all ([44].intercalate values)).mpr ⟨values, List.Sublist.refl _, rfl⟩
    have none := (all []).mpr ⟨[], List.nil_sublist _, rfl⟩
    have short := length_lt_intercalate join
    have positive := List.length_pos_iff.mpr nonempty
    obtain ⟨value, rfl⟩ := List.length_eq_one_iff.mp (show values.length = 1 by omega)
    rw [List.mem_singleton.mp none]
  · rintro rfl string
    constructor
    · intro member
      exact ⟨[], List.nil_sublist _, List.mem_singleton.mp member⟩
    · rintro ⟨selection, sublist, rfl⟩
      rcases List.sublist_singleton.mp sublist with rfl | rfl
      · simp
      · simp

/-! ## One column -/

/-- The listed values are what MySQL stores if the type is no SET, unless the empty value is the
only one. -/
theorem listed_iff {type : EnumType} {values : List (List ℕ)}
    (mysql : type.values.mapM (fun token => mysqlValue token.text) = some values) :
    (∀ string, string ∈ values ↔ Stores type.keyword.1.type values string) ↔
      (type.keyword.1.type = .kSet → type.rest = [] ∧
        mysqlValue type.first.1.text = some []) := by
  obtain ⟨first, rest, own, behind, rfl⟩ : ∃ first rest,
      mysqlValue type.first.1.text = some first ∧
      (type.rest.map fun pair => pair.2.1).mapM (fun token => mysqlValue token.text) =
        some rest ∧ values = first :: rest := by
    rw [EnumType.values, List.mapM_cons] at mysql
    simpa only [Option.bind_eq_bind, Option.pure_def, Option.bind_eq_some_iff, Option.some.injEq,
      exists_and_left, eq_comm (b := values)] using mysql
  have alone : rest = [] ↔ type.rest = [] := by
    rw [← List.length_eq_zero_iff, ← (mapM_eq_some_iff.mp behind).length_eq, List.length_map,
      List.length_eq_zero_iff]
  have empty : first :: rest = [[]] ↔
      type.rest = [] ∧ mysqlValue type.first.1.text = some [] := by
    rw [List.cons_eq_cons, alone, own, Option.some.injEq, and_comm]
  by_cases isSet : type.keyword.1.type = .kSet
  · rw [isSet, selections_iff (List.cons_ne_nil first rest), empty]
    simp
  · simp [Stores, isSet]

/-- The definition of a column accepts what MySQL stores if and only if both servers read all
literals alike and the type is no SET, unless the empty value is its only one. -/
theorem accepts_iff {name : String} {type : EnumType} {definition : Tree}
    (printed : printedCheck definition =
      some ⟨s!"text CHECK ( {name} IN ", type.values.map Token.text⟩) :
    Accepts name type definition ↔ (∀ token ∈ type.values, ReadAlike token.text) ∧
      (type.keyword.1.type = .kSet → type.rest = [] ∧ mysqlValue type.first.1.text = some []) := by
  have alike : (∀ token ∈ type.values, ReadAlike token.text) ↔
      ∃ values, type.values.mapM (fun token => mysqlValue token.text) = some values ∧
        (type.values.map Token.text).mapM postgresValue = some values := by
    simp only [List.mapM_map]
    exact mapM_both_iff.symm
  have holds {values : List (List ℕ)}
      (postgres : (type.values.map Token.text).mapM postgresValue = some values)
      (string : List ℕ) : Check.Holds ⟨s!"text CHECK ( {name} IN ",
        type.values.map Token.text⟩ string ↔ string ∈ values :=
    (mem_of_forall₂ (mapM_eq_some_iff.mp postgres) string).symm
  constructor
  · rintro ⟨check, values, own, -, -, mysql, postgres, accepts⟩
    cases printed.symm.trans own
    simp only [holds postgres] at accepts
    exact ⟨alike.mpr ⟨values, mysql, postgres⟩, (listed_iff mysql).mp accepts⟩
  · rintro ⟨each, single⟩
    obtain ⟨values, mysql, postgres⟩ := alike.mp each
    refine ⟨_, values, printed, rfl, rfl, mysql, postgres, fun string => ?_⟩
    rw [holds postgres]
    exact (listed_iff mysql).mpr single string

/-! ## All columns -/

/-- The definitions that the walk leaves accept, for every column of one of the two types, what
MySQL stores in it. -/
def AllAccept (ws : WalkerState) (table : SpelledTable) : Prop :=
  ∃ ws' tree, createTableWorker ws table.table.tree = some (ws', tree) ∧
    List.Forall₂ (fun column definition => ∀ type, column.datatype = .enum type →
        Accepts column.name.1.text type definition)
      table.columns (tree.children.filter (hasType .tCreateTableColumnDef))

private theorem accepting_columns_iff (table : SpelledTable) :
    List.Forall₂ (fun column definition => ∀ type, column.datatype = .enum type →
        Accepts column.name.1.text type definition)
      table.columns (table.table.rewritten.filter (hasType .tCreateTableColumnDef)) ↔
    ∀ column ∈ table.columns, ∀ type, column.datatype = .enum type →
      (∀ token ∈ type.values, ReadAlike token.text) ∧
      (type.keyword.1.type = .kSet → type.rest = [] ∧
        mysqlValue type.first.1.text = some []) := by
  rw [table.filter_rewritten, List.forall₂_map_right_iff, List.forall₂_same]
  refine forall₂_congr fun column _ => forall₂_congr fun type isEnum => ?_
  exact accepts_iff (printedCheck_rewritten column type isEnum)

/-- The columns accept what MySQL stores exactly when both servers read all listed literals alike
and no type is a SET, but for one whose only value is the empty string. -/
theorem createTableWorker_accepts_iff (ws : WalkerState) (table : SpelledTable) :
    AllAccept ws table ↔ ∀ column ∈ table.columns, ∀ type, column.datatype = .enum type →
      (∀ token ∈ type.values, ReadAlike token.text) ∧
      (type.keyword.1.type = .kSet → type.rest = [] ∧
        mysqlValue type.first.1.text = some []) := by
  refine (table.table.createTableWorker_behind_iff ws _).trans ?_
  exact accepting_columns_iff table

section TwoValues

private def lexeme (type : TokenType) (text : String) : Token :=
  ⟨type, text, .default, 1, 0⟩

private def setType : EnumType where
  keyword := ⟨lexeme .kSet "SET", by decide⟩
  lparen := ⟨lexeme .lparen "(", by decide⟩
  first := ⟨lexeme .quotedString "E'x'", by decide⟩
  rest := [(⟨lexeme .comma ",", by decide⟩, ⟨lexeme .quotedString "E'y'", by decide⟩)]
  rparen := ⟨lexeme .rparen ")", by decide⟩

private def setColumn : Column where
  name := ⟨lexeme .id "a", by decide⟩
  datatype := .enum setType
  options := []

/-- `CREATE TABLE t (a SET('x', 'y'))` -/
private def setTable : SpelledTable where
  table :=
    { header := [⟨lexeme .kCreate "CREATE", by decide⟩, ⟨lexeme .kTable "TABLE", by decide⟩]
      qualifier := none
      name := ⟨lexeme .id "t", by decide⟩
      lparen := ⟨lexeme .lparen "(", by decide⟩
      first := setColumn.columnDef
      columns := []
      constraints := []
      rparen := ⟨lexeme .rparen ")", by decide⟩
      options := []
      as := none
      select := none
      semi := none }
  columns := [setColumn]
  spelled := rfl

/-- MySQL stores `''` and `'x,y'` in the column too. -/
theorem not_createTableWorker_accepts_set : ¬ AllAccept (walkerstateNew 0) setTable := by
  intro behind
  have accept := (setTable.table.createTableWorker_behind_iff _ _).mp behind
  have each := (accepting_columns_iff setTable).mp accept setColumn List.mem_cons_self setType rfl
  exact absurd (each.2 rfl).1 (List.cons_ne_nil _ _)

end TwoValues

end Pgify.EnumSet
