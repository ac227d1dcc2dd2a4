import Pgify.Model.ColumnGrammar
import Pgify.Proofs.CreateTable

/-! # What the passes make of a spelled column

The passes over the column definitions, on the children that the grammar builds: the ENUM node is
retexted, and the ON UPDATE, NOT NULL and AUTO_INCREMENT passes delete among the options only.
-/

namespace Pgify.Model

open SearchLoop

/-! ## Searches below a node -/

mutual

/-- A node of the type, at or below the tree. -/
def carries (k : TokenType) : Tree → Bool
  | .node token children => hasType k (.node token children) || carriesBelow k children

/-- A node of the type among or below some siblings. -/
def carriesBelow (k : TokenType) : List Tree → Bool
  | [] => false
  | x :: rest => carries k x || carriesBelow k rest

end

mutual

private theorem lookAheadBelow_eq_none_iff (k : TokenType) (x : Tree) :
    lookAheadBelow k x = none ↔ carriesBelow k x.children = false := by
  cases x with
  | node token children =>
    rw [lookAheadBelow]
    exact lookAheadDownFrom_eq_none_iff k children 0

theorem lookAheadDownFrom_eq_none_iff (k : TokenType) (l : List Tree) (c : ℕ) :
    lookAheadDownFrom k l c = none ↔ carriesBelow k l = false := by
  cases l with
  | nil => simp [lookAheadDownFrom, carriesBelow]
  | cons x rest =>
    have below := lookAheadBelow_eq_none_iff k x
    have behind := lookAheadDownFrom_eq_none_iff k rest (c + 1)
    obtain ⟨token, children⟩ := x
    rw [lookAheadDownFrom, carriesBelow, carries, Tree.children_node] at *
    cases hit : hasType k (.node token children) with
    | true => simp
    | false =>
      cases found : lookAheadBelow k (.node token children) with
      | none => simpa [below.mp found] using behind
      | some down =>
        have present : carriesBelow k children ≠ false := fun none => by
          rw [below.mpr none] at found
          cases found
        simp [present]

end

theorem lookAheadDown_eq_none_iff (l : List Tree) (k : TokenType) :
    lookAheadDown l 0 k = none ↔ carriesBelow k l = false :=
  lookAheadDownFrom_eq_none_iff k _ 0

theorem carriesBelow_append (k : TokenType) (first second : List Tree) :
    carriesBelow k (first ++ second) = (carriesBelow k first || carriesBelow k second) := by
  induction first with
  | nil => rfl
  | cons x rest ih => rw [List.cons_append, carriesBelow, ih, carriesBelow, Bool.or_assoc]

/-- A zero date among or below some siblings. -/
def hasZeroDate (l : List Tree) : Bool :=
  carriesBelow .stupidMysqlDate l || carriesBelow .stupidMysqlTimestamp l

theorem hasZeroDate_append (first second : List Tree) :
    hasZeroDate (first ++ second) = (hasZeroDate first || hasZeroDate second) := by
  rw [hasZeroDate, carriesBelow_append, carriesBelow_append, hasZeroDate, hasZeroDate]
  cases carriesBelow .stupidMysqlDate first <;> cases carriesBelow .stupidMysqlDate second <;>
    cases carriesBelow .stupidMysqlTimestamp first <;> rfl

theorem lookAheadIndex_head {k : TokenType} {x : Tree} (hit : hasType k x = true)
    (rest : List Tree) : lookAheadIndex (x :: rest) 0 k = some 0 :=
  findFrom_append (l := []) (Nat.le_refl _) (by simp) hit

/-! ## ENUM and SET -/

namespace EnumType

variable (type : EnumType)

/-- The node behind the rewrite: the keyword has the text that opens a condition on the column, and
the closing parenthesis stands twice. -/
def rewritten (name : String) : Tree :=
  rooted .tCreateTableEnum "T_CREATE_TABLE_ENUM"
    ((leafOf type.keyword).setText s!"text CHECK ( {name} IN " :: type.list ++
      [leafOf type.rparen])

/-- Nothing but the closing parenthesis ends the list. -/
private theorem list_eq : ∃ body, type.list = body ++ [leafOf type.rparen] ∧
    ∀ x ∈ body, x.getType ∈ [TokenType.lparen, .quotedString, .comma] := by
  have single {k : TokenType} (token : TokenIn [k]) : (leafOf token).getType = k :=
    List.mem_singleton.mp token.2
  refine ⟨leafOf type.lparen :: leafOf type.first ::
    type.rest.flatMap fun pair => [leafOf pair.1, leafOf pair.2], by simp [list], ?_⟩
  intro x member
  simp only [List.mem_cons, List.mem_flatMap, List.not_mem_nil, or_false] at member
  rcases member with rfl | rfl | ⟨pair, -, rfl | rfl⟩
  · simp [single]
  · simp [single]
  · simp [single]
  · simp [single]

theorem mem_rewritten {name : String} {x : Tree} (member : x ∈ (type.rewritten name).children) :
    x.children = [] ∧
      x.getType ∈ [TokenType.kEnum, .kSet, .lparen, .quotedString, .comma, .rparen] := by
  have leaf {types : List TokenType} (token : TokenIn types)
      (all : ∀ k ∈ types, k ∈ [TokenType.kEnum, .kSet, .lparen, .quotedString, .comma, .rparen]) :
      (leafOf token).children = [] ∧
        (leafOf token).getType ∈ [TokenType.kEnum, .kSet, .lparen, .quotedString, .comma, .rparen] :=
    ⟨rfl, all _ token.2⟩
  simp only [rewritten, children_rooted, list, List.cons_append, List.mem_cons, List.mem_append,
    List.mem_flatMap, List.not_mem_nil, or_false] at member
  rcases member with rfl | rfl | rfl | (⟨pair, -, rfl | rfl⟩ | rfl) | rfl
  · exact leaf type.keyword (by decide)
  · exact leaf type.lparen (by decide)
  · exact leaf type.first (by decide)
  · exact leaf pair.1 (by decide)
  · exact leaf pair.2 (by decide)
  · exact leaf type.rparen (by decide)
  · exact leaf type.rparen (by decide)

theorem rewriteEnumNode_tree (name : String) :
    rewriteEnumNode name type.tree = some (type.rewritten name) := by
  obtain ⟨body, shape, types⟩ := type.list_eq
  have clear {k : TokenType} (other : k ∉ [TokenType.lparen, .quotedString, .comma]) :
      ∀ x ∈ body, hasType k x = false :=
    fun x member => hasType_of_mem other (types x member)
  have keyword : (lookAheadIndex (leafOf type.keyword :: type.list) 0 .kEnum).or
      (lookAheadIndex (leafOf type.keyword :: type.list) 0 .kSet) = some 0 := by
    have own := type.keyword.2
    simp only [List.mem_cons, List.not_mem_nil, or_false] at own
    rcases own with isEnum | isSet
    · have hit : hasType .kEnum (leafOf type.keyword) = true := by simpa [hasType] using isEnum
      rw [lookAheadIndex_head hit, Option.some_or]
    · have hit : hasType .kSet (leafOf type.keyword) = true := by simpa [hasType] using isSet
      have miss : hasType .kEnum (leafOf type.keyword) = false := by simp [hasType, isSet]
      have noEnum : lookAheadIndex (leafOf type.keyword :: type.list) 0 .kEnum = none := by
        refine lookAheadIndex_eq_none fun x member => ?_
        rcases List.mem_cons.mp member with rfl | own
        · exact miss
        · rw [shape, List.mem_append, List.mem_singleton] at own
          rcases own with own | rfl
          · exact clear (by decide) x own
          · exact hasType_leafOf type.rparen (by decide)
      rw [noEnum, Option.none_or, lookAheadIndex_head hit]
  have closes : hasType .rparen (leafOf type.rparen) = true := by
    simpa [hasType] using type.rparen.2
  have retexted (text : String) :
      lookAheadIndex ((leafOf type.keyword).setText text :: type.list) 0 .rparen =
        some (body.length + 1) := by
    have opens : hasType .rparen ((leafOf type.keyword).setText text) = false :=
      hasType_leafOf type.keyword (by decide)
    rw [shape, lookAheadIndex]
    refine findFrom_append (l := (leafOf type.keyword).setText text :: body) (Nat.zero_le _)
      (fun x member => ?_) closes
    rcases List.mem_cons.mp (by simpa using member) with rfl | own
    · exact opens
    · exact clear (by decide) x own
  have present (x : Tree) : (x :: type.list)[body.length + 1]? = some (leafOf type.rparen) := by
    rw [shape]
    exact getElem?_here (x :: body) [] (leafOf type.rparen)
  simp only [rewriteEnumNode, tree, children_rooted, keyword, Option.bind_eq_bind,
    Option.bind_some, List.getElem?_cons_zero, List.set_cons_zero, retexted, present]
  rfl

end EnumType

/-- The children of a datatype behind `create_rewrite_enum`. -/
def Datatype.rewritten (name : String) : Datatype → List Tree
  | .enum type => [type.rewritten name]
  | datatype => datatype.trees

theorem Datatype.getType_rewritten (datatype : Datatype) (name : String) :
    ∀ x ∈ datatype.rewritten name, x.getType ∈ Datatype.types := by
  cases datatype with
  | enum type =>
    intro x member
    rw [List.mem_singleton.mp member, EnumType.rewritten, getType_rooted]
    decide
  | words tokens unsigned => exact (words tokens unsigned).getType_mem
  | integer keyword length unsigned => exact (integer keyword length unsigned).getType_mem
  | double keyword precision unsigned => exact (double keyword precision unsigned).getType_mem
  | zeroDate literal => exact (zeroDate literal).getType_mem

namespace Column

variable (column : Column)

/-- The name and the datatype. -/
def typed : List Tree :=
  leafOf column.name :: column.datatype.rewritten column.name.1.text

/-- The children of the definition behind `create_rewrite_enum`. -/
def enumChildren : List Tree :=
  column.typed ++ column.optionTrees

private theorem map_of_clear {g : Tree → Option Tree} {l : List Tree}
    (clear : ∀ x ∈ l, hasType .tCreateTableEnum x = false) :
    (l.map fun part => if hasType .tCreateTableEnum part then (g part).getD part else part) = l := by
  rw [List.map_congr_left (g := id) fun x member => by simp [clear x member], List.map_id]

theorem enumColumn_columnDef :
    (enumColumn column.columnDef.tree).children = column.enumChildren := by
  have options : ∀ x ∈ column.optionTrees, hasType .tCreateTableEnum x = false :=
    fun x member => hasType_of_mem (by decide) (column.getType_optionTrees member)
  have parts : column.columnDef.parts = column.datatype.trees ++ column.optionTrees := rfl
  have name : column.columnDef.name = column.name := rfl
  rw [enumColumn_children, parts, name, List.map_append, map_of_clear options, enumChildren,
    typed, List.cons_append]
  refine congrArg (fun trees => leafOf column.name :: (trees ++ column.optionTrees)) ?_
  cases present : column.datatype with
  | enum type =>
    have isEnum : hasType .tCreateTableEnum type.tree = true := rfl
    simp only [Datatype.trees, Datatype.rewritten, List.map_cons, List.map_nil, isEnum, if_true,
      EnumType.rewriteEnumNode_tree, Option.getD_some]
  | words | integer | double | zeroDate =>
    refine map_of_clear fun x member => Bool.eq_false_iff.mpr fun isEnum => ?_
    obtain ⟨type, own, -⟩ := column.enum_of_mem_parts
      (List.mem_append_left _ (by rw [present]; exact member)) isEnum
    rw [present] at own
    cases own

end Column

/-! ## The options -/

theorem deleteNotNull_append_of_clear {front : List Tree}
    (clear : ∀ x ∈ front, x.getType ≠ .kNot) (rest : List Tree) :
    deleteNotNull (front ++ rest) = front ++ deleteNotNull rest := by
  induction front with
  | nil => rfl
  | cons x front ih =>
    rw [List.cons_append, deleteNotNull_cons (clear x List.mem_cons_self),
      ih fun y member => clear y (List.mem_cons_of_mem _ member)]
    rfl

/-- The first AUTO_INCREMENT is erased. -/
theorem autoIncColumn_children (x : Tree) :
    (autoIncColumn x).children = x.children.eraseP (hasType .kAutoIncrement) := by
  have search : lookAheadIndex x.children 0 .kAutoIncrement =
      x.children.findIdx? (hasType .kAutoIncrement) := by simp [lookAheadIndex, findFrom]
  rw [autoIncColumn, List.eraseP_eq_eraseIdx, search]
  cases x.children.findIdx? (hasType .kAutoIncrement) <;> rfl

theorem dateColumn_children (x : Tree) :
    (dateColumn x).children =
      if hasZeroDate x.children then deleteNotNull x.children else x.children := by
  have dates : (lookAheadDown x.children 0 .stupidMysqlDate = none ∧
      lookAheadDown x.children 0 .stupidMysqlTimestamp = none) ↔
        ¬ hasZeroDate x.children = true := by
    rw [lookAheadDown_eq_none_iff, lookAheadDown_eq_none_iff, hasZeroDate, Bool.or_eq_true]
    simp
  rw [dateColumn]
  by_cases zero : hasZeroDate x.children = true
  · rw [if_neg fun none => dates.mp none zero, if_pos zero, Tree.children_withChildren]
  · rw [if_pos (dates.mpr zero), if_neg zero]

namespace Column

variable (column : Column)

theorem typed_clear {k : TokenType} (other : k ∉ .id :: Datatype.types) :
    ∀ x ∈ column.typed, hasType k x = false := by
  intro x member
  refine hasType_of_mem other ?_
  rcases List.mem_cons.mp member with rfl | own
  · exact List.mem_cons.mpr (Or.inl (List.mem_singleton.mp column.name.2))
  · exact List.mem_cons_of_mem _ (column.datatype.getType_rewritten _ x own)

/-- The options without the ON UPDATE clauses that are taken. -/
def keptOptions : List Tree :=
  (takeSkip (hasType .tCreateTableOnupdate) column.optionTrees).2

/-- The options behind `create_rewrite_stupid_date`. -/
def datedOptions : List Tree :=
  if hasZeroDate (column.typed ++ column.keptOptions) then deleteNotNull column.keptOptions
  else column.keptOptions

/-- The options behind all passes. -/
def finalOptions : List Tree :=
  column.datedOptions.eraseP (hasType .kAutoIncrement)

theorem keptOptions_sublist : column.keptOptions.Sublist column.optionTrees :=
  takeSkip_snd_sublist _

theorem datedOptions_sublist : column.datedOptions.Sublist column.optionTrees := by
  rw [datedOptions]
  split
  · rw [deleteNotNull_eq]
    exact (AdjacentPairs.dropFirst_sublist _).trans column.keptOptions_sublist
  · exact column.keptOptions_sublist

theorem finalOptions_sublist : column.finalOptions.Sublist column.optionTrees :=
  List.eraseP_sublist.trans column.datedOptions_sublist

theorem rewrittenColumn_columnDef :
    (CreateTable.rewrittenColumn column.columnDef).children =
      column.typed ++ column.finalOptions := by
  have onupdate : (onupdateColumn (enumColumn column.columnDef.tree)).children =
      column.typed ++ column.keptOptions := by
    rw [onupdateColumn, Tree.children_withChildren, enumColumn_columnDef, enumChildren,
      takeSkip_append_of_clear (column.typed_clear (by decide))]
    rfl
  have noNot : ∀ x ∈ column.typed, x.getType ≠ .kNot := by
    intro x member
    simpa [hasType] using column.typed_clear (k := .kNot) (by decide) x member
  have dated : (dateColumn (onupdateColumn (enumColumn column.columnDef.tree))).children =
      column.typed ++ column.datedOptions := by
    rw [dateColumn_children, onupdate, datedOptions, deleteNotNull_append_of_clear noNot]
    split <;> rfl
  rw [CreateTable.rewrittenColumn, autoIncColumn_children, dated, finalOptions,
    List.eraseP_append_right]
  intro x member
  simp [column.typed_clear (k := .kAutoIncrement) (by decide) x member]

end Column

/-- The definitions that the walk leaves, column by column. -/
theorem SpelledTable.filter_rewritten (table : SpelledTable) :
    table.table.rewritten.filter (hasType .tCreateTableColumnDef) =
      table.columns.map fun column => CreateTable.rewrittenColumn column.columnDef := by
  rw [table.table.rewritten_filter, table.spelled, List.map_map]
  rfl

end Pgify.Model
