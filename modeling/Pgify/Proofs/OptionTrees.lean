import Pgify.Proofs.SpelledColumns

/-! # Options and the children they make

How often the passes' search types stand among the children of a definition is how often the options
of that kind were written, NOT NULL stays a pair, and clauses are neighbours exactly where only
options without a child stand between them.
-/

namespace Pgify.Model

open SearchLoop AdjacentPairs

/-- A child, where an ENUM or SET node stands without its list, which another pass rewrites. -/
def withoutList (x : Tree) : Tree :=
  if x.getType = .tCreateTableEnum then x.withChildren [] else x

theorem hasType_apart {k l : TokenType} (other : k ≠ l) {x : Tree} (hit : hasType k x = true) :
    hasType l x = false := by
  simp only [hasType, beq_iff_eq] at hit
  simpa [hasType, hit] using other

/-! ## What a column is written with -/

namespace ColumnOption

/-- The node of an ON UPDATE option. -/
def clause? : ColumnOption → Option Tree
  | onUpdate on update expression => some (clause on update expression)
  | _ => none

def isOnUpdate : ColumnOption → Bool
  | onUpdate .. => true
  | _ => false

def isAutoIncrement : ColumnOption → Bool
  | autoIncrement _ => true
  | _ => false

def isNotNull : ColumnOption → Bool
  | notNull .. => true
  | _ => false

/-- COLLATE and CHARACTER SET leave no child behind. -/
def leavesChild : ColumnOption → Bool
  | collate .. | charset .. => false
  | _ => true

/-- A DEFAULT with a zero date in its expression. -/
def isZeroDated : ColumnOption → Bool
  | default _ expression => hasZeroDate expression
  | _ => false

end ColumnOption

def Datatype.isZeroDate : Datatype → Bool
  | zeroDate _ => true
  | _ => false

/-- The type is a zero date, or a DEFAULT has one. -/
def Column.isZeroDated (column : Column) : Bool :=
  column.datatype.isZeroDate || column.options.any ColumnOption.isZeroDated

/-- The options of the column leave the passes nothing to miss. -/
structure Column.Sparse (column : Column) : Prop where
  onUpdate : (column.options.filter ColumnOption.leavesChild).IsChain fun first second =>
    ¬(first.isOnUpdate = true ∧ second.isOnUpdate = true)
  autoIncrement : column.options.countP ColumnOption.isAutoIncrement ≤ 1
  notNull : column.isZeroDated = true → column.options.countP ColumnOption.isNotNull ≤ 1

/-! ## Options and their children -/

namespace ColumnOption

theorem clear (option : ColumnOption) {k : TokenType} (other : k ∉ option.ownTypes) :
    ∀ x ∈ option.trees, hasType k x = false :=
  fun x member => hasType_of_mem other (option.getType_mem_ownTypes x member)

theorem countP_of_clear (option : ColumnOption) {k : TokenType} (other : k ∉ option.ownTypes) :
    option.trees.countP (hasType k) = 0 :=
  List.countP_eq_zero.mpr fun x member => by simp [option.clear other x member]

theorem countP_onUpdate (option : ColumnOption) :
    option.trees.countP (hasType .tCreateTableOnupdate) = if option.isOnUpdate then 1 else 0 := by
  cases option with
  | onUpdate on update expression => rfl
  | _ => exact countP_of_clear _ (by simp [ownTypes])

theorem countP_autoIncrement (option : ColumnOption) :
    option.trees.countP (hasType .kAutoIncrement) = if option.isAutoIncrement then 1 else 0 := by
  cases option with
  | autoIncrement keyword =>
    have hit : hasType .kAutoIncrement (leafOf keyword) = true := by
      simpa [hasType] using keyword.2
    simp [trees, isAutoIncrement, hit]
  | _ => exact countP_of_clear _ (by simp [ownTypes])

theorem countP_notNull (option : ColumnOption) :
    option.trees.countP (hasType .kNot) = if option.isNotNull then 1 else 0 := by
  cases option with
  | notNull first second =>
    have hit : hasType .kNot (leafOf first) = true := by simpa [hasType] using first.2
    have miss := hasType_leafOf second (k := .kNot) (by decide)
    simp [trees, isNotNull, hit, miss]
  | _ => exact countP_of_clear _ (by simp [ownTypes])

theorem paired (option : ColumnOption) :
    Paired (hasType .kNot) (hasType .kNull) option.trees := by
  cases option with
  | notNull first second =>
    have isNull : hasType .kNull (leafOf second) = true := by simpa [hasType] using second.2
    have miss := hasType_leafOf second (k := .kNot) (by decide)
    exact ⟨fun _ => ⟨leafOf second, rfl, isNull⟩, by simp [miss], trivial⟩
  | _ => exact paired_of_clear (clear _ (by simp [ownTypes]))

/-- An ON UPDATE option is one child, and the only one of its kind. -/
theorem filter_onUpdate (option : ColumnOption) :
    option.trees.filter (hasType .tCreateTableOnupdate) = option.clause?.toList := by
  cases option with
  | onUpdate on update expression => rfl
  | _ => exact CreateTable.filter_of_clear (clear _ (by simp [ownTypes]))

end ColumnOption

namespace Column

variable (column : Column)

theorem countP_optionTrees {p : Tree → Bool} {P : ColumnOption → Bool}
    (each : ∀ option : ColumnOption, option.trees.countP p = if P option then 1 else 0) :
    column.optionTrees.countP p = column.options.countP P := by
  rw [optionTrees]
  induction column.options with
  | nil => rfl
  | cons option rest ih =>
    rw [List.flatMap_cons, List.countP_append, ih, each, List.countP_cons, Nat.add_comm]

theorem paired_optionTrees : Paired (hasType .kNot) (hasType .kNull) column.optionTrees := by
  rw [optionTrees]
  induction column.options with
  | nil => trivial
  | cons option rest ih =>
    rw [List.flatMap_cons]
    exact option.paired.append ih

theorem leaf_of_mem_optionTrees {x : Tree} (member : x ∈ column.optionTrees)
    (noDefault : x.getType ≠ .tCreateTableColumnDefault)
    (noClause : x.getType ≠ .tCreateTableOnupdate) : x.children = [] := by
  obtain ⟨option, -, own⟩ := List.mem_flatMap.mp member
  exact option.leaf_of_mem own noDefault noClause

/-- The first child that options leave is a clause exactly if the first option that leaves one is
ON UPDATE. -/
private theorem head_onUpdate (options : List ColumnOption) :
    (options.flatMap ColumnOption.trees).head?.map (hasType .tCreateTableOnupdate) =
      (options.filter ColumnOption.leavesChild).head?.map ColumnOption.isOnUpdate := by
  induction options with
  | nil => rfl
  | cons option rest ih =>
    rw [List.flatMap_cons, List.filter_cons]
    cases option with
    | collate | charset => exact ih
    | onUpdate => rfl
    | default => rfl
    | key primary keyword =>
      cases primary with
      | none =>
        simpa [ColumnOption.trees, ColumnOption.leavesChild, ColumnOption.isOnUpdate] using
          hasType_leafOf keyword (k := .tCreateTableOnupdate) (by decide)
      | some token =>
        simpa [ColumnOption.trees, ColumnOption.leavesChild, ColumnOption.isOnUpdate] using
          hasType_leafOf token (k := .tCreateTableOnupdate) (by decide)
    | notNull token | null token | autoIncrement token | unique token | comment token
    | columnFormat token | storage token =>
      simpa [ColumnOption.trees, ColumnOption.leavesChild, ColumnOption.isOnUpdate] using
        hasType_leafOf token (k := .tCreateTableOnupdate) (by decide)

theorem isChain_optionTrees_iff :
    column.optionTrees.IsChain (fun x y =>
        ¬(hasType .tCreateTableOnupdate x = true ∧ hasType .tCreateTableOnupdate y = true)) ↔
      (column.options.filter ColumnOption.leavesChild).IsChain fun first second =>
        ¬(first.isOnUpdate = true ∧ second.isOnUpdate = true) := by
  rw [optionTrees]
  induction column.options with
  | nil => simp
  | cons option rest ih =>
    rw [List.flatMap_cons]
    cases own : option.isOnUpdate with
    | false =>
      have none : option.trees.countP (hasType .tCreateTableOnupdate) = 0 := by
        rw [option.countP_onUpdate, own]
        rfl
      -- Behind an option that is no clause nothing is too close.
      have skip := @absent_append_of_clear _ (hasType .tCreateTableOnupdate)
        (hasType .tCreateTableOnupdate) _ (rest.flatMap ColumnOption.trees) fun x member =>
          Bool.eq_false_iff.mpr (List.countP_eq_zero.mp none x member)
      rw [Absent, Absent] at skip
      rw [skip, ih]
      cases leaves : option.leavesChild with
      | false => rw [List.filter_cons_of_neg (by simp [leaves])]
      | true =>
        rw [List.filter_cons_of_pos leaves, List.isChain_cons]
        simp [own]
    | true =>
      cases option with
      | onUpdate on update expression =>
        have hit : hasType .tCreateTableOnupdate (ColumnOption.clause on update expression) =
            true := rfl
        have free {α : Type} (p : α → Bool) (head : Option α) :
            (∀ y ∈ head, ¬(true = true ∧ p y = true)) ↔ head.map p ≠ some true := by
          cases head <;> simp
        rw [List.filter_cons_of_pos rfl, ColumnOption.trees, List.singleton_append,
          List.isChain_cons, List.isChain_cons, ih, hit, own, free, free, head_onUpdate]
      | _ => cases own

/-! ## The parts of a definition -/

/-- The ON UPDATE clauses of the column, in order. -/
def clauses : List Tree :=
  column.options.filterMap ColumnOption.clause?

theorem filter_onUpdate_optionTrees :
    column.optionTrees.filter (hasType .tCreateTableOnupdate) = column.clauses := by
  rw [optionTrees, clauses]
  induction column.options with
  | nil => rfl
  | cons option rest ih =>
    rw [List.flatMap_cons, List.filter_append, ih, option.filter_onUpdate, List.filterMap_cons]
    cases option.clause? <;> rfl

end Column

/-! ## Zero dates -/

def carriesZero (x : Tree) : Bool :=
  carries .stupidMysqlDate x || carries .stupidMysqlTimestamp x

theorem hasZeroDate_eq_any (l : List Tree) : hasZeroDate l = l.any carriesZero := by
  have below (k : TokenType) : carriesBelow k l = l.any (carries k) := by
    induction l with
    | nil => rfl
    | cons x rest ih => rw [carriesBelow, ih, List.any_cons]
  rw [hasZeroDate, below, below, Bool.eq_iff_iff, Bool.or_eq_true]
  simp only [List.any_eq_true, carriesZero, Bool.or_eq_true, and_or_left, exists_or]

theorem hasZeroDate_congr {l m : List Tree} (same : l.filter carriesZero = m.filter carriesZero) :
    hasZeroDate l = hasZeroDate m := by
  have kept (l : List Tree) : hasZeroDate l = (l.filter carriesZero).any carriesZero := by
    rw [hasZeroDate_eq_any]
    simp [List.any_filter]
  rw [kept, kept, same]

theorem carriesZero_of_leaf {x : Tree} (leaf : x.children = [])
    (noDate : x.getType ≠ .stupidMysqlDate) (noTimestamp : x.getType ≠ .stupidMysqlTimestamp) :
    carriesZero x = false := by
  obtain ⟨token, children⟩ := x
  obtain rfl := leaf
  simp [carriesZero, carries, carriesBelow, hasType, noDate, noTimestamp]

theorem carriesZero_rooted {k : TokenType} (noDate : k ≠ .stupidMysqlDate)
    (noTimestamp : k ≠ .stupidMysqlTimestamp) (text : String) (children : List Tree) :
    carriesZero (rooted k text children) = hasZeroDate children := by
  have root {l : TokenType} (other : k ≠ l) : hasType l (rooted k text children) = false := by
    simpa [hasType] using other
  simp only [rooted] at root
  simp [carriesZero, rooted, carries, root noDate, root noTimestamp, hasZeroDate]

theorem carriesZero_of_token {types : List TokenType} (token : TokenIn types)
    (none : ∀ k ∈ types, k ≠ .stupidMysqlDate ∧ k ≠ .stupidMysqlTimestamp) :
    carriesZero (leafOf token) = false :=
  carriesZero_of_leaf rfl (none _ token.2).1 (none _ token.2).2

theorem Datatype.hasZeroDate_rewritten (datatype : Datatype) (name : String) :
    hasZeroDate (datatype.rewritten name) = datatype.isZeroDate := by
  rw [hasZeroDate_eq_any]
  cases datatype with
  | zeroDate literal =>
    have types := literal.2
    simp only [List.mem_cons, List.not_mem_nil, or_false] at types
    rcases types with type | type
    · simp [rewritten, trees, isZeroDate, carriesZero, carries, leafOf, Tree.leaf, hasType, type]
    · simp [rewritten, trees, isZeroDate, carriesZero, carries, leafOf, Tree.leaf, hasType, type]
  | enum type =>
    change ([type.rewritten name].any carriesZero) = false
    rw [List.any_cons, EnumType.rewritten, carriesZero_rooted (by decide) (by decide),
      List.any_nil, Bool.or_false, hasZeroDate_eq_any, List.any_eq_false]
    intro x member
    obtain ⟨leaf, own⟩ := @EnumType.mem_rewritten type name _ member
    have all : ∀ k ∈ [TokenType.kEnum, .kSet, .lparen, .quotedString, .comma, .rparen],
        k ≠ .stupidMysqlDate ∧ k ≠ .stupidMysqlTimestamp := by decide
    simp [carriesZero_of_leaf leaf (all _ own).1 (all _ own).2]
  | words tokens unsigned =>
    refine List.any_eq_false.mpr fun x member => ?_
    obtain ⟨token, -, rfl⟩ := List.mem_map.mp member
    simp [carriesZero_of_token token (by decide)]
  | integer keyword length unsigned =>
    simp [rewritten, trees, isZeroDate, carriesZero_of_token keyword (by decide)]
  | double keyword precision unsigned =>
    refine List.any_eq_false.mpr fun x member => ?_
    have word {k : TokenType} {spelling : String} (token : Keyword k spelling)
        (noDate : k ≠ .stupidMysqlDate) (noTimestamp : k ≠ .stupidMysqlTimestamp) :
        ¬ carriesZero (.leaf token.1) = true := by
      have leaf : carriesZero (.leaf token.1) = false :=
        carriesZero_of_leaf rfl (by rwa [Tree.getType_leaf, token.2.1])
          (by rwa [Tree.getType_leaf, token.2.1])
      simp [leaf]
    rcases List.mem_cons.mp member with rfl | own
    · exact word keyword (by decide) (by decide)
    · obtain ⟨token, -, rfl⟩ := Option.map_eq_some_iff.mp (Option.mem_toList.mp own)
      exact word token (by decide) (by decide)

private theorem ColumnOption.noZeroDate (option : ColumnOption)
    (plain : ∀ k ∈ option.ownTypes, k ≠ .tCreateTableColumnDefault ∧ k ≠ .tCreateTableOnupdate ∧
      k ≠ .stupidMysqlDate ∧ k ≠ .stupidMysqlTimestamp) : hasZeroDate option.trees = false := by
  rw [hasZeroDate_eq_any, List.any_eq_false]
  intro x member
  obtain ⟨noDefault, noClause, noDate, noTimestamp⟩ := plain _ (option.getType_mem_ownTypes x member)
  simp [carriesZero_of_leaf (option.leaf_of_mem member noDefault noClause) noDate noTimestamp]

theorem ColumnOption.hasZeroDate_trees (option : ColumnOption) (other : option.isOnUpdate = false) :
    hasZeroDate option.trees = option.isZeroDated := by
  cases option with
  | default keyword expression =>
    have leaf := carriesZero_of_token keyword (by decide)
    rw [trees, hasZeroDate_eq_any, List.any_cons, carriesZero_rooted (by decide) (by decide),
      hasZeroDate_eq_any, List.any_cons, leaf, List.any_nil, Bool.or_false, Bool.false_or,
      isZeroDated, hasZeroDate_eq_any]
  | onUpdate => cases other
  | _ => exact noZeroDate _ (by simp [ownTypes])

namespace Column

variable (column : Column)

/-- The children behind the name without the clauses. -/
def unclaused : List Tree :=
  column.optionTrees.filter fun x => !hasType .tCreateTableOnupdate x

theorem hasZeroDate_unclaused :
    hasZeroDate column.unclaused = column.options.any ColumnOption.isZeroDated := by
  rw [unclaused, optionTrees]
  induction column.options with
  | nil => rfl
  | cons option rest ih =>
    rw [List.flatMap_cons, List.filter_append, hasZeroDate_append, ih, List.any_cons]
    refine congrArg (· || _) ?_
    cases own : option.isOnUpdate with
    | true =>
      cases option with
      | onUpdate => rfl
      | _ => cases own
    | false =>
      have none : option.trees.countP (hasType .tCreateTableOnupdate) = 0 := by
        rw [option.countP_onUpdate, own]
        rfl
      rw [List.filter_eq_self.mpr fun x member => by
        simpa using List.countP_eq_zero.mp none x member, option.hasZeroDate_trees own]

/-- The name and the type, where an ENUM or SET node stands without its list. -/
def header : List Tree :=
  leafOf column.name :: column.datatype.trees.map withoutList

theorem map_typed : column.typed.map withoutList = column.header := by
  have name : withoutList (leafOf column.name) = leafOf column.name := by
    have type : column.name.1.type = .id := List.mem_singleton.mp column.name.2
    simp [withoutList, type]
  rw [typed, List.map_cons, name, header]
  cases column.datatype <;> rfl

theorem header_clear {k : TokenType} (other : k ∉ .id :: Datatype.types) :
    ∀ x ∈ column.header, hasType k x = false := by
  intro x member
  rw [← column.map_typed] at member
  obtain ⟨y, own, rfl⟩ := List.mem_map.mp member
  have same : (withoutList y).getType = y.getType := by
    rw [withoutList]
    split <;> rfl
  rw [hasType, same]
  exact column.typed_clear other y own

theorem hasZeroDate_typed : hasZeroDate column.typed = column.datatype.isZeroDate := by
  have name := carriesZero_of_token column.name (by decide)
  rw [typed, hasZeroDate_eq_any, List.any_cons, name, Bool.false_or, ← hasZeroDate_eq_any,
    column.datatype.hasZeroDate_rewritten]

theorem hasZeroDate_header : hasZeroDate column.header = column.datatype.isZeroDate := by
  have name := carriesZero_of_token column.name (by decide)
  rw [header, hasZeroDate_eq_any, List.any_cons, name, Bool.false_or, ← hasZeroDate_eq_any]
  cases type : column.datatype with
  | enum type => rfl
  | words | integer | double | zeroDate =>
    rw [List.map_congr_left (g := id) fun x member => ?_, List.map_id, ← type,
      ← column.datatype.hasZeroDate_rewritten "", type]
    · rfl
    · refine if_neg fun isEnum => ?_
      obtain ⟨_, own, -⟩ := column.enum_of_mem_parts
        (List.mem_append_left _ (by rw [type]; exact member)) (by simpa [hasType] using isEnum)
      rw [type] at own
      cases own

theorem hasZeroDate_unclaused_behind {front : List Tree}
    (own : hasZeroDate front = column.datatype.isZeroDate) :
    hasZeroDate (front ++ column.unclaused) = column.isZeroDated := by
  rw [hasZeroDate_append, own, column.hasZeroDate_unclaused, isZeroDated]

theorem map_optionTrees {l : List Tree} (inside : ∀ x ∈ l, x ∈ column.optionTrees) :
    l.map withoutList = l := by
  rw [List.map_congr_left (g := id) fun x member => ?_, List.map_id]
  refine if_neg fun isEnum => ?_
  have type := column.getType_optionTrees (inside x member)
  rw [isEnum] at type
  exact absurd type (by decide)

/-! ## What the passes keep -/

theorem keptOptions_filter {q : Tree → Bool}
    (apart : ∀ x ∈ column.optionTrees, hasType .tCreateTableOnupdate x = true → q x = false) :
    column.keptOptions.filter q = column.optionTrees.filter q :=
  takeSkip_snd_filter apart

theorem datedOptions_filter {q : Tree → Bool}
    (noNot : ∀ x ∈ column.optionTrees, hasType .kNot x = true → q x = false)
    (noNull : ∀ x ∈ column.optionTrees, hasType .kNull x = true → q x = false) :
    column.datedOptions.filter q = column.keptOptions.filter q := by
  rw [datedOptions]
  split
  · rw [deleteNotNull_eq]
    exact dropFirst_filter (fun x member => noNot x (column.keptOptions_sublist.subset member))
      fun x member => noNull x (column.keptOptions_sublist.subset member)
  · rfl

theorem finalOptions_filter {q : Tree → Bool}
    (noAutoIncrement : ∀ x ∈ column.optionTrees, hasType .kAutoIncrement x = true → q x = false) :
    column.finalOptions.filter q = column.datedOptions.filter q :=
  eraseP_filter fun x member => noAutoIncrement x (column.datedOptions_sublist.subset member)

end Column

end Pgify.Model
