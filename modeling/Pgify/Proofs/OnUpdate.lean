import Pgify.Proofs.ColumnPasses
import Pgify.Model.Printer

/-! # The expressions of ON UPDATE triggers

`create_table_rewrite_onupdate` reads the texts of the direct children of a clause. The expression
of a clause is printed as the leaves below these children, so the trigger assigns the expression
exactly when every child prints its own text alone. The pass goes on one child too far after each
clause that it takes, so a clause right behind another one is left in the definition.
-/

namespace Pgify.Model

/-- `ON UPDATE sql_expression`; every tree of the expression has a leaf that is printed. -/
structure OnUpdate where
  on : TokenIn [.kOn]
  update : TokenIn [.kUpdate]
  expression : List Tree
  visible : ∀ x ∈ expression, leavesOf [x] ≠ []

def OnUpdate.tree (clause : OnUpdate) : Tree :=
  rooted .tCreateTableOnupdate "T_CREATE_TABLE_ONUPDATE"
    (leafOf clause.on :: leafOf clause.update :: clause.expression)

/-- The tokens of the expression: its leaf texts, in order. -/
def OnUpdate.leafTexts (clause : OnUpdate) : List String :=
  (leavesOf clause.expression).map Tree.getText

/-- A tree whose own text the emitter reads and whose only leaf has that text. -/
def PrintsItself (x : Tree) : Prop :=
  x.getType ≠ .kOn ∧ x.getType ≠ .kUpdate ∧ (leavesOf [x]).map Tree.getText = [x.getText]

/-- The tokens that the emitter appends: the text of every child but ON and UPDATE. -/
def onupdateTokens (children : List Tree) : List String :=
  (children.filter fun child => child.getType != .kOn && child.getType != .kUpdate).map
    Tree.getText

/-- The function and trigger that assign the given tokens to a column. -/
def assignmentText (schemaName tablename name : String) (tokens : List String) : String :=
  onupdateFunctionText schemaName (unquote tablename) (unquote name) name
      (String.join (tokens.map fun token => s!" {token} ")) ++
    onupdateTriggerText schemaName tablename (unquote tablename) (unquote name)

theorem onupdateText_eq (schemaName tablename name : String) (children : List Tree) :
    onupdateText schemaName tablename name children =
      assignmentText schemaName tablename name (onupdateTokens children) := by
  rw [onupdateText, assignmentText, onupdateExpr, onupdateTokens, List.map_map]
  rfl

namespace OnUpdateTrigger

open SearchLoop

/-! ## One clause -/

/-- A list that is filtered and mapped is at most as long as one that gives something for each
element, so the two agree only element by element. -/
theorem filter_map_eq_flatMap_iff {α β : Type*} {keep : α → Bool} {f : α → β} {g : α → List β}
    {l : List α} (nonempty : ∀ x ∈ l, g x ≠ []) :
    (l.filter keep).map f = l.flatMap g ↔ ∀ x ∈ l, keep x = true ∧ g x = [f x] := by
  have short (l : List α) (nonempty : ∀ x ∈ l, g x ≠ []) :
      ((l.filter keep).map f).length ≤ (l.flatMap g).length := by
    induction l with
    | nil => exact Nat.le_refl _
    | cons x rest ih =>
      have tail := ih fun y member => nonempty y (List.mem_cons_of_mem _ member)
      have head := List.length_pos_iff.mpr (nonempty x List.mem_cons_self)
      have kept := List.length_filter_le keep [x]
      rw [← List.singleton_append, List.filter_append, List.map_append, List.flatMap_append]
      simp only [List.length_append, List.length_map, List.flatMap_singleton,
        List.length_singleton] at tail kept ⊢
      omega
  induction l with
  | nil => simp
  | cons x rest ih =>
    have restNonempty := fun y member => nonempty y (List.mem_cons_of_mem x member)
    have tail := short rest restNonempty
    have behind := ih restNonempty
    rw [List.forall_mem_cons, List.flatMap_cons]
    obtain ⟨first, others, shape⟩ := List.exists_cons_of_ne_nil (nonempty x List.mem_cons_self)
    rw [shape]
    cases kept : keep x with
    | false =>
      rw [List.filter_cons_of_neg (by simp [kept])]
      refine iff_of_false (fun same => ?_) (fun both => Bool.noConfusion both.1.1)
      have lengths := congrArg List.length same
      simp only [List.cons_append, List.length_cons, List.length_append] at lengths
      omega
    | true =>
      rw [List.filter_cons_of_pos kept, List.map_cons, List.cons_append, List.cons.injEq]
      constructor
      · rintro ⟨head, same⟩
        have lengths := congrArg List.length same
        rw [List.length_append] at lengths
        have none : others = [] := List.length_eq_zero_iff.mp (by omega)
        rw [none, List.nil_append] at same
        exact ⟨⟨rfl, by rw [none, head]⟩, behind.mp same⟩
      · rintro ⟨⟨-, single⟩, same⟩
        obtain ⟨head, none⟩ := List.cons.inj single
        exact ⟨head.symm, by rw [none, List.nil_append, behind.mpr same]⟩

/-- The emitter appends the tokens of the expression exactly when every tree of it prints
itself. -/
theorem onupdateTokens_eq_iff (clause : OnUpdate) :
    onupdateTokens clause.tree.children = clause.leafTexts ↔
      ∀ x ∈ clause.expression, PrintsItself x := by
  have isOn : clause.on.1.type = .kOn := List.mem_singleton.mp clause.on.2
  have isUpdate : clause.update.1.type = .kUpdate := List.mem_singleton.mp clause.update.2
  have keyword : onupdateTokens clause.tree.children = onupdateTokens clause.expression := by
    simp [onupdateTokens, OnUpdate.tree, isOn, isUpdate]
  rw [keyword, onupdateTokens, OnUpdate.leafTexts, leavesOf_eq_flatMap, List.map_flatMap,
    filter_map_eq_flatMap_iff fun x member => by simpa using clause.visible x member]
  simp only [PrintsItself, Bool.and_eq_true, bne_iff_ne, and_assoc]

/-! ## The clauses of a column -/

/-- The token lists that the pass assigns to a column, one for each clause that it takes. -/
def assigned (x : Tree) : List (List String) :=
  (clauses x).map fun clause => onupdateTokens clause.children

/-- No clause stands right behind another one. -/
def Apart (children : List Tree) : Prop :=
  children.IsChain fun x y =>
    ¬(hasType .tCreateTableOnupdate x = true ∧ hasType .tCreateTableOnupdate y = true)

/-- The pass assigns the expressions of all clauses of a column exactly when no clause stands right
behind another one and every tree of every expression prints itself. -/
theorem assigned_eq_iff {x : Tree} {updates : List OnUpdate}
    (shape : x.children.filter (hasType .tCreateTableOnupdate) = updates.map OnUpdate.tree) :
    assigned x = updates.map OnUpdate.leafTexts ↔
      Apart x.children ∧ ∀ clause ∈ updates, ∀ y ∈ clause.expression, PrintsItself y := by
  have all := takeSkip_fst_eq_filter_iff (p := hasType .tCreateTableOnupdate) x.children
  have each : (updates.map OnUpdate.tree).map (fun clause => onupdateTokens clause.children) =
      updates.map OnUpdate.leafTexts ↔
        ∀ clause ∈ updates, ∀ y ∈ clause.expression, PrintsItself y := by
    rw [List.map_map, List.map_inj_left]
    exact forall₂_congr fun clause _ => onupdateTokens_eq_iff clause
  rw [assigned, clauses, Apart, ← all, ← each, ← shape]
  constructor
  · intro same
    have taken := takeSkip_fst_sublist (p := hasType .tCreateTableOnupdate) x.children
    have lengths := congrArg List.length same
    rw [List.length_map, List.length_map, ← List.length_map OnUpdate.tree, ← shape] at lengths
    have equal := taken.eq_of_length lengths
    exact ⟨equal, equal ▸ same⟩
  · rintro ⟨equal, same⟩
    rw [equal, same]

/-- `create_table_rewrite_onupdate` appends a function and a trigger for every token list that it
assigns, column by column. The lists of a column are the expressions of its clauses if and only if
no clause stands right behind another one and every tree of every expression prints itself. -/
theorem createTableRewriteOnupdate_assigned_iff {table : CreateTable} {column : ColumnDef → Tree}
    {constraints : List (TokenIn [.comma] × Constraint)} {options : List TableOption}
    {updates : ColumnDef → List OnUpdate} (stand : table.AllStand column)
    (shape : ∀ columnDef ∈ table.columnDefs,
      (column columnDef).children.filter (hasType .tCreateTableOnupdate) =
        (updates columnDef).map OnUpdate.tree)
    (ws : WalkerState) :
    createTableRewriteOnupdate ws (table.layout column constraints options) =
        some (ws.append (String.join (table.columnDefs.flatMap fun columnDef =>
            (assigned (column columnDef)).map
              (assignmentText ws.schemaName table.tablename columnDef.name.1.text))),
          table.layout (fun columnDef => onupdateColumn (column columnDef)) constraints options) ∧
      ∀ columnDef ∈ table.columnDefs,
        assigned (column columnDef) = (updates columnDef).map OnUpdate.leafTexts ↔
          Apart (column columnDef).children ∧
            ∀ clause ∈ updates columnDef, ∀ x ∈ clause.expression, PrintsItself x := by
  constructor
  · rw [createTableRewriteOnupdate_layout stand ws, WalkerState.emit, List.map_flatMap]
    refine congrArg (fun texts => some (ws.append (String.join texts), _))
      (List.flatMap_congr fun columnDef _ => ?_)
    rw [assigned, List.map_map, List.map_map]
    exact List.map_congr_left fun clause _ => onupdateText_eq _ _ _ _
  · exact fun columnDef member => assigned_eq_iff (shape columnDef member)

/-! ## A function call in the clause -/

section Call

private def word (type : TokenType) (text : String) : Token :=
  ⟨type, text, .default, 1, 0⟩

private def name (text : String) : TokenIn [.id] :=
  ⟨word .id text, List.mem_singleton_self _⟩

/-- `CURRENT_TIMESTAMP`, as the lexer has it. -/
private def now : List Tree :=
  [.leaf (word (.other 541) "NOW ( )")]

/-- `localtime()` -/
private def call : List Tree :=
  [rooted (.other 23) "T_FUNCTION_NAME"
    [.leaf (word .id "localtime"), .leaf (word .lparen "("), .leaf (word .rparen ")")]]

private theorem visible_now : ∀ x ∈ now, leavesOf [x] ≠ [] := by
  simp [now, leavesOf, word]

private theorem visible_call : ∀ x ∈ call, leavesOf [x] ≠ [] := by
  simp [call, rooted, leavesOf, leavesBelow, word]

private def onUpdate (expression : List Tree) (visible : ∀ x ∈ expression, leavesOf [x] ≠ []) :
    OnUpdate :=
  ⟨⟨word .kOn "ON", List.mem_singleton_self _⟩, ⟨word .kUpdate "UPDATE", List.mem_singleton_self _⟩,
    expression, visible⟩

/-- `CREATE TABLE t (a timestamp ON UPDATE ...)` -/
private def table (clause : OnUpdate) : CreateTable where
  header := []
  qualifier := none
  name := name "t"
  lparen := ⟨word .lparen "(", List.mem_singleton_self _⟩
  first := ⟨name "a", [.leaf (word (.other 0) "timestamp"), clause.tree], by
    simp [hasType, word, OnUpdate.tree]⟩
  columns := []
  constraints := []
  rparen := ⟨word .rparen ")", List.mem_singleton_self _⟩
  options := []
  as := none
  select := none
  semi := none

private theorem stand (clause : OnUpdate) : (table clause).AllStand ColumnDef.tree := by
  intro columnDef member
  obtain rfl := List.mem_singleton.mp member
  exact ⟨rfl, rfl, by simp [ColumnDef.isAutoIncrement, ColumnDef.tree, hasType, table, name, word,
    OnUpdate.tree]⟩

private theorem shape (clause : OnUpdate) : ∀ columnDef ∈ (table clause).columnDefs,
    columnDef.tree.children.filter (hasType .tCreateTableOnupdate) = [clause].map OnUpdate.tree := by
  intro columnDef member
  obtain rfl := List.mem_singleton.mp member
  simp [ColumnDef.tree, hasType, table, name, word, OnUpdate.tree]

theorem createTableRewriteOnupdate_assigned_iff_now :
    assigned (table (onUpdate now visible_now)).first.tree = [["NOW ( )"]] := by
  have each := (@createTableRewriteOnupdate_assigned_iff _ _ [] [] _
    (stand (onUpdate now visible_now)) (shape (onUpdate now visible_now)) (walkerstateNew 0)).2
  refine (each _ List.mem_cons_self).mpr ⟨?_, ?_⟩
  · simp [Apart, table, ColumnDef.tree, hasType, name, word, OnUpdate.tree]
  · simp [onUpdate, now, PrintsItself, leavesOf, word]

/-- The trigger of `ON UPDATE localtime()` assigns the name of the node. -/
theorem not_createTableRewriteOnupdate_call :
    (createTableRewriteOnupdate (walkerstateNew 0)
        (table (onUpdate call visible_call)).children).map (fun walked => walked.1.postbuf) ≠
      some (assignmentText "" "t" "a" (onUpdate call visible_call).leafTexts) := by
  have run : (createTableRewriteOnupdate (walkerstateNew 0)
      (table (onUpdate call visible_call)).children).map (fun walked => walked.1.postbuf) =
        some (assignmentText "" "t" "a" ["T_FUNCTION_NAME"]) := by
    rfl
  have tokens : (onUpdate call visible_call).leafTexts = ["localtime", "(", ")"] := by decide
  rw [run, tokens]
  decide

end Call

end OnUpdateTrigger

end Pgify.Model
