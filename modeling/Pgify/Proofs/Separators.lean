import Mathlib.Data.List.Chain
import Pgify.Proofs.TableNames

/-! # Semicolons between the statements of the output

The output is what the statements of the input print, one after the other, and then what they have
appended to the postbuf. A body statement keeps the semicolon it has in the input, and every
appended statement ends in one of its own; between the two parts stands a newline only.
-/

namespace Pgify.Separators

open Model

/-! ## The statements of the output -/

/-- A statement of the output: the leaves that a statement of the input prints, or the text of one
statement of the postbuf. -/
inductive OutputStatement where
  | body (leaves : List Tree)
  | generated (text : String)

namespace OutputStatement

/-- Whether the statement contains text that is not hidden. -/
def visible : OutputStatement → Bool
  | body leaves => leaves.any fun leaf => leaf.getText != ""
  | generated text => text != ""

/-- The statement ends in a semicolon. -/
def Closed : OutputStatement → Prop
  | body leaves => leaves.getLast?.any (hasType .semi) = true
  | generated text => ∃ front, text = front ++ ";\n"

end OutputStatement

/-- The single statements in the text of one append. -/
def generatedTexts : Generated → List String
  | .onupdate schemaName tablename column clause =>
    [onupdateFunctionText schemaName (unquote tablename) (unquote column) column
        (onupdateExpr clause),
      onupdateTriggerText schemaName tablename (unquote tablename) (unquote column)]
  | .index schemaName tablename name indexType columns =>
    [indexText schemaName tablename name indexType columns]
  | .autoInc schemaName tablename column start =>
    [createSequenceText schemaName (sequenceName tablename column) start,
      setDefaultText schemaName tablename column (sequenceName tablename column)]
  | .fkey tablename tokens => [fkeyText tablename (fkeyTokensText tokens)]

theorem join_generatedTexts (generated : Generated) :
    String.join (generatedTexts generated) = generated.text := by
  cases generated <;> simp [generatedTexts, Generated.text, onupdateText, autoIncText]

def bodyStatements (rt : Runtime) (ws : WalkerState) (statements : List Statement) :
    List OutputStatement :=
  (statementStates rt ws statements).map fun (ws, statement) =>
    .body (leavesOf (statement.walked rt ws))

def appendedStatements (rt : Runtime) (ws : WalkerState) (statements : List Statement) :
    List OutputStatement :=
  ((emitted rt ws statements).flatMap generatedTexts).map .generated

/-- Of any two consecutive statements with text, the first ends in a semicolon. -/
def Separated (output : List OutputStatement) : Prop :=
  (output.filter OutputStatement.visible).IsChain fun first _ => first.Closed

/-! ## Appended statements -/

private theorem ends_append (first : String) {second : String}
    (ends : ∃ front, second = front ++ ";\n") : ∃ front, first ++ second = front ++ ";\n" := by
  obtain ⟨front, rfl⟩ := ends
  exact ⟨first ++ front, String.append_assoc.symm⟩

/-- Every appended statement ends in a semicolon. -/
theorem closed_generatedTexts (generated : Generated) :
    ∀ text ∈ generatedTexts generated, (OutputStatement.generated text).Closed := by
  intro text member
  cases generated with
  | onupdate schemaName tablename column clause =>
    simp only [generatedTexts, List.mem_cons, List.not_mem_nil, or_false] at member
    rcases member with rfl | rfl
    · exact ends_append _ ⟨"$$ language 'plpgsql'", rfl⟩
    · exact ends_append _ (ends_append _ ⟨"()", rfl⟩)
  | index schemaName tablename name indexType columns =>
    obtain rfl := List.mem_singleton.mp member
    exact ends_append _ (ends_append _ ⟨" ) ", rfl⟩)
  | autoInc schemaName tablename column start =>
    simp only [generatedTexts, List.mem_cons, List.not_mem_nil, or_false] at member
    rcases member with rfl | rfl
    · exact ends_append _ ⟨" ", rfl⟩
    · exact ends_append _ (ends_append _ ⟨"' ) ", rfl⟩)
  | fkey tablename tokens =>
    obtain rfl := List.mem_singleton.mp member
    exact ends_append _ ⟨"", rfl⟩

/-! ## Body statements -/

/-- The statement has its own semicolon in the input. -/
def terminated : Statement → Bool
  | .clauses parts | .select parts => lastIsSemi parts.trees == some true
  | .createTable table _ => lastIsSemi table.tail == some true
  | .createTableLike table _ => lastIsSemi table.tail == some true
  | .use _ _ semi _ => semi.isSome
  | .showTables show' _ => lastIsSemi (showTail show'.filter show'.semi) == some true
  | .showColumns show' _ => lastIsSemi (showTail show'.filter show'.semi) == some true
  | .lockTables tokens _ => tokens.getLast?.any fun token => token.type == .semi
  | .unlockTables semi => semi.isSome

/-- LOCK TABLES and UNLOCK TABLES leave no text in the output. -/
def erased : Statement → Bool
  | .lockTables .. | .unlockTables _ => true
  | _ => false

theorem getLast?_any_eq (trees : List Tree) :
    (leavesOf trees).getLast?.any (hasType .semi) = (lastIsSemi trees == some true) := by
  rw [lastIsSemi]
  cases (leavesOf trees).getLast? with
  | none => rfl
  | some leaf => cases own : hasType .semi leaf <;> simp [own]

private theorem lastIsSemi_map_walkedTree (rt : Runtime) (ws : WalkerState) {trees : List Tree}
    (walkable : ∀ x ∈ trees, Walkable x) :
    lastIsSemi (trees.map (walkedTree rt ws)) = lastIsSemi trees :=
  lastIsSemi_map fun x member => ((walkable x member).walks rt ws).2.last

/-- What a definition ends in is there behind the walk. -/
private theorem lastIsSemi_walkedTail (rt : Runtime) (ws : WalkerState)
    {as : Option (TokenIn [.kAs])}
    {select : Option { tree : Tree // tree.getType = .tSelectStatement }}
    {semi : Option (TokenIn [.semi])}
    (walkable : ∀ tree ∈ select, Walkable tree.1) :
    lastIsSemi ((as.map leafOf).toList ++ ((select.map (walkedSelect rt ws)).map Subtype.val).toList
        ++ (semi.map leafOf).toList) =
      lastIsSemi ((as.map leafOf).toList ++ (select.map Subtype.val).toList ++
        (semi.map leafOf).toList) := by
  rw [← map_walkedTree_tail rt ws]
  exact lastIsSemi_map_walkedTree rt ws (walkable_tail walkable)

private theorem lastIsSemi_rooted (type : TokenType) (text : String) {children : List Tree}
    (nonempty : children ≠ []) : lastIsSemi [rooted type text children] = lastIsSemi children :=
  lastIsSemi_node _ nonempty

private theorem lastIsSemi_clauses (rt : Runtime) (ws : WalkerState) (parts : Clauses) :
    lastIsSemi (.leaf parts.keyword.1 :: parts.rest.map (walkedTree rt ws)) =
      lastIsSemi parts.trees := by
  rw [lastIsSemi_cons, lastIsSemi_map_walkedTree rt ws parts.walkable, ← lastIsSemi_cons]
  rfl

/-- Behind a leaf that is no semicolon, a sequence ends in one just when its tail does. -/
private theorem lastIsSemi_behind {before tail : List Tree}
    (last : lastIsSemi before = some false) :
    (lastIsSemi (before ++ tail) == some true) = (lastIsSemi tail == some true) := by
  rw [lastIsSemi_append, last]
  cases lastIsSemi tail <;> rfl

private theorem lastIsSemi_leafOf {types : List TokenType} (token : TokenIn types)
    (visible : .eof ∉ types) (other : .semi ∉ types) : lastIsSemi [leafOf token] = some false := by
  have notEof : token.1.type ≠ .eof := fun same => visible (same ▸ token.2)
  have notSemi : token.1.type ≠ .semi := fun same => other (same ▸ token.2)
  rw [leafOf, lastIsSemi_leaf notEof]
  simp [notSemi]

private theorem lastIsSemi_concat {before : List Tree} {x : Tree}
    (last : lastIsSemi [x] = some false) : lastIsSemi (before ++ [x]) = some false := by
  rw [lastIsSemi_append, last]
  rfl

private theorem lastIsSemi_rewritten (table : CreateTable) :
    (lastIsSemi table.rewritten == some true) = (lastIsSemi table.tail == some true) := by
  have shape : table.rewritten = table.doubled.front CreateTable.rewrittenColumn ++
      CreateTable.constraintTrees (table.constraints.filter fun pair => pair.2.isKey) ++
      [leafOf table.rparen] ++ table.tail := by
    simp only [CreateTable.rewritten, CreateTable.layout, List.map_nil, List.nil_append,
      List.append_assoc, List.singleton_append]
    rfl
  rw [shape]
  have rparen := lastIsSemi_leafOf table.rparen (by decide) (by decide)
  exact lastIsSemi_behind (lastIsSemi_concat rparen)

private theorem lastIsSemi_rewrittenLike (table : CreateTableLike) :
    (lastIsSemi table.rewritten == some true) = (lastIsSemi table.tail == some true) := by
  refine lastIsSemi_behind ?_
  have body : ∃ before, ∃ x, table.body = before ++ [x] ∧ lastIsSemi [x] = some false := by
    cases parens : table.parens with
    | none =>
      exact ⟨[leafOf table.like], leafOf table.template, by simp [CreateTableLike.body, parens],
        lastIsSemi_leafOf table.template (by decide) (by decide)⟩
    | some pair =>
      exact ⟨[leafOf pair.1, leafOf table.like, leafOf table.template], leafOf pair.2,
        by simp [CreateTableLike.body, parens],
        lastIsSemi_leafOf pair.2 (by decide) (by decide)⟩
  obtain ⟨before, x, shape, last⟩ := body
  have same : table.doubled.body = before ++ [x] := shape
  rw [CreateTableLike.front, same, ← List.cons_append, ← List.append_assoc]
  exact lastIsSemi_concat last

/-- A node that a leaf other than a semicolon opens ends as its tail does. -/
private theorem lastIsSemi_opened (type : TokenType) (text : String) {types : List TokenType}
    (token : TokenIn types) (tail : List Tree) (visible : .eof ∉ types) (other : .semi ∉ types) :
    (lastIsSemi [rooted type text (leafOf token :: tail)] == some true) =
      (lastIsSemi tail == some true) := by
  rw [lastIsSemi_rooted _ _ (List.cons_ne_nil _ _)]
  exact @lastIsSemi_behind [leafOf token] tail (lastIsSemi_leafOf token visible other)

private theorem lastIsSemi_showTail (rt : Runtime) (ws : WalkerState) (filter : Option ShowFilter)
    (semi : Option (TokenIn [.semi])) (walkable : ∀ tree ∈ filter, Walkable tree.1) :
    lastIsSemi (showTail (filter.map (walkedFilter rt ws)) semi) =
      lastIsSemi (showTail filter semi) := by
  cases filter with
  | none => rfl
  | some filter =>
    rw [showTail, showTail, lastIsSemi_append, lastIsSemi_append]
    exact congrArg _ ((walkable filter rfl).walks rt ws).2.last

/-- A statement that may end in a semicolon of its own ends in one if it is there. -/
private theorem lastIsSemi_optionalSemi (semi : Option (TokenIn [.semi])) :
    (lastIsSemi (semi.map leafOf).toList == some true) = semi.isSome := by
  cases semi with
  | none => rfl
  | some semi =>
    have isSemi : semi.1.type = .semi := List.mem_singleton.mp semi.2
    have last : lastIsSemi [leafOf semi] = some (semi.1.type == .semi) :=
      lastIsSemi_leaf (by rw [isSemi]; decide)
    rw [Option.map_some, Option.toList_some, last, isSemi]
    rfl

/-- What a statement prints ends in a semicolon just when the statement does. -/
theorem lastIsSemi_walked (rt : Runtime) (ws : WalkerState) (statement : Statement)
    (kept : erased statement = false) :
    (lastIsSemi (statement.walked rt ws) == some true) = terminated statement := by
  cases statement with
  | clauses parts => rw [Statement.walked, lastIsSemi_clauses]; rfl
  | select parts =>
    rw [Statement.walked, lastIsSemi_rooted _ _ (List.cons_ne_nil _ _), lastIsSemi_clauses]
    rfl
  | createTable table built =>
    have ends : lastIsSemi (table.walked rt ws).tail = lastIsSemi table.tail :=
      lastIsSemi_walkedTail rt ws built.select
    rw [Statement.walked,
      lastIsSemi_rooted _ _ (by simp [CreateTable.rewritten, CreateTable.layout]),
      lastIsSemi_rewritten, ends]
    rfl
  | createTableLike table built =>
    have ends : lastIsSemi (table.walked rt ws).tail = lastIsSemi table.tail :=
      lastIsSemi_walkedTail rt ws built.select
    rw [Statement.walked, lastIsSemi_rooted _ _
        (by simp [CreateTableLike.rewritten, CreateTableLike.front]),
      lastIsSemi_rewrittenLike, ends]
    rfl
  | use keyword schema semi spelled =>
    let setPath : TokenIn [.kUse] := ⟨{ keyword.1 with text := "SET search_path TO" }, keyword.2⟩
    let path : TokenIn [.id] := ⟨{ schema.1 with text := schema.1.text ++ ",public" }, schema.2⟩
    have transform : lastIsSemi [rooted .tTransform "" []] = some false :=
      lastIsSemi_leaf (by decide)
    have opened := lastIsSemi_opened .tUseDatabase "T_USE_DATABASE" setPath
      (leafOf path :: (semi.map leafOf).toList) (by decide) (by decide)
    have behind : (lastIsSemi ([leafOf path] ++ (semi.map leafOf).toList) == some true) =
        (lastIsSemi (semi.map leafOf).toList == some true) :=
      lastIsSemi_behind (lastIsSemi_leafOf path (by decide) (by decide))
    exact (@lastIsSemi_behind [rooted .tTransform "" []] _ transform).trans
      (opened.trans (behind.trans (lastIsSemi_optionalSemi semi)))
  | showTables show' walkable =>
    rw [terminated, ← lastIsSemi_showTail rt ws show'.filter show'.semi walkable, Statement.walked]
    exact lastIsSemi_opened .tShowTables "T_SHOW_TABLES"
      ⟨{ show'.show'.1 with text := (show'.walked rt ws).query rt }, show'.show'.2⟩
      (showTail (show'.walked rt ws).filter show'.semi) (by decide) (by decide)
  | showColumns show' walkable =>
    rw [terminated, ← lastIsSemi_showTail rt ws show'.filter show'.semi walkable, Statement.walked]
    exact lastIsSemi_opened .tShowColumns "T_SHOW_COLUMNS"
      ⟨{ show'.show'.1 with text := (show'.walked rt ws).query rt }, show'.show'.2⟩
      (showTail (show'.walked rt ws).filter show'.semi) (by decide) (by decide)
  | lockTables tokens inert => cases kept
  | unlockTables semi => cases kept

private theorem leaf_mem_leavesOf {token : Token} {trees : List Tree}
    (member : .leaf token ∈ trees) (visible : token.type ≠ .eof) :
    .leaf token ∈ leavesOf trees := by
  obtain ⟨before, behind, rfl⟩ := List.append_of_mem member
  rw [leavesOf_append]
  exact List.mem_append_right _ (by simp [leavesOf, visible])

/-- A leaf with text makes the statement visible. -/
private theorem visible_of_leaf {token : Token} {trees : List Tree} (member : .leaf token ∈ trees)
    (visible : token.type ≠ .eof) (spelled : token.text ≠ "") :
    (OutputStatement.body (leavesOf trees)).visible = true :=
  List.any_eq_true.mpr ⟨.leaf token, leaf_mem_leavesOf member visible, by simpa using spelled⟩

private theorem visible_of_below (type : TokenType) (text : String) {token : Token}
    {children : List Tree} (member : .leaf token ∈ children) (visible : token.type ≠ .eof)
    (spelled : token.text ≠ "") :
    (OutputStatement.body (leavesOf [rooted type text children])).visible = true := by
  rw [rooted, leavesOf_node _ (List.ne_nil_of_mem member)]
  exact visible_of_leaf member visible spelled

private theorem append_ne_empty (first : String) {second : String} (spelled : second ≠ "") :
    first ++ second ≠ "" := by
  simp [spelled]

private theorem not_eof {types : List TokenType} (token : TokenIn types) (other : .eof ∉ types) :
    token.1.type ≠ .eof :=
  fun same => other (same ▸ token.2)

/-- A statement that is not erased prints some text. -/
theorem visible_walked (rt : Runtime) (ws : WalkerState) (statement : Statement) :
    (OutputStatement.body (leavesOf (statement.walked rt ws))).visible = !erased statement := by
  cases statement with
  | clauses parts =>
    exact visible_of_leaf List.mem_cons_self parts.keyword.2.2.1 parts.keyword.2.2.2
  | select parts =>
    exact visible_of_below _ _ List.mem_cons_self parts.keyword.2.2.1 parts.keyword.2.2.2
  | createTable table built =>
    have member : leafOf table.name ∈ (table.walked rt ws).rewritten := by
      simp [CreateTable.rewritten, CreateTable.layout, CreateTable.front, CreateTable.doubled,
        CreateTable.walked]
    exact visible_of_below _ _ member (not_eof table.name (by decide)) built.spelled
  | createTableLike table built =>
    have member : leafOf table.name ∈ (table.walked rt ws).rewritten := by
      simp [CreateTableLike.rewritten, CreateTableLike.front, CreateTableLike.doubled,
        CreateTableLike.walked]
    exact visible_of_below _ _ member (not_eof table.name (by decide)) built.spelled
  | use keyword schema semi spelled =>
    have below : (OutputStatement.body (leavesOf [searchPathTree keyword schema semi])).visible =
        true :=
      @visible_of_below _ _ { keyword.1 with text := "SET search_path TO" } _
        List.mem_cons_self (not_eof keyword (by decide))
        (show "SET search_path TO" ≠ "" by decide)
    have both : leavesOf [rooted .tTransform "" [], searchPathTree keyword schema semi] =
        leavesOf [rooted .tTransform "" []] ++ leavesOf [searchPathTree keyword schema semi] :=
      leavesOf_cons _ _
    rw [Statement.walked, both, OutputStatement.visible, List.any_append]
    exact Bool.or_eq_true_iff.mpr (.inr below)
  | showTables show' walkable =>
    have spelled : (show'.walked rt ws).query rt ≠ "" :=
      append_ne_empty _ (append_ne_empty _ (by decide))
    exact visible_of_below _ _ List.mem_cons_self (not_eof show'.show' (by decide)) spelled
  | showColumns show' walkable =>
    have spelled : (show'.walked rt ws).query rt ≠ "" :=
      append_ne_empty _ (append_ne_empty _ (by decide))
    exact visible_of_below _ _ List.mem_cons_self (not_eof show'.show' (by decide)) spelled
  | lockTables tokens inert => rfl
  | unlockTables semi => rfl

/-! ## The output -/

/-- Closed statements in front do not matter. -/
private theorem isChain_closed_append {first second : List OutputStatement}
    (closed : ∀ x ∈ first, x.Closed) :
    (first ++ second).IsChain (fun first _ => first.Closed) ↔
      second.IsChain fun first _ => first.Closed := by
  induction first with
  | nil => rfl
  | cons x rest ih =>
    have tail := ih fun y member => closed y (List.mem_cons_of_mem _ member)
    rw [List.cons_append, List.isChain_cons, tail]
    exact and_iff_right fun _ _ => closed x List.mem_cons_self

/-- Whether a statement has something split out of it. -/
def generates : Statement → Bool
  | .createTable table _ => table.hasPrefixed || table.hasFkey
  | _ => false

theorem emitted_eq_nil_iff (rt : Runtime) (ws : WalkerState) (statements : List Statement) :
    emitted rt ws statements = [] ↔ ∀ statement ∈ statements, generates statement = false := by
  induction statements generalizing ws with
  | nil => simp [emitted, statementStates]
  | cons statement rest ih =>
    have own : statement.generated rt ws = [] ↔ generates statement = false := by
      cases statement with
      | createTable table built =>
        rw [Statement.generated, TableNames.generated_eq_nil_iff, TableNames.hasPrefixed_walked,
          generates, Bool.or_eq_false_iff]
        rfl
      | _ => simp [Statement.generated, generates]
    rw [emitted_cons, List.append_eq_nil_iff, own, ih, List.forall_mem_cons]

private theorem appendedStatements_closed (rt : Runtime) (ws : WalkerState)
    (statements : List Statement) : ∀ x ∈ appendedStatements rt ws statements, x.Closed := by
  simp only [appendedStatements, List.mem_map, List.mem_flatMap]
  rintro x ⟨text, ⟨generated, -, member⟩, rfl⟩
  exact closed_generatedTexts generated text member

private theorem appendedStatements_visible (rt : Runtime) (ws : WalkerState)
    (statements : List Statement) :
    (appendedStatements rt ws statements).filter OutputStatement.visible =
      appendedStatements rt ws statements := by
  refine List.filter_eq_self.mpr fun x member => ?_
  obtain ⟨text, -, rfl⟩ := List.mem_map.mp member
  obtain ⟨front, rfl⟩ := appendedStatements_closed rt ws statements _ member
  simp [OutputStatement.visible]

private theorem appendedStatements_eq_nil_iff (rt : Runtime) (ws : WalkerState)
    (statements : List Statement) :
    appendedStatements rt ws statements = [] ↔
      ∀ statement ∈ statements, generates statement = false := by
  have some (generated : Generated) : generatedTexts generated ≠ [] := by
    cases generated <;> simp [generatedTexts]
  rw [appendedStatements, List.map_eq_nil_iff, List.flatMap_eq_nil_iff,
    ← emitted_eq_nil_iff rt ws statements, List.eq_nil_iff_forall_not_mem]
  simp only [some, imp_false]

private theorem closed_body_iff (rt : Runtime) (ws : WalkerState) {statement : Statement}
    (kept : erased statement = false) :
    (OutputStatement.body (leavesOf (statement.walked rt ws))).Closed ↔
      terminated statement = true := by
  rw [OutputStatement.Closed, getLast?_any_eq, lastIsSemi_walked rt ws statement kept]

private theorem mem_of_mem_statementStates {rt : Runtime} {ws : WalkerState}
    {statements : List Statement} {pair : WalkerState × Statement}
    (member : pair ∈ statementStates rt ws statements) : pair.2 ∈ statements := by
  induction statements generalizing ws with
  | nil => cases member
  | cons statement rest ih =>
    rcases List.mem_cons.mp member with rfl | later
    · exact List.mem_cons_self
    · exact List.mem_cons_of_mem _ (ih later)

/-- What terminated statements print is closed, as far as it has text. -/
private theorem bodyStatements_closed (rt : Runtime) (ws : WalkerState)
    {statements : List Statement}
    (separate : ∀ statement ∈ statements, terminated statement = true) :
    ∀ x ∈ (bodyStatements rt ws statements).filter OutputStatement.visible, x.Closed := by
  intro x member
  obtain ⟨printed, visible⟩ := List.mem_filter.mp member
  obtain ⟨⟨ws', statement⟩, own, rfl⟩ := List.mem_map.mp printed
  have kept : erased statement = false := by simpa [visible_walked] using visible
  exact (closed_body_iff rt ws' kept).mpr (separate statement (mem_of_mem_statementStates own))

/-- The statements in front of the last one do not matter. -/
private theorem separated_output (rt : Runtime) (ws : WalkerState) (first : List Statement)
    (last : Statement) (separate : ∀ statement ∈ first, terminated statement = true) :
    Separated (bodyStatements rt ws (first ++ [last]) ++
        appendedStatements rt ws (first ++ [last])) ↔
      terminated last = true ∨ erased last = true ∨
        ∀ statement ∈ first ++ [last], generates statement = false := by
  set appended := appendedStatements rt ws (first ++ [last]) with appendedDef
  set printed := OutputStatement.body (leavesOf (last.walked rt (runStatements rt ws first)))
  have body : bodyStatements rt ws (first ++ [last]) = bodyStatements rt ws first ++ [printed] := by
    rw [bodyStatements, statementStates_append, List.map_append]
    rfl
  have chain : appended.IsChain fun first _ => first.Closed := by
    have all := @isChain_closed_append appended []
      (appendedStatements_closed rt ws (first ++ [last]))
    rw [List.append_nil] at all
    exact all.mpr List.isChain_nil
  rw [Separated, List.filter_append, body, List.filter_append, List.append_assoc,
    isChain_closed_append (bodyStatements_closed rt ws separate), appendedStatements_visible,
    ← appendedStatements_eq_nil_iff rt ws, ← appendedDef]
  cases kept : erased last with
  | true =>
    have blank : printed.visible = false := by
      rw [visible_walked, kept]
      rfl
    simpa [blank] using chain
  | false =>
    have visible : printed.visible = true := by
      rw [visible_walked, kept]
      rfl
    rw [List.filter_cons_of_pos visible, List.filter_nil, List.singleton_append, List.isChain_cons,
      closed_body_iff rt _ kept, and_iff_left chain]
    cases appended with
    | nil => simp
    | cons next rest => simp

/-- The leaves that a statement of the output contains. -/
def OutputStatement.leaves : OutputStatement → List Tree
  | body leaves => leaves
  | generated _ => []

/-- What `print_postbuf` prints: a newline and the appended statements, if there are any. -/
def postbufText (texts : List String) : String :=
  if texts = [] then "" else "\n" ++ String.join texts

theorem leavesOf_walkedForest (rt : Runtime) (ws : WalkerState) (statements : List Statement) :
    leavesOf (walkedForest rt ws statements) =
      (bodyStatements rt ws statements).flatMap OutputStatement.leaves := by
  induction statements generalizing ws with
  | nil => rfl
  | cons statement rest ih =>
    have tail := ih (statement.effect rt ws)
    simp only [walkedForest, bodyStatements] at tail
    simp only [walkedForest, bodyStatements, statementStates, List.flatMap_cons, List.map_cons,
      leavesOf_append, tail, OutputStatement.leaves]

private theorem join_texts (generated : List Generated) :
    String.join (generated.flatMap generatedTexts) =
      String.join (generated.map Generated.text) := by
  induction generated with
  | nil => rfl
  | cons first rest ih =>
    rw [List.flatMap_cons, List.map_cons, String.join_append, ih, join_generatedTexts,
      String.join_cons]

/-- The postbuf is printed as its statements, behind a newline if there are any. -/
private theorem printPostbuf_runStatements (rt : Runtime) (ws : WalkerState)
    (drained : ws.postbuf = "") (statements : List Statement) (output : String) :
    (printPostbuf output (runStatements rt ws statements)).1 =
      output ++ postbufText ((emitted rt ws statements).flatMap generatedTexts) := by
  have postbuf := postbuf_runStatements rt ws statements
  rw [drained, String.empty_append, ← join_texts] at postbuf
  rw [printPostbuf, postbuf, postbufText]
  cases texts : (emitted rt ws statements).flatMap generatedTexts with
  | nil => simp
  | cons text rest =>
    obtain ⟨generated, -, member⟩ :=
      List.mem_flatMap.mp (show text ∈ (emitted rt ws statements).flatMap generatedTexts by
        rw [texts]; exact List.mem_cons_self)
    obtain ⟨front, rfl⟩ := closed_generatedTexts generated text member
    have positive : 0 < (String.join ((front ++ ";\n") :: rest)).length := by
      rw [String.join_cons, String.length_append, String.length_append]
      have two : ";\n".length = 2 := rfl
      omega
    rw [if_pos positive, if_neg (List.cons_ne_nil _ _), String.append_assoc]

section Tickets

private def tickets (semi : Option (TokenIn [.semi])) : CreateTable where
  header := [⟨⟨.kCreate, "CREATE", .default, 1, 0⟩, by decide⟩,
    ⟨⟨.kTable, "TABLE", .default, 1, 7⟩, by decide⟩]
  qualifier := none
  name := ⟨⟨.id, "t", .default, 1, 13⟩, by decide⟩
  lparen := ⟨⟨.lparen, "(", .default, 1, 15⟩, by decide⟩
  first := {
    name := ⟨⟨.id, "id", .default, 1, 16⟩, by decide⟩
    parts := [.leaf ⟨.other 0, "int", .default, 1, 19⟩,
      .leaf ⟨.kAutoIncrement, "AUTO_INCREMENT", .default, 1, 23⟩]
    enums := by simp [hasType] }
  columns := []
  constraints := []
  rparen := ⟨⟨.rparen, ")", .default, 1, 37⟩, by decide⟩
  options := []
  as := none
  select := none
  semi := semi

private theorem tickets_built (semi : Option (TokenIn [.semi])) : (tickets semi).Built where
  spelled := by simp [tickets]
  schema := by simp [tickets]
  parts := by
    intro columnDef member x part
    obtain rfl := List.mem_singleton.mp member
    simp only [tickets, List.mem_cons, List.not_mem_nil, or_false] at part
    rcases part with rfl | rfl
    · exact walkable_leaf rfl
    · exact walkable_leaf rfl
  tokens := by simp [tickets]
  options := by simp [tickets]
  select := by simp [tickets]

private def ticketsSemi : TokenIn [.semi] := ⟨⟨.semi, ";", .default, 1, 38⟩, by decide⟩

private def ticketsTwice : List Statement :=
  [.createTable (tickets (some ticketsSemi)) (tickets_built _),
    .createTable (tickets (some ticketsSemi)) (tickets_built _)]

end Tickets

end Pgify.Separators
