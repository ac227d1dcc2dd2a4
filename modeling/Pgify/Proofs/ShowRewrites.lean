import Pgify.Model.ShowClauses
import Pgify.Proofs.CreateTableLayout

/-! # The rewrites of SHOW TABLES and SHOW COLUMNS

Both rewrites search the children by type and delete what they have read, so every search depends on
the deletions before it. On the children that the grammar builds they leave the query in place of
K_SHOW, the filter and the semicolon.
-/

namespace Pgify.Model

open SearchLoop

/-- No tree of the type stands among the siblings. -/
private def Clear (k : TokenType) (l : List Tree) : Prop :=
  ∀ x ∈ l, hasType k x = false

private theorem Clear.append {k : TokenType} {first second : List Tree} (front : Clear k first)
    (behind : Clear k second) : Clear k (first ++ second) := fun x member =>
  (List.mem_append.mp member).elim (front x) (behind x)

private theorem clear_leafOf {types : List TokenType} {k : TokenType} (token : TokenIn types)
    (other : k ∉ types) : Clear k [leafOf token] := fun x member => by
  rw [List.mem_singleton.mp member]
  exact hasType_leafOf token other

private theorem clear_optional {types : List TokenType} {k : TokenType}
    (token : Option (TokenIn types)) (other : k ∉ types) :
    Clear k (token.map leafOf).toList := by
  intro x member
  obtain ⟨token, -, rfl⟩ := Option.map_eq_some_iff.mp (Option.mem_toList.mp member)
  exact hasType_leafOf token other

private theorem Clear.any {k : TokenType} {l : List Tree} (clear : Clear k l) :
    l.any (hasType k) = false :=
  List.any_eq_false.mpr fun x member => by simp [clear x member]

private theorem clear_showTail {k : TokenType} (filter : Option ShowFilter)
    (semi : Option (TokenIn [.semi])) (other : k ∉ [TokenType.tShowLike, .tWhere, .semi]) :
    Clear k (showTail filter semi) := by
  refine Clear.append (fun x member => ?_) (clear_optional semi (by simp_all))
  obtain ⟨tree, -, rfl⟩ := Option.map_eq_some_iff.mp (Option.mem_toList.mp member)
  have type : tree.1.getType ∈ [TokenType.tShowLike, .tWhere, .semi] := by
    rcases tree.2 with type | type <;> simp [type]
  exact hasType_of_mem other type

/-- A filter LIKE is found by its node. -/
private theorem any_tShowLike {before : List Tree} (front : Clear .tShowLike before)
    (filter : Option ShowFilter) (semi : Option (TokenIn [.semi])) :
    (lookAheadIndex (before ++ showTail filter semi) 0 .tShowLike).isSome =
      filter.any fun filter => hasType .tShowLike filter.1 := by
  have noSemi : Clear .tShowLike (semi.map leafOf).toList := clear_optional semi (by decide)
  rw [lookAheadIndex_isSome, List.any_append, front.any, showTail, List.any_append, noSemi.any]
  cases filter <;> simp

private theorem any_kFull {before rest : List Tree} (front : Clear .kFull before)
    (full : Option (TokenIn [.kFull])) (behind : Clear .kFull rest) :
    (lookAheadIndex (before ++ ((full.map leafOf).toList ++ rest)) 0 .kFull).isSome =
      full.isSome := by
  rw [lookAheadIndex_isSome, List.any_append, List.any_append, front.any, behind.any]
  cases full with
  | none => rfl
  | some token =>
    have hit : hasType .kFull (leafOf token) = true := by simpa [hasType] using token.2
    simp [hit]

/-- Deleting the first node of a type takes an optional one out of its place. -/
private theorem deleteFirst_optional {k : TokenType} {before rest : List Tree}
    (front : Clear k before) (token : Option (TokenIn [k])) (behind : Clear k rest) :
    deleteFirst k (before ++ ((token.map leafOf).toList ++ rest)) = before ++ rest := by
  cases token with
  | none =>
    rw [Option.map_none, Option.toList_none, List.nil_append, deleteFirst, lookAheadIndex,
      findFrom_none 0 (front.append behind)]
  | some token =>
    have hit : hasType k (leafOf token) = true := by simpa [hasType] using token.2
    have found : lookAheadIndex (before ++ leafOf token :: rest) 0 k = some before.length :=
      findFrom_append (Nat.zero_le _) (by simpa [Clear] using front) hit
    rw [Option.map_some, Option.toList_some, List.singleton_append, deleteFirst, found]
    exact eraseIdx_here before rest (leafOf token)

private theorem clear_showFrom {k : TokenType} (name : Option SqlIdentifier)
    (other : k ≠ .tShowFrom) : Clear k (name.map showFromTree).toList := by
  intro x member
  obtain ⟨name, -, rfl⟩ := Option.map_eq_some_iff.mp (Option.mem_toList.mp member)
  simpa [hasType, showFromTree] using other.symm

/-- Taking the first name out of its place; more names may follow. -/
private theorem takeShowFrom_here {rt : Runtime} {before : List Tree}
    (front : Clear .tShowFrom before) (name : SqlIdentifier) (rest : List Tree) :
    takeShowFrom rt (before ++ showFromTree name :: rest) =
      some (some (shownName rt name), before ++ rest) := by
  have found : lookAheadIndex (before ++ showFromTree name :: rest) 0 .tShowFrom =
      some before.length := findFrom_append (Nat.zero_le _) (by simpa [Clear] using front) rfl
  simp only [takeShowFrom, found, getElem?_here, eraseIdx_here, Option.bind_eq_bind,
    Option.bind_some]
  rfl

private theorem takeShowFrom_optional {rt : Runtime} {before rest : List Tree}
    (front : Clear .tShowFrom before) (name : Option SqlIdentifier)
    (behind : Clear .tShowFrom rest) :
    takeShowFrom rt (before ++ ((name.map showFromTree).toList ++ rest)) =
      some (name.map (shownName rt), before ++ rest) := by
  cases name with
  | none =>
    simp only [Option.map_none, Option.toList_none, List.nil_append, takeShowFrom, lookAheadIndex,
      findFrom_none 0 (front.append behind)]
  | some name => exact takeShowFrom_here front name rest

private theorem retextFirst_head {k : TokenType} {x : Tree} (hit : hasType k x = true)
    (text : String) (rest : List Tree) :
    retextFirst k text (x :: rest) = some (x.setText text :: rest) := by
  have found : lookAheadIndex (x :: rest) 0 k = some 0 :=
    findFrom_append (l := []) (Nat.le_refl _) (by simp) hit
  simp only [retextFirst, found, Option.bind_eq_bind, Option.bind_some, List.getElem?_cons_zero,
    List.set_cons_zero]

/-- SHOW TABLES compares `table_schema` with the name between double quotes. -/
theorem showTablesRewrite_children (rt : Runtime) (clauses : ShowTablesClauses)
    (schema : Option SqlIdentifier) :
    showTablesRewrite rt (clauses.children schema) =
      some (clauses.rewritten (schema.elim "current_schema()" fun name =>
        s!"\"{shownName rt name}\"")) := by
  obtain ⟨keyword, full, tables, filter, semi⟩ := clauses
  have isShow : hasType .kShow (leafOf keyword) = true := by simpa [hasType] using keyword.2
  have tail {k : TokenType} (other : k ∉ [TokenType.tShowLike, .tWhere, .semi]) :=
    clear_showTail filter semi other
  have names {k : TokenType} (noShow : k ∉ [TokenType.kShow]) (noFull : k ∉ [TokenType.kFull])
      (noTables : k ∉ [TokenType.kTables]) :
      Clear k ([leafOf keyword] ++ ((full.map leafOf).toList ++ [leafOf tables])) :=
    (clear_leafOf keyword noShow).append
      ((clear_optional full noFull).append (clear_leafOf tables noTables))
  have shape : ShowTablesClauses.children ⟨keyword, full, tables, filter, semi⟩ schema =
      [leafOf keyword] ++ ((full.map leafOf).toList ++ [leafOf tables]) ++
        ((schema.map showFromTree).toList ++ showTail filter semi) := by
    simp [ShowTablesClauses.children]
  have taken : [leafOf keyword] ++ ((full.map leafOf).toList ++ [leafOf tables]) ++
      showTail filter semi = [leafOf keyword] ++
        ((full.map leafOf).toList ++ ([leafOf tables] ++ showTail filter semi)) := by
    simp
  have behind : Clear .kFull ([leafOf tables] ++ showTail filter semi) :=
    (clear_leafOf tables (by decide)).append (tail (by decide))
  have like := any_tShowLike (names (by decide) (by decide) (by decide)) filter semi
  rw [taken] at like
  have noTables (text : String) : deleteFirst .kTables ((leafOf keyword).setText text ::
      leafOf tables :: showTail filter semi) = (leafOf keyword).setText text ::
        showTail filter semi := by
    have noKeyword : hasType .kTables ((leafOf keyword).setText text) = false :=
      hasType_leafOf keyword (by decide)
    have front : Clear .kTables [(leafOf keyword).setText text] := by simpa [Clear] using noKeyword
    exact deleteFirst_optional front (some tables) (tail (by decide))
  simp only [shape, showTablesRewrite, takeShowFrom_optional (names (by decide) (by decide)
    (by decide)) schema (tail (by decide)), Option.bind_eq_bind, Option.bind_some, taken, like,
    any_kFull (clear_leafOf keyword (by decide)) full behind,
    deleteFirst_optional (clear_leafOf keyword (by decide)) full behind]
  simp only [List.singleton_append, retextFirst_head isShow, Option.bind_some, noTables]
  cases schema <;> rfl

/-- SHOW COLUMNS compares both names between single quotes. -/
theorem showColumnsRewrite_children (rt : Runtime) (clauses : ShowColumnsClauses)
    (schema : Option SqlIdentifier) :
    showColumnsRewrite rt (clauses.children schema) =
      some (clauses.rewritten (shownName rt clauses.table)
        (schema.elim "current_schema()" fun name => s!"'{shownName rt name}'")) := by
  obtain ⟨keyword, full, table, filter, semi⟩ := clauses
  have isShow : hasType .kShow (leafOf keyword) = true := by simpa [hasType] using keyword.2
  have tail {k : TokenType} (other : k ∉ [TokenType.tShowLike, .tWhere, .semi]) :=
    clear_showTail filter semi other
  have shape : ShowColumnsClauses.children ⟨keyword, full, table, filter, semi⟩ schema =
      [leafOf keyword] ++ ((full.map leafOf).toList ++
        (((some table).map showFromTree).toList ++
          ((schema.map showFromTree).toList ++ showTail filter semi))) := by
    simp [ShowColumnsClauses.children]
  have behind : Clear .kFull (((some table).map showFromTree).toList ++
      ((schema.map showFromTree).toList ++ showTail filter semi)) :=
    (clear_showFrom (some table) (by decide)).append
      ((clear_showFrom schema (by decide)).append (tail (by decide)))
  have front {k : TokenType} (other : k ∉ [TokenType.kShow]) := clear_leafOf keyword other
  have takeTable : takeShowFrom rt ([leafOf keyword] ++
      (((some table).map showFromTree).toList ++
        ((schema.map showFromTree).toList ++ showTail filter semi))) =
      some (some (shownName rt table), [leafOf keyword] ++
        ((schema.map showFromTree).toList ++ showTail filter semi)) :=
    takeShowFrom_here (front (by decide)) table _
  have like := any_tShowLike (front (k := .tShowLike) (by decide)) filter semi
  simp only [shape, showColumnsRewrite, any_kFull (front (by decide)) full behind,
    deleteFirst_optional (front (by decide)) full behind, takeTable,
    takeShowFrom_optional (front (by decide)) schema (tail (by decide)), Option.bind_eq_bind,
    Option.bind_some, like]
  simp only [List.singleton_append, retextFirst_head isShow, Option.getD_some]
  cases schema <;> rfl

end Pgify.Model
