import Pgify.Model.FunctionCalls

/-! # The IF function

`rewrite_if_function` fills its template with the texts of the three argument nodes and sets it as
the text of the first one. An argument is a T_CALL_PARAMETER node with the expression below it, and
the printer prints leaves only: the template is not printed, the first argument is, and the other
two are deleted.
-/

namespace Pgify.Model

/-- The text that the printer appends for a node, the hidden tokens from the given index on
included. -/
def printedText (tokens : List Token) (index : ℕ) (x : Tree) : String :=
  (treeWalkPrinter tokens x ⟨"", [], index⟩).text

namespace FunctionIf

theorem walkChild_parameter (rt : Runtime) (ws : WalkerState) (parameter : CallParameter) :
    walkChild rt ws parameter.tree = some (ws, walkedTree rt ws parameter.tree) ∧
      walkedTree rt ws parameter.tree =
        rooted (.other 22) "T_CALL_PARAMETER" (parameter.1.map (walkedTree rt ws)) := by
  have walks := (@Walkable.inert (some (.imaginary (.other 22) "T_CALL_PARAMETER")) _ rfl
    parameter.2.2).walks rt ws
  have below := walkChildren_of_walked fun x member => ((parameter.2.2 x member).walks rt ws).1
  have node : walkChild rt ws parameter.tree =
      some (ws, rooted (.other 22) "T_CALL_PARAMETER" (parameter.1.map (walkedTree rt ws))) := by
    rw [CallParameter.tree, rooted, walkChild_inert rt ws rfl, below]
    rfl
  refine ⟨walks.1, ?_⟩
  rw [walkedTree, node]
  rfl

/-- The first argument node is all that stays below the IF node; it has the template for text. -/
theorem walkChild_functionIf (rt : Runtime) (ws : WalkerState) (call : FunctionIf) :
    ∃ text, walkChild rt ws call.tree =
      some (ws, rooted .tFunctionIf "T_FUNCTION_IF"
        [(walkedTree rt ws call.first.tree).setText text]) := by
  obtain ⟨walk1, shape⟩ := walkChild_parameter rt ws call.first
  have walk2 := (walkChild_parameter rt ws call.second).1
  have walk3 := (walkChild_parameter rt ws call.third).1
  refine ⟨ifText (walkedTree rt ws call.first.tree).getText
    (walkedTree rt ws call.second.tree).getText (walkedTree rt ws call.third.tree).getText, ?_⟩
  have token : (walkedTree rt ws call.first.tree).token.isSome := by rw [shape]; rfl
  obtain ⟨own, present⟩ := Option.isSome_iff_exists.mp token
  rw [tree, rooted, walkChild_node]
  simp only [walkChildren_cons, walk1, walk2, walk3, walkChildren_nil, Option.bind_some,
    Option.map_some, dispatch, Tree.getType_node, Token.imaginary, Tree.children_node]
  simp [rewriteIfFunction, present, rooted, Tree.withChildren, Token.imaginary]

/-- Printing an IF prints its first argument. -/
theorem printedText_functionIf (tokens : List Token) (index : ℕ) {argument : Tree} (text : String)
    (nonempty : argument.children ≠ []) :
    printedText tokens index (rooted .tFunctionIf "T_FUNCTION_IF" [argument.setText text]) =
      printedText tokens index argument := by
  have positive := List.length_pos_iff.mpr nonempty
  have below : leavesBelow (rooted .tFunctionIf "T_FUNCTION_IF" [argument.setText text]) =
      leavesBelow argument := by
    cases argument with
    | node token children =>
      have own : 0 < (Tree.node (token.map fun token => { token with text := text })
        children).children.length := positive
      simp only [rooted, leavesBelow, leavesOf, Tree.setText, Tree.token_node, Tree.children_node,
        List.append_nil]
      exact if_pos own
  rw [printedText, printedText, treeWalkPrinter_eq_foldl, treeWalkPrinter_eq_foldl, below]

theorem length_lt_ifText (s1 s2 s3 : String) : s1.length < (ifText s1 s2 s3).length := by
  have front : ∃ rest, ifText s1 s2 s3 = "case when ( " ++ (s1 ++ rest) := by
    delta ifText
    simp only [String.append_assoc]
    exact ⟨_, rfl⟩
  obtain ⟨rest, shape⟩ := front
  have opening : 0 < "case when ( ".length := by decide
  rw [shape, String.length_append, String.length_append]
  omega

/-- For no IF is the printed text the template filled with the texts of its arguments: the walk
succeeds, the first argument alone is printed, and the template is longer than what fills it. -/
theorem printedText_ne_ifText (rt : Runtime) (ws : WalkerState) (call : FunctionIf) :
    ∃ walked, walkChild rt ws call.tree = some (ws, walked) ∧
      ∀ tokens index index2 index3,
        printedText tokens index walked ≠
          ifText (printedText tokens index (walkedTree rt ws call.first.tree))
            (printedText tokens index2 (walkedTree rt ws call.second.tree))
            (printedText tokens index3 (walkedTree rt ws call.third.tree)) := by
  obtain ⟨text, walk⟩ := walkChild_functionIf rt ws call
  refine ⟨_, walk, fun tokens index index2 index3 same => ?_⟩
  have nonempty : (walkedTree rt ws call.first.tree).children ≠ [] := by
    rw [(walkChild_parameter rt ws call.first).2]
    simpa using call.first.2.1
  rw [printedText_functionIf tokens index text nonempty] at same
  exact Nat.ne_of_lt (length_lt_ifText _ _ _) (congrArg String.length same)

/-- `IF(a, b, c)` is printed as `a`. -/
theorem not_printedText_abc :
    (walkChild ⟨id, 0⟩ (walkerstateNew 0) (rooted .tFunctionIf "T_FUNCTION_IF"
        (["a", "b", "c"].map fun text => rooted (.other 22) "T_CALL_PARAMETER"
          [.leaf ⟨.id, text, .default, 1, 0⟩]))).map
        (fun walked => printedText [] 0 walked.2) = some "a" ∧
      ifText "a" "b" "c" ≠ "a" := by
  refine ⟨rfl, fun same => ?_⟩
  exact Nat.ne_of_gt (length_lt_ifText _ _ _) (congrArg String.length same)

end FunctionIf

end Pgify.Model
