import Pgify.Lib.CursorMerge
import Pgify.Model.TreeWalk

/-! # The printer

`advance` brings the hidden tokens up to a leaf and then the leaf itself; `advanceAll` brings the
hidden tokens that are left. Beside the text that the source appends to, `Output` keeps the pieces
in the order of the appends: a hidden token of the vector or a leaf of the tree.
-/

namespace Pgify.Model

/-- One append to the output. -/
def pieceText : Token ⊕ Tree → String :=
  Sum.elim Token.text Tree.getText

/-- The output string, its pieces, and the index into the token vector that the walk shares. -/
structure Output where
  text : String
  pieces : List (Token ⊕ Tree)
  tokenIndex : ℕ

namespace Output

def empty : Output := ⟨"", [], 0⟩

def put (out : Output) (piece : Token ⊕ Tree) : Output :=
  { out with text := out.text ++ pieceText piece, pieces := out.pieces ++ [piece] }

def next (out : Output) : Output :=
  { out with tokenIndex := out.tokenIndex + 1 }

@[simp] theorem pieces_put (out : Output) (piece : Token ⊕ Tree) :
    (out.put piece).pieces = out.pieces ++ [piece] := rfl

@[simp] theorem tokenIndex_put (out : Output) (piece : Token ⊕ Tree) :
    (out.put piece).tokenIndex = out.tokenIndex := rfl

@[simp] theorem pieces_next (out : Output) : out.next.pieces = out.pieces := rfl

@[simp] theorem tokenIndex_next (out : Output) : out.next.tokenIndex = out.tokenIndex + 1 := rfl

end Output

/-- The emit test of `advance` for a hidden token in front of a leaf. -/
def passes (child : Tree) (token : Token) : Bool :=
  token.line < child.getLine ∨ token.charPositionInLine ≤ child.getCharPositionInLine

/-- The loop of `advance` over the tokens from the shared index on. -/
def advanceTokens (child : Tree) : List Token → Output → Output
  | [], out => out
  | token :: rest, out =>
    if !token.isHidden then advanceTokens child rest out.next
    else if passes child token then advanceTokens child rest (out.put (.inl token)).next
    else out

def advance (tokens : List Token) (child : Tree) (out : Output) : Output :=
  (advanceTokens child (tokens.drop out.tokenIndex) out).put (.inr child)

/-- The loop of `advance_all`. -/
def advanceAllTokens : List Token → Output → Output
  | [], out => out
  | token :: rest, out =>
    if !token.isHidden then advanceAllTokens rest out.next
    else advanceAllTokens rest (out.put (.inl token)).next

def advanceAll (tokens : List Token) (out : Output) : Output :=
  advanceAllTokens (tokens.drop out.tokenIndex) out

mutual

def treeWalkPrinter (tokens : List Token) : Tree → Output → Output
  | .node _ children, out => printChildren tokens children out

/-- A child with children of its own is walked; one without is a leaf, printed unless it is EOF. -/
def printChildren (tokens : List Token) : List Tree → Output → Output
  | [], out => out
  | child :: rest, out =>
    printChildren tokens rest
      (if child.children.length > 0 then treeWalkPrinter tokens child out
      else if child.getType ≠ .eof then advance tokens child out
      else out)

end

/-- The body of the output: the tree, then the hidden tokens behind it. A NULL tree prints
nothing. -/
def printTree (tokens : List Token) (tree : Option Tree) : Output :=
  advanceAll tokens (tree.elim Output.empty fun p => treeWalkPrinter tokens p Output.empty)

/-- A newline and the postbuf behind the output; the postbuf is emptied. -/
def printPostbuf (output : String) (ws : WalkerState) : String × WalkerState :=
  if ws.postbuf.length > 0 then (output ++ "\n" ++ ws.postbuf, { ws with postbuf := "" })
  else (output, ws)

/-- `pgify` behind the parser: walk the AST unless it is NULL. -/
def pgify (rt : Runtime) (state : WalkerState) (langAST : Option Tree) :
    Option (WalkerState × Option Tree) :=
  match langAST with
  | none => some (state, none)
  | some tree => (treeWalkWorker rt state tree).map fun (state, tree) => (state, some tree)

/-- `pgify_string` behind the parser: walk the AST, print it and print the postbuf. -/
def pgifyString (rt : Runtime) (ws : WalkerState) (tokens : List Token) (langAST : Option Tree) :
    Option (String × WalkerState) :=
  (pgify rt ws langAST).map fun (ws, tree) => printPostbuf (printTree tokens tree).text ws

/-- A call leaves nothing in the postbuf for the next one. -/
theorem postbuf_of_pgifyString {rt : Runtime} {ws ws' : WalkerState} {tokens : List Token}
    {langAST : Option Tree} {output : String}
    (run : pgifyString rt ws tokens langAST = some (output, ws')) : ws'.postbuf = "" := by
  obtain ⟨⟨ws, tree⟩, -, printed⟩ := Option.map_eq_some_iff.mp run
  change printPostbuf (printTree tokens tree).text ws = (output, ws') at printed
  rw [printPostbuf] at printed
  split at printed
  · rw [← (Prod.mk.inj printed).2]
  · next empty =>
    rw [← (Prod.mk.inj printed).2]
    exact String.length_eq_zero_iff.mp (by omega)

mutual

/-- The leaves strictly below a node that are not EOF, from left to right. -/
def leavesBelow : Tree → List Tree
  | .node _ children => leavesOf children

/-- The leaves among and below some siblings. -/
def leavesOf : List Tree → List Tree
  | [] => []
  | child :: rest =>
    (if child.children.length > 0 then leavesBelow child
    else if child.getType ≠ .eof then [child]
    else []) ++ leavesOf rest

end

/-- The leaves that the printer visits. -/
def printedLeaves (tree : Option Tree) : List Tree :=
  tree.elim [] leavesBelow

theorem leavesOf_append (first second : List Tree) :
    leavesOf (first ++ second) = leavesOf first ++ leavesOf second := by
  induction first with
  | nil => rfl
  | cons child rest ih => simp only [List.cons_append, leavesOf, ih, List.append_assoc]

theorem leavesOf_cons (child : Tree) (rest : List Tree) :
    leavesOf (child :: rest) = leavesOf [child] ++ leavesOf rest :=
  leavesOf_append [child] rest

theorem leavesOf_node (token : Option Token) {children : List Tree} (nonempty : children ≠ []) :
    leavesOf [.node token children] = leavesOf children := by
  simp [leavesOf, leavesBelow, List.length_pos_iff.mpr nonempty]

theorem leavesOf_eq_flatMap (trees : List Tree) :
    leavesOf trees = trees.flatMap fun x => leavesOf [x] := by
  induction trees with
  | nil => rfl
  | cons x rest ih =>
    rw [leavesOf_cons, ih, List.flatMap_cons]

/-- Siblings without children are their own leaves, but for the end of the input. -/
theorem leavesOf_of_childless {trees : List Tree} (leaves : ∀ x ∈ trees, x.children = []) :
    leavesOf trees = trees.filter fun x => x.getType != .eof := by
  induction trees with
  | nil => rfl
  | cons x rest ih =>
    have leaf := leaves x List.mem_cons_self
    rw [leavesOf, leaf, ih fun y member => leaves y (List.mem_cons_of_mem _ member),
      List.filter_cons]
    by_cases visible : x.getType = .eof
    · simp [visible]
    · simp [visible]

/-! ## The printer as a cursor merge -/

/-- The hidden tokens that the shared index has not passed. -/
private def ahead (tokens : List Token) (out : Output) : List Token :=
  (tokens.drop out.tokenIndex).filter Token.isHidden

private theorem drop_of_ahead {tokens rest : List Token} {token : Token} {index : ℕ}
    (here : tokens.drop index = token :: rest) : tokens.drop (index + 1) = rest := by
  rw [← List.drop_drop, here, List.drop_one, List.tail_cons]

private theorem advanceTokens_spec (tokens rest : List Token) (child : Tree) (out : Output)
    (here : tokens.drop out.tokenIndex = rest) :
    (advanceTokens child rest out).pieces =
        out.pieces ++ ((rest.filter Token.isHidden).takeWhile (passes child)).map .inl ∧
      ahead tokens (advanceTokens child rest out) =
        (rest.filter Token.isHidden).dropWhile (passes child) := by
  induction rest generalizing out with
  | nil => simp [advanceTokens, ahead, here]
  | cons token rest ih =>
    have tail := drop_of_ahead here
    cases hidden : token.isHidden with
    | false => simpa [advanceTokens, hidden] using ih out.next tail
    | true =>
      cases pass : passes child token with
      | false => simp [advanceTokens, ahead, hidden, pass, here]
      | true => simpa [advanceTokens, hidden, pass] using ih (out.put (.inl token)).next tail

private theorem advance_spec (tokens : List Token) (child : Tree) (out : Output) :
    (advance tokens child out).pieces =
        out.pieces ++ ((ahead tokens out).takeWhile (passes child)).map .inl ++ [.inr child] ∧
      ahead tokens (advance tokens child out) = (ahead tokens out).dropWhile (passes child) := by
  obtain ⟨pieces, rest⟩ := advanceTokens_spec tokens _ child out rfl
  exact ⟨by rw [advance, Output.pieces_put, pieces]; rfl, rest⟩

private theorem advanceAllTokens_pieces (rest : List Token) (out : Output) :
    (advanceAllTokens rest out).pieces =
      out.pieces ++ (rest.filter Token.isHidden).map .inl := by
  induction rest generalizing out with
  | nil => simp [advanceAllTokens]
  | cons token rest ih =>
    cases hidden : token.isHidden <;> simp [advanceAllTokens, hidden, ih]

private theorem advance_leaves_pieces (tokens : List Token) (leaves : List Tree) (out : Output) :
    (advanceAll tokens (leaves.foldl (fun out leaf => advance tokens leaf out) out)).pieces =
      out.pieces ++ CursorMerge.merge passes (ahead tokens out) leaves := by
  induction leaves generalizing out with
  | nil => exact advanceAllTokens_pieces _ out
  | cons leaf leaves ih =>
    obtain ⟨pieces, rest⟩ := advance_spec tokens leaf out
    simp only [List.foldl_cons, ih, pieces, rest, CursorMerge.merge, List.append_assoc,
      List.singleton_append]

mutual

theorem treeWalkPrinter_eq_foldl (tokens : List Token) (p : Tree) (out : Output) :
    treeWalkPrinter tokens p out =
      (leavesBelow p).foldl (fun out leaf => advance tokens leaf out) out := by
  cases p with
  | node token children =>
    rw [treeWalkPrinter, leavesBelow]
    exact printChildren_eq_foldl tokens children out

theorem printChildren_eq_foldl (tokens : List Token) (children : List Tree) (out : Output) :
    printChildren tokens children out =
      (leavesOf children).foldl (fun out leaf => advance tokens leaf out) out := by
  cases children with
  | nil => rfl
  | cons child rest =>
    rw [printChildren, leavesOf, List.foldl_append, printChildren_eq_foldl tokens rest]
    split
    · rw [treeWalkPrinter_eq_foldl tokens child]
    · split <;> rfl

end

/-- The printed pieces are the hidden tokens merged into the leaves. -/
theorem printTree_pieces (tokens : List Token) (tree : Option Tree) :
    (printTree tokens tree).pieces =
      CursorMerge.merge passes (tokens.filter Token.isHidden) (printedLeaves tree) := by
  have walk : tree.elim Output.empty (fun p => treeWalkPrinter tokens p Output.empty) =
      (printedLeaves tree).foldl (fun out leaf => advance tokens leaf out) Output.empty := by
    cases tree with
    | none => rfl
    | some p => exact treeWalkPrinter_eq_foldl tokens p Output.empty
  rw [printTree, walk, advance_leaves_pieces]
  rfl

/-! ## The text is the text of the pieces -/

private def Rendered (out : Output) : Prop :=
  out.text = String.join (out.pieces.map pieceText)

private theorem Rendered.put {out : Output} (rendered : Rendered out) (piece : Token ⊕ Tree) :
    Rendered (out.put piece) := by
  have text : out.text = String.join (out.pieces.map pieceText) := rendered
  simp [Rendered, Output.put, text]

private theorem Rendered.advanceTokens {child : Tree} {rest : List Token} {out : Output}
    (rendered : Rendered out) : Rendered (advanceTokens child rest out) := by
  induction rest generalizing out with
  | nil => exact rendered
  | cons token rest ih =>
    rw [Model.advanceTokens]
    split
    · exact ih rendered
    · split
      · exact ih (rendered.put _)
      · exact rendered

private theorem Rendered.advanceAllTokens {rest : List Token} {out : Output}
    (rendered : Rendered out) : Rendered (advanceAllTokens rest out) := by
  induction rest generalizing out with
  | nil => exact rendered
  | cons token rest ih =>
    rw [Model.advanceAllTokens]
    split
    · exact ih rendered
    · exact ih (rendered.put _)

private theorem Rendered.foldl {tokens : List Token} (leaves : List Tree) {out : Output}
    (rendered : Rendered out) :
    Rendered (leaves.foldl (fun out leaf => advance tokens leaf out) out) := by
  induction leaves generalizing out with
  | nil => exact rendered
  | cons leaf leaves ih => exact ih (rendered.advanceTokens.put _)

theorem printTree_text (tokens : List Token) (tree : Option Tree) :
    (printTree tokens tree).text = String.join ((printTree tokens tree).pieces.map pieceText) := by
  have start : Rendered Output.empty := rfl
  cases tree with
  | none => exact start.advanceAllTokens
  | some p =>
    have walked : Rendered (treeWalkPrinter tokens p Output.empty) := by
      rw [treeWalkPrinter_eq_foldl]
      exact start.foldl (leavesBelow p)
    exact walked.advanceAllTokens

end Pgify.Model
