import Pgify.Lib.SearchLoop
import Pgify.Model.Tree

/-! # Walker state and tree searches

`WalkerState` is what one call hands to the next: the schema prefix of the last USE and the buffer
of generated statements. Searches return an index as `some` and the source's `-1` as `none`; a
dereferenced NULL has no result.
-/

namespace Pgify.Model

structure WalkerState where
  schemaName : String
  postbuf : String
  options : ℕ
  foundRows : ℤ
deriving DecidableEq, Repr

/-- A fresh state: no schema, nothing generated, one found row. -/
def walkerstateNew (pgoptions : ℕ) : WalkerState :=
  ⟨"", "", pgoptions, 1⟩

def WalkerState.append (ws : WalkerState) (text : String) : WalkerState :=
  { ws with postbuf := ws.postbuf ++ text }

@[simp] theorem WalkerState.append_postbuf (ws : WalkerState) (text : String) :
    (ws.append text).postbuf = ws.postbuf ++ text := rfl

@[simp] theorem WalkerState.append_schemaName (ws : WalkerState) (text : String) :
    (ws.append text).schemaName = ws.schemaName := rfl

@[simp] theorem WalkerState.append_append (ws : WalkerState) (first second : String) :
    (ws.append first).append second = ws.append (first ++ second) := by
  simp [WalkerState.append, String.append_assoc]

@[simp] theorem WalkerState.append_empty (ws : WalkerState) : ws.append "" = ws := by
  simp [WalkerState.append]

/-- What the walker takes from outside the source: GLib's Unicode lower-casing, and the value that
an automatic variable has before it is assigned. -/
structure Runtime where
  utf8Strdown : String → String
  indeterminate : ℕ

def pgifyDebug : ℕ := 1
def pgifyEscape : ℕ := 2
def pgifyLowerid : ℕ := 4

def pgifyIsEscape (options : ℕ) : Bool := options &&& pgifyEscape != 0
def pgifyIsLowerid (options : ℕ) : Bool := options &&& pgifyLowerid != 0

def hasType (lookfor : TokenType) (tree : Tree) : Bool :=
  tree.getType == lookfor

/-- A node whose type is among others. -/
theorem hasType_of_mem {types : List TokenType} {k : TokenType} (other : k ∉ types) {x : Tree}
    (own : x.getType ∈ types) : hasType k x = false := by
  rw [hasType, beq_eq_false_iff_ne]
  rintro rfl
  exact other own

/-- Search the children for the type and return the position; does not descend. -/
def lookAheadIndex (tree : List Tree) (start : ℕ) (lookfor : TokenType) : Option ℕ :=
  SearchLoop.findFrom (hasType lookfor) start tree

mutual

/-- The search below one child, from that child's first child on. -/
def lookAheadBelow (lookfor : TokenType) : Tree → Option ℕ
  | .node _ children => lookAheadDownFrom lookfor children 0

/-- The children from index `c` on, each before its own descendants. The index of a hit below is
the index on its own level. -/
def lookAheadDownFrom (lookfor : TokenType) : List Tree → (c : ℕ) → Option ℕ
  | [], _ => none
  | child :: rest, c =>
    if hasType lookfor child then some c
    else
      match lookAheadBelow lookfor child with
      | some down => some down
      | none => lookAheadDownFrom lookfor rest (c + 1)

end

def lookAheadDown (tree : List Tree) (start : ℕ) (lookfor : TokenType) : Option ℕ :=
  lookAheadDownFrom lookfor (tree.drop start) start

/-- Remove every quote character. -/
def unquote (string : String) : String :=
  String.ofList (string.toList.filter fun c => c != '"' && c != '\'')

def getLowerText (rt : Runtime) (tree : Tree) : String :=
  rt.utf8Strdown tree.getText

/-- `while ((pos = look_ahead_index(base, pos, lookfor)) > -1)` over the children of a node. Every
turn removes a child or moves on, so one turn more than there are children is enough. -/
def whileFound (lookfor : TokenType)
    (body : ℕ → WalkerState → List Tree → Option (ℕ × WalkerState × List Tree))
    (ws : WalkerState) (base : List Tree) : Option (WalkerState × List Tree) :=
  SearchLoop.searchLoop (hasType lookfor) body (base.length + 1) 0 ws base

end Pgify.Model
