import Mathlib.Data.Int.Notation
import Mathlib.Data.List.Basic

/-! # Tokens and trees of the parser runtime

The tree walker and the printer see the program through ANTLR's common tokens and common trees. A
token carries the text that `getText()->chars` designates, its channel and its position; a tree node
carries a token, or none when it is a nil root. The runtime's conventions for absent positions are
kept: a token made by a rewrite has line 0 and column -1, and a node without a usable position asks
its first child.
-/

namespace Pgify.Model

/-- Token types by their names in the grammar. `invalid` is the type of a nil node and `other` any
type number that no modelled function names. -/
inductive TokenType where
  | eof | invalid
  | tUseDatabase | tCreateTable | tCreateTableIndex | tCreateTableOptions | tCreateTableFkey
  | tCreateTableEnum | tCreateTableFulltextIndex | tCreateTableOnupdate | tCreateTableColumnDefault
  | tCreateTableColumnDef | tServerVariable | tLockTable | tSelectStatement | tShowLike | tShowFrom
  | tShowColumns | tShowTables | tFunctionIf | tWhere | tTransform
  | id | comma | lparen | rparen | dot | semi | eq | number | quotedString | quote
  | stupidMysqlDate | stupidMysqlTimestamp
  | kUsing | kAsc | kDesc | kAutoIncrement | kDouble | kPrecision | kNot | kNull | kEnum | kSet
  | kOn | kUpdate | kFull | kShow | kTables | kUse | kFoundRows | kAs | kCreate | kTemporary
  | kTable | kIf | kExists | kPrimary | kUnique | kKey | kDatabase | kSelect | kWith | kInsert
  | kMerge | kDelete | kDrop | kLock | kLike | kInto | kReferences | unlock | databases | columns
  | fields
  | ws | slComment | mysqlComment | mlComment
  | other (code : ℕ)
deriving DecidableEq, Repr

/-- The two channels the lexer puts tokens on. -/
inductive Channel where
  | default | hidden
deriving DecidableEq, Repr

structure Token where
  type : TokenType
  text : String
  channel : Channel
  line : ℕ
  charPositionInLine : ℤ
deriving DecidableEq, Repr

/-- A token made by a rewrite rule: text, but no place in the input. -/
def Token.imaginary (type : TokenType) (text : String) : Token :=
  ⟨type, text, .default, 0, -1⟩

def Token.isHidden (token : Token) : Bool :=
  token.channel == .hidden

/-- Order of the places in the input: by line, then by column. -/
def Token.Precedes (first second : Token) : Prop :=
  first.line < second.line ∨
    first.line = second.line ∧ first.charPositionInLine < second.charPositionInLine

instance (first second : Token) : Decidable (first.Precedes second) :=
  inferInstanceAs (Decidable (_ ∨ _))

/-- A node of the AST; a nil root has no token. -/
inductive Tree where
  | node (token : Option Token) (children : List Tree)

namespace Tree

def token : Tree → Option Token
  | node token _ => token

def children : Tree → List Tree
  | node _ children => children

def leaf (token : Token) : Tree :=
  node (some token) []

def getType (tree : Tree) : TokenType :=
  tree.token.elim .invalid Token.type

def getText (tree : Tree) : String :=
  tree.token.elim "nil" Token.text

/-- The line of a node; a node without one has the line of its first child. -/
def getLine : Tree → ℕ
  | node (some token) [] => token.line
  | node none [] => 0
  | node token (child :: _) =>
    match token with
    | some token => if token.line = 0 then child.getLine else token.line
    | none => child.getLine

/-- The column of a node; a leaf without one stands in column 0. -/
def getCharPositionInLine : Tree → ℤ
  | node (some token) [] => if token.charPositionInLine = -1 then 0 else token.charPositionInLine
  | node none [] => 0
  | node token (child :: _) =>
    match token with
    | some token =>
      if token.charPositionInLine = -1 then child.getCharPositionInLine
      else token.charPositionInLine
    | none => child.getCharPositionInLine

def setText (tree : Tree) (text : String) : Tree :=
  node (tree.token.map fun token => { token with text := text }) tree.children

def withChildren (tree : Tree) (children : List Tree) : Tree :=
  node tree.token children

@[simp] theorem token_node (token : Option Token) (children : List Tree) :
    (node token children).token = token := rfl

@[simp] theorem children_node (token : Option Token) (children : List Tree) :
    (node token children).children = children := rfl

@[simp] theorem getType_leaf (token : Token) : (leaf token).getType = token.type := rfl

@[simp] theorem getText_leaf (token : Token) : (leaf token).getText = token.text := rfl

@[simp] theorem children_leaf (token : Token) : (leaf token).children = [] := rfl

@[simp] theorem token_leaf (token : Token) : (leaf token).token = some token := rfl

@[simp] theorem getType_node (token : Token) (children : List Tree) :
    (node (some token) children).getType = token.type := rfl

@[simp] theorem getText_node (token : Token) (children : List Tree) :
    (node (some token) children).getText = token.text := rfl

@[simp] theorem getType_setText (tree : Tree) (text : String) :
    (tree.setText text).getType = tree.getType := by
  cases tree with
  | node token children => cases token <;> rfl

@[simp] theorem children_setText (tree : Tree) (text : String) :
    (tree.setText text).children = tree.children := rfl

@[simp] theorem getType_withChildren (tree : Tree) (children : List Tree) :
    (tree.withChildren children).getType = tree.getType := rfl

@[simp] theorem getText_withChildren (tree : Tree) (children : List Tree) :
    (tree.withChildren children).getText = tree.getText := rfl

@[simp] theorem children_withChildren (tree : Tree) (children : List Tree) :
    (tree.withChildren children).children = children := rfl

@[simp] theorem withChildren_children (tree : Tree) : tree.withChildren tree.children = tree := by
  cases tree; rfl

end Tree

end Pgify.Model
