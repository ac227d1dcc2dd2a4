import Pgify.Model.Statement

/-! # LOCK TABLES and UNLOCK TABLES

The tables, aliases and lock types that `lock_tables_statement` accepts, and the two trees that the
rules build: a T_LOCK_TABLE node over all tokens, and none.
-/

namespace Pgify.Model

/-- `delete_tree_children`: as many deletions in the first place as there are children. -/
def deleteTreeChildren (tree : List Tree) : List Tree :=
  (List.range tree.length).foldl (fun children _ => children.eraseIdx 0) tree

/-- Every deletion moves the next child to the place of the one before. -/
theorem foldl_eraseIdx_zero (children : List Tree) (n : ℕ) :
    (List.range n).foldl (fun children _ => children.eraseIdx 0) children = children.drop n := by
  induction n with
  | zero => rfl
  | succ n ih =>
    rw [List.range_succ, List.foldl_append, ih, List.foldl_cons, List.foldl_nil,
      List.eraseIdx_zero, List.tail_drop]

theorem deleteTreeChildren_eq_nil (tree : List Tree) : deleteTreeChildren tree = [] := by
  rw [deleteTreeChildren, foldl_eraseIdx_zero, List.drop_length]

/-- The worker sets the text and runs the loop over the children. -/
theorem lockTablesWorker_eq_loop (tree : Tree) :
    lockTablesWorker tree = (tree.setText "").withChildren (deleteTreeChildren tree.children) := by
  rw [deleteTreeChildren_eq_nil, lockTablesWorker]

/-- `(schema_name DOT)? identifier ( K_AS? identifier )?` -/
structure LockedTable where
  qualifier : Option (SqlIdentifier × TokenIn [.dot])
  name : TokenIn [.id]
  correlation : Option (Option (TokenIn [.kAs]) × TokenIn [.id])

def LockedTable.tokens (table : LockedTable) : List Token :=
  table.qualifier.elim [] (fun pair => [pair.1.1, pair.2.1]) ++ table.name.1 ::
    table.correlation.elim [] fun pair => (pair.1.map Subtype.val).toList ++ [pair.2.1]

/-- `( K_READ K_LOCAL? ) | ( K_LOW_PRIORITY? K_WRITE )` -/
inductive TableLockType where
  | read (keyword : TokenIn [.other 35]) (locally : Option (TokenIn [.other 36]))
  | write (lowPriority : Option (TokenIn [.other 37])) (keyword : TokenIn [.other 38])

def TableLockType.tokens : TableLockType → List Token
  | read keyword locally => keyword.1 :: (locally.map Subtype.val).toList
  | write lowPriority keyword => (lowPriority.map Subtype.val).toList ++ [keyword.1]

structure LockTables where
  lock : TokenIn [.kLock]
  tables : TokenIn [.kTables]
  first : LockedTable
  rest : List (TokenIn [.comma] × LockedTable)
  lockType : TableLockType
  semi : Option (TokenIn [.semi])

namespace LockTables

variable (statement : LockTables)

def tokens : List Token :=
  statement.lock.1 :: statement.tables.1 :: statement.first.tokens ++
    statement.rest.flatMap (fun pair => pair.1.1 :: pair.2.tokens) ++
    statement.lockType.tokens ++ (statement.semi.map Subtype.val).toList

def trees : List Tree :=
  [rooted .tLockTable "T_LOCK_TABLE" (statement.tokens.map .leaf)]

end LockTables

/-- `'UNLOCK' K_TABLES SEMI?` -/
structure UnlockTables where
  unlock : TokenIn [.unlock]
  tables : TokenIn [.kTables]
  semi : Option (TokenIn [.semi])

/-- The rewrite of the rule is empty. -/
def UnlockTables.trees (_ : UnlockTables) : List Tree :=
  []

end Pgify.Model
