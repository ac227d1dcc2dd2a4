import Pgify.Lib.OperatorPrecedence
import Pgify.Model.FunctionCalls

/-! # Expressions

What `sql_expression` derives, as the operands and operators that stand outside of brackets. An
operand is all that `expr_expr` derives but for a time zone: a name, a literal, a call, or something
in brackets of its own. A token that is a sign is another operator than the same token between two
operands.
-/

namespace Pgify.Model

open OperatorPrecedence

/-- The operators of `sql_expression`, and the cast that rewrites append. -/
inductive Operator where
  /-- PLUS, MINUS or DOUBLEVERTBAR -/
  | add (token : TokenIn [.other 135, .other 136, .other 137])
  /-- ASTERISK or DIVIDE -/
  | mul (token : TokenIn [.other 133, .other 138])
  /-- PLUS, MINUS, K_PRIOR or K_CONNECT_BY_ROOT -/
  | sign (token : TokenIn [.other 135, .other 136, .other 139, .other 140])
  /-- EXPONENT -/
  | pow (token : TokenIn [.other 141])
  | like (token : TokenIn [.kLike])
  /-- K_AT K_LOCAL -/
  | atLocal (word : TokenIn [.other 154]) (place : TokenIn [.other 36])
  /-- K_AT K_TIME K_ZONE -/
  | atTimeZone (word : TokenIn [.other 154]) (time : TokenIn [.other 155])
    (zone : TokenIn [.other 156])
  | cast

def Operator.trees : Operator → List Tree
  | add token => [leafOf token]
  | mul token => [leafOf token]
  | sign token => [leafOf token]
  | pow token => [leafOf token]
  | like token => [leafOf token]
  | atLocal word place => [leafOf word, leafOf place]
  | atTimeZone word time zone => [leafOf word, leafOf time, leafOf zone]
  | cast => [transform "::text "]

/-- The trees of an operand. -/
abbrev Operand := { trees : List Tree // trees ≠ [] ∧ ∀ x ∈ trees, Walkable x }

abbrev ExprItem := Item Operand Operator

def itemTrees : ExprItem → List Tree
  | .operand operand => operand.1
  | .operator operator => operator.trees

/-- A string as an operand. -/
def stringOperand (token : TokenIn [.quotedString]) : Operand :=
  ⟨[leafOf token], List.cons_ne_nil _ _, fun x member => by
    rw [List.mem_singleton.mp member]
    exact walkable_leaf (by rw [List.mem_singleton.mp token.2]; rfl)⟩

inductive ExprRule where
  | exprExpr | exprLike | exprPow | exprSign | exprMul | exprAdd

/-- The rules from `expr_add` to `expr_expr`; a loop adds one operand after the other. -/
inductive Derives : ExprRule → List ExprItem → Prop
  | operand (operand : Operand) : Derives .exprExpr [.operand operand]
  | atLocal (operand : Operand) (word : TokenIn [.other 154]) (place : TokenIn [.other 36]) :
      Derives .exprExpr [.operand operand, .operator (.atLocal word place)]
  | atTimeZone (operand : Operand) (word : TokenIn [.other 154]) (time : TokenIn [.other 155])
      (zone : TokenIn [.other 156]) {expression : List ExprItem}
      (derives : Derives .exprAdd expression) :
      Derives .exprExpr
        (.operand operand :: .operator (.atTimeZone word time zone) :: expression)
  | ofExpr {items : List ExprItem} (derives : Derives .exprExpr items) : Derives .exprLike items
  | like {items : List ExprItem} (derives : Derives .exprExpr items) (token : TokenIn [.kLike])
      (pattern : TokenIn [.quotedString]) :
      Derives .exprLike (items ++ [.operator (.like token), .operand (stringOperand pattern)])
  | ofLike {items : List ExprItem} (derives : Derives .exprLike items) : Derives .exprPow items
  | pow {left right : List ExprItem} (derivesLeft : Derives .exprPow left)
      (token : TokenIn [.other 141]) (derivesRight : Derives .exprLike right) :
      Derives .exprPow (left ++ .operator (.pow token) :: right)
  | ofPow {items : List ExprItem} (derives : Derives .exprPow items) : Derives .exprSign items
  | sign (token : TokenIn [.other 135, .other 136, .other 139, .other 140])
      {items : List ExprItem} (derives : Derives .exprPow items) :
      Derives .exprSign (.operator (.sign token) :: items)
  | ofSign {items : List ExprItem} (derives : Derives .exprSign items) : Derives .exprMul items
  | mul {left right : List ExprItem} (derivesLeft : Derives .exprMul left)
      (token : TokenIn [.other 133, .other 138]) (derivesRight : Derives .exprSign right) :
      Derives .exprMul (left ++ .operator (.mul token) :: right)
  | ofMul {items : List ExprItem} (derives : Derives .exprMul items) : Derives .exprAdd items
  | add {left right : List ExprItem} (derivesLeft : Derives .exprAdd left)
      (token : TokenIn [.other 135, .other 136, .other 137])
      (derivesRight : Derives .exprMul right) :
      Derives .exprAdd (left ++ .operator (.add token) :: right)

/-- `nested_expression` -/
abbrev NestedExpression := { items : List ExprItem // Derives .exprAdd items }

/-- An operand alone is an expression. -/
theorem derives_operand (operand : Operand) : Derives .exprAdd [.operand operand] :=
  .ofMul (.ofSign (.ofPow (.ofLike (.ofExpr (.operand operand)))))

private theorem walkable_operator (operator : Operator) : ∀ x ∈ operator.trees, Walkable x := by
  have leaf {types : List TokenType} (inert : ∀ k ∈ types, k.isInert = true)
      (token : TokenIn types) : Walkable (leafOf token) :=
    walkable_leaf (inert _ token.2)
  intro x member
  cases operator with
  | add token | mul token | sign token | pow token | like token =>
    rw [List.mem_singleton.mp member]
    exact leaf (by decide) token
  | atLocal word place =>
    rcases List.mem_pair.mp member with rfl | rfl
    · exact leaf (by decide) word
    · exact leaf (by decide) place
  | atTimeZone word time zone =>
    rcases List.mem_cons.mp member with rfl | member
    · exact leaf (by decide) word
    · rcases List.mem_pair.mp member with rfl | rfl
      · exact leaf (by decide) time
      · exact leaf (by decide) zone
  | cast =>
    rw [List.mem_singleton.mp member]
    exact walkable_leaf rfl

private theorem Derives.operand_mem {rule : ExprRule} {items : List ExprItem}
    (derives : Derives rule items) : ∃ operand, Item.operand operand ∈ items := by
  induction derives with
  | operand operand => exact ⟨operand, by simp⟩
  | atLocal operand => exact ⟨operand, by simp⟩
  | atTimeZone operand => exact ⟨operand, by simp⟩
  | ofExpr _ ih | ofLike _ ih | ofPow _ ih | ofSign _ ih | ofMul _ ih => exact ih
  | like _ _ pattern _ => exact ⟨stringOperand pattern, by simp⟩
  | sign _ _ ih =>
    obtain ⟨operand, member⟩ := ih
    exact ⟨operand, by simp [member]⟩
  | pow _ _ _ ih _ | mul _ _ _ ih _ | add _ _ _ ih _ =>
    obtain ⟨operand, member⟩ := ih
    exact ⟨operand, by simp [member]⟩

/-- The expression as an argument of a call. -/
def NestedExpression.parameter (expression : NestedExpression) : CallParameter :=
  ⟨expression.1.flatMap itemTrees, by
    obtain ⟨operand, member⟩ := expression.2.operand_mem
    constructor
    · intro nothing
      exact operand.2.1 (List.flatMap_eq_nil_iff.mp nothing _ member)
    · intro x below
      obtain ⟨item, -, own⟩ := List.mem_flatMap.mp below
      cases item with
      | operand operand => exact operand.2.2 x own
      | operator operator => exact walkable_operator operator x own⟩

/-- `function_expression_ifnull` over the derivations of its arguments. -/
structure Ifnull where
  lparen : TokenIn [.lparen]
  first : NestedExpression
  comma : TokenIn [.comma]
  second : NestedExpression
  rparen : TokenIn [.rparen]

def Ifnull.call (ifnull : Ifnull) : FunctionIfnull where
  lparen := ifnull.lparen
  first := NestedExpression.parameter ifnull.first
  comma := ifnull.comma
  second := NestedExpression.parameter ifnull.second
  rparen := ifnull.rparen

end Pgify.Model
