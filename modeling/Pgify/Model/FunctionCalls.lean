import Pgify.Model.CreateTableTree
import Pgify.Model.Walkable

/-! # Calls of functions that PostgreSQL spells in another way

What the rules of IF, IFNULL, CONCAT and CONCAT_WS accept and the trees that their rewrites build.
An argument is a T_CALL_PARAMETER node over the trees of its expression.
-/

namespace Pgify.Model

/-- `call_parameter`: the trees of an expression. -/
abbrev CallParameter := { expression : List Tree // expression ≠ [] ∧ ∀ x ∈ expression, Walkable x }

def CallParameter.tree (parameter : CallParameter) : Tree :=
  rooted (.other 22) "T_CALL_PARAMETER" parameter.1

/-- `function_expression_if` -/
structure FunctionIf where
  first : CallParameter
  second : CallParameter
  third : CallParameter

def FunctionIf.tree (call : FunctionIf) : Tree :=
  rooted .tFunctionIf "T_FUNCTION_IF" [call.first.tree, call.second.tree, call.third.tree]

/-- `function_expression_ifnull` -/
structure FunctionIfnull where
  lparen : TokenIn [.lparen]
  first : CallParameter
  comma : TokenIn [.comma]
  second : CallParameter
  rparen : TokenIn [.rparen]

/-- `T_TRANSFORM[text]` -/
def transform (text : String) : Tree :=
  .leaf (.imaginary .tTransform text)

def FunctionIfnull.tree (call : FunctionIfnull) : Tree :=
  rooted (.other 25) "T_FUNCTION_IFNULL"
    [transform " COALESCE ", leafOf call.lparen, call.first.tree, transform "::text ",
      leafOf call.comma, call.second.tree, transform "::text ", leafOf call.rparen]

/-- `call_parameter ( COMMA call_parameter )*` -/
structure CallParameters where
  first : CallParameter
  rest : List (TokenIn [.comma] × CallParameter)

namespace CallParameters

variable (parameters : CallParameters)

def arguments : List Tree :=
  parameters.first.tree :: parameters.rest.map fun pair => pair.2.tree

def trees : List Tree :=
  parameters.first.tree :: parameters.rest.flatMap fun pair => [leafOf pair.1, pair.2.tree]

end CallParameters

/-- `function_expression_concat` and `function_expression_concat_ws` -/
inductive Concatenation where
  | concat (parameters : CallParameters)
  | concatWs (separator : SqlIdentifier) (parameters : CallParameters) (rparen : TokenIn [.rparen])

namespace Concatenation

def parameters : Concatenation → CallParameters
  | concat parameters => parameters
  | concatWs _ parameters _ => parameters

/-- Both open the same call; CONCAT_WS moves its first argument behind the others. -/
def trees : Concatenation → List Tree
  | concat parameters =>
    .leaf (.imaginary .lparen " ARRAY_TO_STRING(ARRAY[") :: parameters.trees ++
      [.leaf (.imaginary .rparen "], '')")]
  | concatWs separator parameters rparen =>
    .leaf (.imaginary .lparen " ARRAY_TO_STRING(ARRAY[") :: parameters.trees ++
      [transform "], ", .leaf separator.1, leafOf rparen]

end Concatenation

end Pgify.Model
