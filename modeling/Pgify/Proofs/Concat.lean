import Mathlib.Data.List.ReduceOption
import Pgify.Model.FunctionCalls

/-! # The value of CONCAT and CONCAT_WS

Both functions become `ARRAY_TO_STRING(ARRAY[...], s)`, which joins the elements that are not NULL.
That is what CONCAT_WS does in MySQL. CONCAT is NULL where one of its arguments is.
-/

namespace Pgify.Concat

open Model

/-- A string, or NULL. -/
abbrev Value := Option String

/-! ## PostgreSQL -/

/-- `ARRAY_TO_STRING(ARRAY[elements], separator)`; without a separator tree it is `''`. -/
structure ArrayToString where
  elements : List Tree
  separator : Option Tree

/-- `call_parameter ( COMMA call_parameter )*` and the trees behind it. -/
def readElements : List Tree → Option (List Tree × List Tree)
  | element :: next :: rest =>
    if element.getType = .other 22 then
      if next.getType = .comma then
        (readElements rest).map fun read => (element :: read.1, read.2)
      else some ([element], next :: rest)
    else none
  | _ => none

/-- The call that some trees spell. -/
def readArrayToString : List Tree → Option ArrayToString
  | [] => none
  | opening :: rest =>
    if opening.getText = " ARRAY_TO_STRING(ARRAY[" then
      (readElements rest).bind fun read =>
        match read.2 with
        | [closing] => if closing.getText = "], '')" then some ⟨read.1, none⟩ else none
        | [closing, separator, rparen] =>
          if closing.getText = "], " ∧ rparen.getType = .rparen then
            some ⟨read.1, some separator⟩
          else none
        | _ => none
    else none

/-- PostgreSQL: the elements that are not NULL, joined; NULL if the separator is. -/
def arrayToString (elements : List Value) (separator : Value) : Value :=
  separator.map fun text => text.intercalate elements.reduceOption

def ArrayToString.value (valuation : Tree → Value) (call : ArrayToString) : Value :=
  arrayToString (call.elements.map valuation) (call.separator.elim (some "") valuation)

/-! ## MySQL -/

def concat (arguments : List Value) : Value :=
  if none ∈ arguments then none else some (String.join arguments.reduceOption)

def concatWs (separator : Value) (arguments : List Value) : Value :=
  match separator with
  | none => none
  | some text => some (text.intercalate arguments.reduceOption)

def mysqlValue (valuation : Tree → Value) : Concatenation → Value
  | .concat parameters => concat (parameters.arguments.map valuation)
  | .concatWs separator parameters _ =>
    concatWs (valuation (.leaf separator.1)) (parameters.arguments.map valuation)

/-- PostgreSQL reads a call with all arguments in their order and the value of the MySQL call. -/
def Keeps (valuation : Tree → Value) (call : Concatenation) : Prop :=
  ∃ read, readArrayToString call.trees = some read ∧
    read.elements = call.parameters.arguments ∧ read.value valuation = mysqlValue valuation call

/-! ## Reading the call -/

theorem readElements_trees (parameters : CallParameters) {behind : Tree}
    (closing : behind.getType ≠ .comma) (rest : List Tree) :
    readElements (parameters.trees ++ behind :: rest) =
      some (parameters.arguments, behind :: rest) := by
  obtain ⟨first, more⟩ := parameters
  rw [CallParameters.trees, CallParameters.arguments, List.cons_append]
  induction more generalizing first with
  | nil => simp [readElements, CallParameter.tree, closing]
  | cons pair more ih =>
    obtain ⟨comma, second⟩ := pair
    have isComma : comma.1.type = .comma := List.mem_singleton.mp comma.2
    have behindFirst := ih second
    simp only [List.flatMap_cons, List.cons_append, List.nil_append, List.map_cons]
    rw [readElements, behindFirst]
    simp [CallParameter.tree, isComma]

/-- CONCAT is read as a call with an empty separator. -/
theorem readArrayToString_concat (parameters : CallParameters) :
    readArrayToString (Concatenation.trees (.concat parameters)) =
      some ⟨parameters.arguments, none⟩ := by
  have closing : (Tree.leaf (.imaginary .rparen "], '')")).getType ≠ .comma := by
    simp [Token.imaginary]
  have elements := readElements_trees parameters closing []
  have opens : (Tree.leaf (.imaginary .lparen " ARRAY_TO_STRING(ARRAY[")).getText =
      " ARRAY_TO_STRING(ARRAY[" := rfl
  have closes : (Tree.leaf (.imaginary .rparen "], '')")).getText = "], '')" := rfl
  rw [Concatenation.trees, List.cons_append, readArrayToString, if_pos opens, elements]
  simp only [Option.bind_some, closes, ↓reduceIte]

/-- CONCAT_WS is read as a call with its first argument for the separator. -/
theorem readArrayToString_concatWs (separator : SqlIdentifier) (parameters : CallParameters)
    (rparen : TokenIn [.rparen]) :
    readArrayToString (Concatenation.trees (.concatWs separator parameters rparen)) =
      some ⟨parameters.arguments, some (.leaf separator.1)⟩ := by
  have closing : (transform "], ").getType ≠ .comma := by
    simp [transform, Token.imaginary]
  have elements := readElements_trees parameters closing [.leaf separator.1, leafOf rparen]
  have opens : (Tree.leaf (.imaginary .lparen " ARRAY_TO_STRING(ARRAY[")).getText =
      " ARRAY_TO_STRING(ARRAY[" := rfl
  have closes : (leafOf rparen).getType = .rparen := List.mem_singleton.mp rparen.2
  rw [Concatenation.trees, List.cons_append, readArrayToString, if_pos opens, elements]
  simp only [Option.bind_some, transform, Tree.getText_leaf, Token.imaginary, closes, and_self,
    ↓reduceIte]

/-! ## The values -/

theorem intercalate_empty (texts : List String) : "".intercalate texts = String.join texts := by
  induction texts with
  | nil => rfl
  | cons text rest ih =>
    cases rest with
    | nil => simp
    | cons next rest =>
      rw [String.intercalate_cons_cons, ih, String.append_empty, String.join_cons,
        String.join_cons, String.join_cons]

/-- The joined elements are the concatenation exactly when none of them is NULL. -/
theorem arrayToString_eq_concat_iff (elements : List Value) :
    arrayToString elements (some "") = concat elements ↔ none ∉ elements := by
  rw [arrayToString, concat, Option.map_some, intercalate_empty]
  split
  · next null => exact iff_of_false (by simp) (not_not.mpr null)
  · next plain => exact iff_of_true rfl plain

/-- A call that is read with its arguments in order keeps its value when the values agree. -/
private theorem keeps_of_read {valuation : Tree → Value} {call : Concatenation}
    {read : ArrayToString} (taken : readArrayToString call.trees = some read)
    (order : read.elements = call.parameters.arguments) :
    Keeps valuation call ↔ read.value valuation = mysqlValue valuation call := by
  constructor
  · rintro ⟨other, own, -, same⟩
    obtain rfl := Option.some.inj (taken.symm.trans own)
    exact same
  · exact fun same => ⟨read, taken, order, same⟩

theorem keeps_concat_iff (valuation : Tree → Value) (parameters : CallParameters) :
    Keeps valuation (.concat parameters) ↔
      ∀ argument ∈ parameters.arguments, valuation argument ≠ none := by
  rw [keeps_of_read (readArrayToString_concat parameters) rfl]
  refine Iff.trans (arrayToString_eq_concat_iff (parameters.arguments.map valuation)) ?_
  simp only [List.mem_map, not_exists, not_and, ne_eq]

theorem keeps_concatWs (valuation : Tree → Value) (separator : SqlIdentifier)
    (parameters : CallParameters) (rparen : TokenIn [.rparen]) :
    Keeps valuation (.concatWs separator parameters rparen) := by
  rw [keeps_of_read (readArrayToString_concatWs separator parameters rparen) rfl]
  simp only [ArrayToString.value, Option.elim_some, arrayToString, mysqlValue, concatWs]
  cases valuation (.leaf separator.1) <;> rfl

/-- CONCAT_WS always keeps its value; CONCAT does exactly when no argument is NULL. -/
theorem keeps_iff (valuation : Tree → Value) (call : Concatenation) :
    Keeps valuation call ↔
      ∀ parameters, call = .concat parameters →
        ∀ argument ∈ parameters.arguments, valuation argument ≠ none := by
  cases call with
  | concat parameters =>
    rw [keeps_concat_iff]
    constructor
    · intro plain other same
      cases same
      exact plain
    · exact fun plain => plain parameters rfl
  | concatWs separator parameters rparen =>
    exact iff_of_true (keeps_concatWs valuation separator parameters rparen)
      fun _ other => nomatch other

/-! ## A NULL among the arguments -/

section Null

private def word (type : TokenType) (text : String) : Token :=
  ⟨type, text, .default, 1, 0⟩

private def parameter (token : Token) (inert : token.type.isInert = true) : CallParameter :=
  ⟨[.leaf token], List.cons_ne_nil _ _, fun x member => by
    rw [List.mem_singleton.mp member]
    exact walkable_leaf inert⟩

/-- `CONCAT('a', NULL)` -/
private def call : CallParameters where
  first := parameter (word .quotedString "E'a'") rfl
  rest := [(⟨word .comma ",", List.mem_singleton_self _⟩, parameter (word .kNull "NULL") rfl)]

/-- The literal is a string, everything else is NULL. -/
private def valuation (x : Tree) : Value :=
  if x.children.all (hasType .quotedString) then some "a" else none

/-- PostgreSQL has `a` where MySQL has NULL. -/
theorem not_keeps_null : ¬ Keeps valuation (.concat call) := by
  rw [keeps_concat_iff]
  intro plain
  have null := plain (parameter (word .kNull "NULL") rfl).tree
    (by simp [call, CallParameters.arguments])
  exact null rfl

end Null

end Pgify.Concat
