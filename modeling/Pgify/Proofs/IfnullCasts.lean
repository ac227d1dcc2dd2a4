import Pgify.Model.Expressions
import Pgify.Model.Printer

/-! # The casts of IFNULL

The rewrite appends `::text` to both arguments. PostgreSQL lets it bind tighter than a sign and than
every operator between operands: it casts an argument as a whole exactly when the argument is one
operand, or ends in AT LOCAL and has nothing looser than that.
-/

namespace Pgify.IfnullCasts

open Model OperatorPrecedence

abbrev PgExpr := Expr Operand Operator

/-! ## What PostgreSQL reads -/

/-- PostgreSQL's operators from loose to tight; `||` and `**` have the rank of all operators without
one of their own, PRIOR and CONNECT_BY_ROOT are none. -/
def pgTable : Operator → Option (Fixity × ℕ)
  | .like _ => some (.between, 1)
  | .pow _ => some (.between, 2)
  | .add token => some (.between, if token.1.type = .other 137 then 2 else 3)
  | .mul _ => some (.between, 4)
  | .atTimeZone _ _ _ => some (.between, 5)
  | .atLocal _ _ => some (.behind, 5)
  | .sign token =>
    if token.1.type = .other 135 ∨ token.1.type = .other 136 then some (.before, 6) else none
  | .cast => some (.behind, 7)

/-- What stands outside of the brackets of the operands in a call. -/
inductive Lexeme where
  | name (tree : Tree)
  | opening (tree : Tree)
  | item (own : ExprItem)
  | comma (tree : Tree)
  | closing (tree : Tree)

def Lexeme.trees : Lexeme → List Tree
  | name tree => [tree]
  | opening tree => [tree]
  | item own => itemTrees own
  | comma tree => [tree]
  | closing tree => [tree]

/-- The arguments up to the closing parenthesis. -/
def splitArguments : List Lexeme → Option (List (List ExprItem))
  | [.closing _] => some [[]]
  | .comma _ :: rest => (splitArguments rest).map ([] :: ·)
  | .item item :: rest =>
    (splitArguments rest).map fun arguments => (item :: arguments.headD []) :: arguments.tail
  | _ => none

/-- A call: the name, and the arguments read by precedence. -/
def readCall : List Lexeme → Option (String × List PgExpr)
  | .name name :: .opening _ :: rest =>
    (splitArguments rest).bind fun arguments =>
      (arguments.mapM (parse pgTable)).map fun read => (name.getText, read)
  | _ => none

/-- An argument with the cast behind it. -/
def castArgument (argument : NestedExpression) : List ExprItem :=
  argument.1 ++ [.operator .cast]

/-- The text of the rewritten call. -/
def lexemes (call : Ifnull) : List Lexeme :=
  .name (transform " COALESCE ") :: .opening (leafOf call.lparen) ::
    ((castArgument call.first).map Lexeme.item ++ .comma (leafOf call.comma) ::
      ((castArgument call.second).map Lexeme.item ++ [.closing (leafOf call.rparen)]))

/-- The tree prints a call of COALESCE in which PostgreSQL reads two casts of the arguments as a
whole. -/
def CastsWhole (call : Ifnull) : Prop :=
  leavesOf [call.call.tree] = leavesOf ((lexemes call).flatMap Lexeme.trees) ∧
  ∃ first second, readCall (lexemes call) =
      some (" COALESCE ", [.behind first .cast, .behind second .cast]) ∧
    first.items = call.first.1 ∧ second.items = call.second.1

/-! ## When an argument is cast as a whole -/

/-- An operator that AT LOCAL completes, or AT LOCAL itself. -/
def Tight : Operator → Prop
  | .sign token => token.1.type = .other 135 ∨ token.1.type = .other 136
  | .atTimeZone _ _ _ => True
  | .atLocal _ _ => True
  | _ => False

def IsAtLocal : Operator → Prop
  | .atLocal _ _ => True
  | _ => False

/-- There is no operator outside of brackets, or the last one is AT LOCAL and the others are signs
and AT TIME ZONE. -/
def Whole (items : List ExprItem) : Prop :=
  (∀ operator ∈ operators items, Tight operator) ∧
    ∀ operator ∈ (operators items).getLast?, IsAtLocal operator

/-- A rewrite's own cast is no operator of the input. -/
private theorem ne_cast {rule : ExprRule} {items : List ExprItem} (derives : Derives rule items) :
    ∀ operator ∈ operators items, operator ≠ .cast := by
  induction derives with
  | operand operand => simp
  | atLocal operand word place => simp
  | atTimeZone operand word time zone _ ih => simpa using ih
  | ofExpr _ ih | ofLike _ ih | ofPow _ ih | ofSign _ ih | ofMul _ ih => exact ih
  | like _ token pattern ih => simpa [or_imp, forall_and] using ih
  | sign token _ ih => simpa using ih
  | pow _ token _ left right | mul _ token _ left right | add _ token _ left right =>
    rw [operators_append, operators_operator, List.forall_mem_append, List.forall_mem_cons]
    exact ⟨left, nofun, right⟩

/-- PostgreSQL reads a derived expression when it knows all its operators. -/
private theorem readable {rule : ExprRule} {items : List ExprItem} (derives : Derives rule items)
    (known : ∀ operator ∈ operators items, ∃ fixity rank,
      pgTable operator = some (fixity, rank)) : Readable pgTable items := by
  induction derives with
  | operand operand => exact readable_operand operand
  | atLocal operand word place =>
    have rank : pgTable (.atLocal word place) = some (.behind, 5) := rfl
    exact (readable_operand operand).behind rank
  | atTimeZone operand word time zone _ ih =>
    rw [operators_operand, operators_operator, List.forall_mem_cons] at known
    have rank : pgTable (.atTimeZone word time zone) = some (.between, 5) := rfl
    exact (readable_operand operand).between (ih known.2) rank
  | ofExpr _ ih | ofLike _ ih | ofPow _ ih | ofSign _ ih | ofMul _ ih => exact ih known
  | like _ token pattern ih =>
    rw [operators_append, List.forall_mem_append] at known
    have rank : pgTable (.like token) = some (.between, 1) := rfl
    exact (ih known.1).between (readable_operand _) rank
  | sign token _ ih =>
    rw [operators_operator, List.forall_mem_cons] at known
    obtain ⟨⟨fixity, rank, own⟩, behind⟩ := known
    have before : fixity = .before := by
      rw [pgTable] at own
      split at own
      · cases own
        rfl
      · cases own
    exact (ih behind).before (before ▸ own)
  | pow _ token _ left right =>
    rw [operators_append, operators_operator, List.forall_mem_append, List.forall_mem_cons] at known
    have rank : pgTable (.pow token) = some (.between, 2) := rfl
    exact (left known.1).between (right known.2.2) rank
  | mul _ token _ left right =>
    rw [operators_append, operators_operator, List.forall_mem_append, List.forall_mem_cons] at known
    have rank : pgTable (.mul token) = some (.between, 4) := rfl
    exact (left known.1).between (right known.2.2) rank
  | add _ token _ left right =>
    rw [operators_append, operators_operator, List.forall_mem_append, List.forall_mem_cons] at known
    exact (left known.1).between (right known.2.2) rfl

private theorem tight_iff {operator : Operator} (input : operator ≠ .cast) :
    Tight operator ↔ ∃ fixity rank, pgTable operator = some (fixity, rank) ∧ 5 ≤ rank := by
  cases operator with
  | add token =>
    simp only [Tight, pgTable, Option.some.injEq, Prod.mk.injEq, false_iff]
    rintro ⟨fixity, rank, ⟨-, rfl⟩, bound⟩
    split at bound <;> omega
  | sign token => simp [Tight, pgTable]
  | cast => exact (input rfl).elim
  | mul | pow | like | atLocal | atTimeZone => simp [Tight, pgTable]

private theorem isAtLocal_iff {operator : Operator} (input : operator ≠ .cast) :
    IsAtLocal operator ↔ ∃ rank, pgTable operator = some (.behind, rank) := by
  cases operator with
  | cast => exact (input rfl).elim
  | add | mul | pow | like | atLocal | atTimeZone | sign => simp [IsAtLocal, pgTable]

private theorem rank_lt {operator : Operator} (input : operator ≠ .cast) {fixity : Fixity}
    {rank : ℕ} (known : pgTable operator = some (fixity, rank)) : rank < 7 := by
  cases operator with
  | add token =>
    cases known
    split <;> omega
  | sign token =>
    rw [pgTable] at known
    split at known
    · cases known
      omega
    · cases known
  | cast => exact (input rfl).elim
  | mul | pow | like | atLocal | atTimeZone =>
    cases known
    omega

private theorem behind_rank {operator : Operator} (input : operator ≠ .cast) {rank : ℕ}
    (known : pgTable operator = some (.behind, rank)) : rank = 5 := by
  cases operator with
  | cast => exact (input rfl).elim
  | atLocal =>
    cases known
    rfl
  | sign token =>
    rw [pgTable] at known
    split at known
    · cases known
    · cases known
  | add | mul | pow | like | atTimeZone => cases known

/-- The cast behind an argument takes the whole of it. -/
private theorem cast_iff (argument : NestedExpression) :
    (∃ e, parse pgTable (castArgument argument) = some (.behind e .cast)) ↔
      Whole argument.1 := by
  obtain ⟨items, derives⟩ := argument
  have input := ne_cast derives
  have behind : ∀ operator ∈ operators items, ∀ rank,
      pgTable operator = some (.behind, rank) → rank = 5 := by
    intro operator member rank known
    exact behind_rank (input operator member) known
  have tightest : ∀ operator ∈ operators items, ∀ fixity rank,
      pgTable operator = some (fixity, rank) → rank < 7 :=
    fun operator member _ _ known => rank_lt (input operator member) known
  have known : pgTable .cast = some (.behind, 7) := rfl
  rw [castArgument, parse_behind_iff known tightest]
  constructor
  · rintro ⟨e, read⟩
    obtain ⟨tight, last⟩ := (frames_eq_nil_iff read behind).mp rfl
    have known := known_of_run read
    constructor
    · intro operator member
      obtain ⟨fixity, rank, own⟩ := known operator member
      exact (tight_iff (input operator member)).mpr
        ⟨fixity, rank, own, tight operator member fixity rank own⟩
    · intro operator isLast
      exact (isAtLocal_iff (input operator (List.mem_of_getLast? isLast))).mpr
        (last operator isLast)
  · rintro ⟨tight, last⟩
    have ranks (operator : Operator) (member : operator ∈ operators items) :=
      (tight_iff (input operator member)).mp (tight operator member)
    obtain ⟨frames, e, read⟩ := readable derives (fun operator member => by
      obtain ⟨fixity, rank, own, -⟩ := ranks operator member
      exact ⟨fixity, rank, own⟩) []
    have nothing : frames = [] := by
      refine (frames_eq_nil_iff read behind).mpr ⟨?_, ?_⟩
      · intro operator member fixity rank known
        obtain ⟨fixity', rank', own, bound⟩ := ranks operator member
        cases own.symm.trans known
        exact bound
      · intro operator isLast
        exact (isAtLocal_iff (input operator (List.mem_of_getLast? isLast))).mp
          (last operator isLast)
    exact ⟨e, nothing ▸ read⟩

/-! ## The call -/

private theorem splitArguments_items (items : List ExprItem) {rest : List Lexeme}
    {first : List ExprItem} {more : List (List ExprItem)}
    (split : splitArguments rest = some (first :: more)) :
    splitArguments (items.map Lexeme.item ++ rest) = some ((items ++ first) :: more) := by
  induction items with
  | nil => exact split
  | cons item items ih => simp [splitArguments, ih]

private theorem splitArguments_two (first second : List ExprItem) (comma rparen : Tree) :
    splitArguments (first.map Lexeme.item ++ .comma comma ::
      (second.map Lexeme.item ++ [.closing rparen])) = some [first, second] := by
  have last : splitArguments (second.map Lexeme.item ++ [.closing rparen]) = some [second] := by
    have closed : splitArguments [.closing rparen] = some [[]] := rfl
    rw [splitArguments_items second closed, List.append_nil]
  have behind : splitArguments (.comma comma :: (second.map Lexeme.item ++ [.closing rparen])) =
      some [[], second] := by
    rw [splitArguments, last, Option.map_some]
  rw [splitArguments_items first behind, List.append_nil]

private theorem readCall_lexemes (call : Ifnull) :
    readCall (lexemes call) = ([castArgument call.first, castArgument call.second].mapM
      (parse pgTable)).map fun read => (" COALESCE ", read) := by
  rw [lexemes, readCall, splitArguments_two, Option.bind_some]
  rfl

private theorem leavesOf_lexemes (call : Ifnull) :
    leavesOf [call.call.tree] = leavesOf ((lexemes call).flatMap Lexeme.trees) := by
  have argument (parameter : CallParameter) : leavesOf [parameter.tree] = leavesOf parameter.1 :=
    leavesOf_node _ parameter.2.1
  have spelled (expression : NestedExpression) :
      ((castArgument expression).map Lexeme.item).flatMap Lexeme.trees =
        (NestedExpression.parameter expression).1 ++ [transform "::text "] := by
    rw [castArgument, List.map_append, List.flatMap_append, List.flatMap_map]
    rfl
  have printed : (lexemes call).flatMap Lexeme.trees =
      [transform " COALESCE ", leafOf call.lparen] ++ call.call.first.1 ++
        [transform "::text ", leafOf call.comma] ++ call.call.second.1 ++
        [transform "::text ", leafOf call.rparen] := by
    simp [lexemes, spelled, Lexeme.trees, Ifnull.call]
  have children : call.call.tree.children =
      [transform " COALESCE ", leafOf call.lparen] ++ [call.call.first.tree] ++
        [transform "::text ", leafOf call.comma] ++ [call.call.second.tree] ++
        [transform "::text ", leafOf call.rparen] := rfl
  have below : leavesOf [call.call.tree] = leavesOf call.call.tree.children :=
    leavesOf_node _ (List.cons_ne_nil _ _)
  rw [below, children, printed]
  simp only [leavesOf_append, argument]

private theorem whole_of_castsWhole {call : Ifnull} (casts : CastsWhole call) :
    Whole call.first.1 ∧ Whole call.second.1 := by
  obtain ⟨-, first, second, read, -⟩ := casts
  rw [readCall_lexemes] at read
  simp only [List.mapM_cons, List.mapM_nil, Option.map_eq_some_iff, Option.bind_eq_bind,
    Option.bind_eq_some_iff, Option.pure_def, Option.some.injEq, Prod.mk.injEq] at read
  obtain ⟨_, ⟨_, readFirst, _, ⟨_, readSecond, _, rfl, rfl⟩, rfl⟩, -, same⟩ := read
  cases same
  exact ⟨(cast_iff call.first).mp ⟨first, readFirst⟩,
    (cast_iff call.second).mp ⟨second, readSecond⟩⟩

section Sum

private def lexeme (type : TokenType) (text : String) : Token :=
  ⟨type, text, .default, 1, 0⟩

private def column (text : String) : Operand :=
  ⟨[.leaf (lexeme .id text)], List.cons_ne_nil _ _,
    List.forall_mem_singleton.mpr (walkable_leaf rfl)⟩

private def sum : NestedExpression :=
  ⟨[.operand (column "a"), .operator (.add ⟨lexeme (.other 135) "+", by decide⟩),
      .operand (column "b")],
    .add (derives_operand (column "a")) ⟨lexeme (.other 135) "+", by decide⟩
      (.ofSign (.ofPow (.ofLike (.ofExpr (.operand (column "b"))))))⟩

/-- `IFNULL(a + b, c)` -/
private def ifnullSum : Ifnull where
  lparen := ⟨lexeme .lparen "(", by decide⟩
  first := sum
  comma := ⟨lexeme .comma ",", by decide⟩
  second := ⟨[.operand (column "c")], derives_operand (column "c")⟩
  rparen := ⟨lexeme .rparen ")", by decide⟩

end Sum

end Pgify.IfnullCasts
