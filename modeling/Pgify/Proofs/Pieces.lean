import Pgify.Proofs.DumpScript
import Pgify.Proofs.History

/-! # Scripts in pieces

A script may be cut between any two statements and handed to `pgify_string_s` piece by piece on one
walker state: the bodies and the generated statements of the calls are together those of one call.
Only the place of the generated statements is another one, and with one call for each statement they
stand right behind the statement that they are generated for.
-/

namespace Pgify.Pieces

open Model SearchPath WalkLocality

/-- The statements of one call, with its EOF. -/
structure Piece where
  eof : TokenIn [.eof]
  statements : List Statement

/-- What a call prints: the leaves of a tree, and the generated statements behind them. -/
structure Output where
  langAST : Option Tree
  generated : String

/-- The state behind a call, which has printed the postbuf. -/
def flushed (ws : WalkerState) : WalkerState :=
  { ws with postbuf := "" }

theorem flushed_of_settled {ws : WalkerState} (settled : ws.postbuf = "") : flushed ws = ws := by
  rw [flushed, ← settled]

theorem flushed_flushed (ws : WalkerState) : flushed (flushed ws) = flushed ws := rfl

/-- The calls for the pieces, one after the other. Each prints the postbuf and empties it. -/
def translate (rt : Runtime) : List Piece → WalkerState → Option (List Output × WalkerState)
  | [], ws => some ([], ws)
  | piece :: rest, ws =>
    (pgify rt ws (startRuleTree piece.eof piece.statements)).bind fun (walked, langAST) =>
      (translate rt rest (flushed walked)).map fun (outputs, last) =>
        (⟨langAST, walked.postbuf⟩ :: outputs, last)

def leaves (outputs : List Output) : List Tree :=
  outputs.flatMap fun output => printedLeaves output.langAST

def generated (outputs : List Output) : String :=
  String.join (outputs.map Output.generated)

section Statements

variable (rt : Runtime) (ws : WalkerState)

/-- The statements behind a postbuf do what they do behind none. -/
theorem resume_statements (statements : List Statement) :
    flushed (runStatements rt ws statements) =
        flushed (runStatements rt (flushed ws) statements) ∧
      (runStatements rt ws statements).postbuf =
        ws.postbuf ++ (runStatements rt (flushed ws) statements).postbuf ∧
      walkedForest rt ws statements = walkedForest rt (flushed ws) statements := by
  have alone := resume (walkChildren_local rt (statements.flatMap Statement.trees)) ws
    (flushed ws) rfl rfl rfl
  rw [walkChildren_statements, walkChildren_statements, Option.map_some, Option.some.injEq,
    Prod.mk.injEq] at alone
  have walk := walkChildren_statements rt (flushed ws) statements
  obtain ⟨options, foundRows, -⟩ :=
    kept (walkChildren_local rt (statements.flatMap Statement.trees)) walk
  refine ⟨?_, congrArg WalkerState.postbuf alone.1, alone.2⟩
  rw [alone.1, flushed, flushed, WalkerState.mk.injEq]
  exact ⟨rfl, rfl, options.symm, foundRows.symm⟩

/-- The calls for the pieces do together what one run over all their statements does. -/
theorem translate_eq (pieces : List Piece) (settled : ws.postbuf = "") :
    ∃ outputs, translate rt pieces ws =
        some (outputs, flushed (runStatements rt ws (pieces.flatMap Piece.statements))) ∧
      leaves outputs = leavesOf (walkedForest rt ws (pieces.flatMap Piece.statements)) ∧
      generated outputs = (runStatements rt ws (pieces.flatMap Piece.statements)).postbuf := by
  induction pieces generalizing ws with
  | nil =>
    refine ⟨[], ?_, rfl, settled.symm⟩
    rw [translate, List.flatMap_nil, runStatements, List.foldl_nil, flushed_of_settled settled]
  | cons piece rest ih =>
    obtain ⟨tree, walk, own⟩ := pgify_startRuleTree rt ws piece.eof piece.statements
    set walked := runStatements rt ws piece.statements with walkedDef
    obtain ⟨outputs, behind, leavesBehind, generatedBehind⟩ := ih (flushed walked) rfl
    obtain ⟨state, postbuf, forest⟩ := resume_statements rt walked (rest.flatMap Piece.statements)
    have whole : runStatements rt ws ((piece :: rest).flatMap Piece.statements) =
        runStatements rt walked (rest.flatMap Piece.statements) := by
      rw [List.flatMap_cons, runStatements, List.foldl_append]
      rfl
    have wholeForest : walkedForest rt ws ((piece :: rest).flatMap Piece.statements) =
        walkedForest rt ws piece.statements ++
          walkedForest rt walked (rest.flatMap Piece.statements) := by
      rw [List.flatMap_cons, walkedForest, statementStates_append, List.flatMap_append]
      rfl
    refine ⟨⟨tree, walked.postbuf⟩ :: outputs, ?_, ?_, ?_⟩
    · simp only [translate, walk, Option.bind_some, behind, Option.map_some, whole, state]
    · rw [leaves, List.flatMap_cons, ← leaves, leavesBehind, own, wholeForest, leavesOf_append,
        ← forest]
    · rw [generated, List.map_cons, String.join_cons, ← generated, generatedBehind, whole, postbuf]

end Statements

/-- From every state that calls leave behind: a script that is cut between two of its statements
anywhere, and as often as one likes, has the same leaves in the same order, the same generated
statements in the same order, and leaves the same state as the script in one call. -/
theorem pieces_compose (rt : Runtime) (options : ℕ) (use : Option String) (eof : TokenIn [.eof])
    (pieces : List Piece) :
    ∃ outputs last tree ws,
      translate rt pieces (History.stateAfter options use) = some (outputs, last) ∧
      pgify rt (History.stateAfter options use)
          (startRuleTree eof (pieces.flatMap Piece.statements)) = some (ws, tree) ∧
      leaves outputs = printedLeaves tree ∧ generated outputs = ws.postbuf ∧
      last = flushed ws := by
  obtain ⟨outputs, calls, sameLeaves, sameGenerated⟩ :=
    translate_eq rt (History.stateAfter options use) pieces rfl
  obtain ⟨tree, walk, own⟩ := pgify_startRuleTree rt (History.stateAfter options use) eof
    (pieces.flatMap Piece.statements)
  exact ⟨outputs, _, tree, _, calls, walk, sameLeaves.trans own.symm, sameGenerated, rfl⟩

/-! ## One call for each statement -/

section Dumps

open DumpScript

variable (rt : Runtime) {ws ws' : WalkerState}

private theorem schemaName_flushed (same : flushed ws = flushed ws') :
    ws.schemaName = ws'.schemaName :=
  (WalkerState.mk.inj same).1

/-- The walk of a tree does not look at the postbuf. -/
theorem walkedTree_flushed (same : flushed ws = flushed ws') :
    walkedTree rt ws = walkedTree rt ws' := by
  funext x
  obtain ⟨g, run⟩ := walkChild_local rt x
  have foundRows : walker.context ws = walker.context ws' := (WalkerState.mk.inj same).2.2.2
  have schemaName : walker.register ws = walker.register ws' := schemaName_flushed same
  simp only at run
  rw [walkedTree, walkedTree, run, run, foundRows, schemaName]
  cases g (walker.context ws') (walker.register ws') <;> rfl

theorem walked_flushed (same : flushed ws = flushed ws') (table : CreateTable) :
    table.walked rt ws = table.walked rt ws' := by
  have trees := walkedTree_flushed rt same
  have options : TableOption.walked rt ws = TableOption.walked rt ws' := by
    funext option
    simp only [TableOption.walked, trees]
  have select : walkedSelect rt ws = walkedSelect rt ws' := by
    funext select
    simp only [walkedSelect, trees]
  simp only [CreateTable.walked, ColumnDef.walked, trees, options, select]

theorem generated_flushed (same : flushed ws = flushed ws') (statement : Statement) :
    statement.generated rt ws = statement.generated rt ws' := by
  cases statement with
  | createTable table built =>
    rw [Statement.generated, Statement.generated, walked_flushed rt same, schemaName_flushed same]
  | _ => rfl

theorem effect_flushed (same : flushed ws = flushed ws') (statement : Statement) :
    flushed (statement.effect rt ws) = flushed (statement.effect rt ws') := by
  cases statement with
  | use keyword schema semi spelled =>
    obtain ⟨-, -, options, foundRows⟩ := WalkerState.mk.inj same
    rw [flushed, flushed, WalkerState.mk.injEq]
    exact ⟨rfl, rfl, options, foundRows⟩
  | _ => exact same

variable {ν : Type*} (server : Server ν)

theorem entries_flushed (same : flushed ws = flushed ws') (dump : List DumpStatement) :
    entries server rt ws dump = entries server rt ws' dump := by
  induction dump generalizing ws ws' with
  | nil => rfl
  | cons statement rest ih =>
    rw [entries, entries, alterations, alterations, generated_flushed rt same,
      ih (effect_flushed rt same statement.statement)]

theorem entries_append (ws : WalkerState) (first second : List DumpStatement) :
    entries server rt ws (first ++ second) =
      entries server rt ws first ++
        entries server rt (runStatements rt ws (statements first)) second := by
  induction first generalizing ws with
  | nil => rfl
  | cons statement rest ih => exact congrArg _ (ih (statement.statement.effect rt ws))

/-- What the calls for the pieces print, each with its generated statements at its end. -/
def printedPieces : WalkerState → List (List DumpStatement) → List (Catalog.Sql ν)
  | _, [] => []
  | ws, piece :: rest =>
    printed server rt ws piece ++
      printedPieces (flushed (runStatements rt ws (statements piece))) rest

/-- The pieces with what is generated for each of their statements. -/
def entriesPieces : WalkerState → List (List DumpStatement) → List (List (Catalog.Entry ν))
  | _, [] => []
  | ws, piece :: rest =>
    entries server rt ws piece ::
      entriesPieces (flushed (runStatements rt ws (statements piece))) rest

theorem printedPieces_eq_deferred (ws : WalkerState) (pieces : List (List DumpStatement)) :
    printedPieces rt server ws pieces =
      (entriesPieces rt server ws pieces).flatMap Catalog.deferred := by
  induction pieces generalizing ws with
  | nil => rfl
  | cons piece rest ih =>
    rw [printedPieces, ih, printed_eq_deferred, entriesPieces, List.flatMap_cons]

theorem flatten_entriesPieces (ws : WalkerState) (pieces : List (List DumpStatement)) :
    (entriesPieces rt server ws pieces).flatten = entries server rt ws pieces.flatten := by
  induction pieces generalizing ws with
  | nil => rfl
  | cons piece rest ih =>
    rw [entriesPieces, List.flatten_cons, List.flatten_cons, ih, entries_append]
    exact congrArg _ (entries_flushed rt server (flushed_flushed _) rest.flatten)

theorem entriesPieces_single (ws : WalkerState) (dump : List DumpStatement) :
    entriesPieces rt server ws (dump.map fun statement => [statement]) =
      (entries server rt ws dump).map fun entry => [entry] := by
  induction dump generalizing ws with
  | nil => rfl
  | cons statement rest ih =>
    rw [List.map_cons, entriesPieces, ih]
    exact congrArg (fun behind => _ :: List.map (fun entry => [entry]) behind)
      (entries_flushed rt server (flushed_flushed (statement.statement.effect rt ws)) rest)

/-- The generated statements of each call. -/
def emittedPieces : WalkerState → List Piece → List (List Generated)
  | _, [] => []
  | ws, piece :: rest =>
    emitted rt ws piece.statements ::
      emittedPieces (flushed (runStatements rt ws piece.statements)) rest

/-- Each call prints the statements that are generated for its piece. -/
theorem translate_generated {pieces : List Piece} {outputs : List Output} {last : WalkerState}
    (settled : ws.postbuf = "") (ran : translate rt pieces ws = some (outputs, last)) :
    outputs.map Output.generated =
      (emittedPieces rt ws pieces).map fun generated =>
        String.join (generated.map Generated.text) := by
  induction pieces generalizing ws outputs with
  | nil => cases ran; rfl
  | cons piece rest ih =>
    obtain ⟨tree, walk, -⟩ := pgify_startRuleTree rt ws piece.eof piece.statements
    simp only [translate, walk, Option.bind_some] at ran
    obtain ⟨⟨behind, state⟩, calls, result⟩ := Option.map_eq_some_iff.mp ran
    cases result
    rw [List.map_cons, ih rfl calls, postbuf_runStatements, settled, String.empty_append]
    rfl

variable [DecidableEq ν]

/-- Calls for pieces that are undisturbed in themselves do to the database what the dump does with
each generated statement in place. -/
theorem run_printedPieces {pieces : List (List DumpStatement)} {path : List ν}
    (deferrable : Catalog.DeferrablePieces path (entriesPieces rt server ws pieces))
    (state : Catalog.State ν) :
    Catalog.run (printedPieces rt server ws pieces) ⟨path, state⟩ =
      Catalog.run (inPlace server rt ws pieces.flatten) ⟨path, state⟩ := by
  rw [printedPieces_eq_deferred, Catalog.run_deferredPieces deferrable, flatten_entriesPieces]
  rfl

end Dumps

end Pgify.Pieces
