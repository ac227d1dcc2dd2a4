import Pgify.Model.Calls
import Pgify.Proofs.WalkLocality

/-! # What a walker state remembers

Behind any sequence of calls the walker state is the fresh one with the schema name of the last USE.
A call from there is therefore the same for all histories that agree on the last USE, and what it
appends to its body is generated from its own statements, each behind the last USE in front of it.
-/

namespace Pgify.History

open Model WalkLocality

variable {ι : Type*} (front : Frontend ι)

/-- The identifiers that the USE statements of an input name, in the order of the walk. -/
def usesOfInput (options : ℕ) (input : ι) : List String :=
  (front.startRule options input).elim [] usesBelow

/-- The last USE of a history, if there is one. -/
def lastUse (options : ℕ) (history : List (Runtime × ι)) : Option String :=
  (history.flatMap fun call => usesOfInput front options call.2).getLast?

/-- The walker state of which only the last USE is remembered. -/
def stateAfter (options : ℕ) (use : Option String) : WalkerState :=
  ⟨use.elim "" fun name => s!"{name}.", "", options, 1⟩

/-- The trees below the root of the AST of an input. -/
def statementsOf (options : ℕ) (input : ι) : List Tree :=
  (front.startRule options input).elim [] Tree.children

/-- What a statement generates behind a USE. -/
def generatedBy (rt : Runtime) (use : Option String) (statement : Tree) : String :=
  ((walkChild rt (stateAfter 0 use) statement).map fun walked => walked.1.postbuf).getD ""

/-- What each statement generates behind the last USE in front of it. -/
def generatedTexts (rt : Runtime) : Option String → List Tree → List String
  | _, [] => []
  | use, statement :: rest =>
    generatedBy rt use statement :: generatedTexts rt ((usesOf [statement]).getLast?.or use) rest

/-! ## One input -/

theorem usesOf_append (first second : List Tree) :
    usesOf (first ++ second) = usesOf first ++ usesOf second := by
  induction first with
  | nil => rfl
  | cons x rest ih => simp only [List.cons_append, usesOf, ih, List.append_assoc]

theorem generatedTexts_append (rt : Runtime) (use : Option String) (first second : List Tree) :
    generatedTexts rt use (first ++ second) = generatedTexts rt use first ++
      generatedTexts rt ((usesOf first).getLast?.or use) second := by
  induction first generalizing use with
  | nil => simp [generatedTexts, usesOf]
  | cons x rest ih =>
    have uses : usesOf (x :: rest) = usesOf [x] ++ usesOf rest := usesOf_append [x] rest
    rw [List.cons_append, generatedTexts, ih, generatedTexts, List.cons_append, uses,
      List.getLast?_append, Option.or_assoc]

theorem schemaNameAfter_stateAfter (options : ℕ) (use : Option String) (uses : List String) :
    schemaNameAfter (stateAfter options use).schemaName uses =
      (stateAfter options (uses.getLast?.or use)).schemaName := by
  rw [schemaNameAfter]
  cases uses.getLast? <;> rfl

/-- The statements of an input append what each of them generates, in order. -/
theorem walkChildren_postbuf {rt : Runtime} {ws ws' : WalkerState} {use : Option String}
    {l l' : List Tree} (schemaName : ws.schemaName = (stateAfter 0 use).schemaName)
    (foundRows : ws.foundRows = 1) (run : walkChildren rt ws l = some (ws', l')) :
    ws'.postbuf = ws.postbuf ++ String.join (generatedTexts rt use l) := by
  induction l generalizing ws l' use with
  | nil =>
    rw [walkChildren_nil] at run
    cases run
    simp [generatedTexts]
  | cons x rest ih =>
    rw [walkChildren_cons] at run
    obtain ⟨⟨ws₁, x'⟩, walked, run⟩ := Option.bind_eq_some_iff.mp run
    obtain ⟨⟨ws₂, rest'⟩, walkedRest, result⟩ := Option.map_eq_some_iff.mp run
    cases result
    have alone := resume (walkChild_local rt x) ws (stateAfter 0 use) schemaName.symm
      foundRows.symm rfl
    rw [walked] at alone
    obtain ⟨fresh, freshWalk, same⟩ := Option.map_eq_some_iff.mp alone.symm
    have own : ws₁.postbuf = ws.postbuf ++ generatedBy rt use x := by
      rw [generatedBy, freshWalk, ← (Prod.mk.inj same).1]
      rfl
    have single : walkChildren rt ws [x] = some (ws₁, [x']) := by
      simp only [walkChildren_cons, walked, Option.bind_some, walkChildren_nil, Option.map_some]
    have next := walkChildren_schemaName single
    rw [schemaName, schemaNameAfter_stateAfter] at next
    have tail := ih next ((kept (walkChild_local rt x) walked).2.1.trans foundRows) walkedRest
    rw [tail, own, generatedTexts, String.join_cons, String.append_assoc]

/-- A walk changes the schema name by the USE statements of the input, and appends what its
statements generate. -/
theorem pgify_stateAfter {rt : Runtime} {options : ℕ} {use : Option String}
    {langAST walked : Option Tree} {ws' : WalkerState}
    (run : pgify rt (stateAfter options use) langAST = some (ws', walked)) :
    ws' = { stateAfter options ((langAST.elim [] usesBelow).getLast?.or use) with
      postbuf := String.join (generatedTexts rt use (langAST.elim [] Tree.children)) } := by
  cases langAST with
  | none =>
    cases run
    simp [generatedTexts]
    rfl
  | some tree =>
    obtain ⟨⟨ws, tree'⟩, walk, result⟩ := Option.map_eq_some_iff.mp run
    cases result
    have schemaName := treeWalkWorker_schemaName walk
    obtain ⟨options', foundRows, -⟩ := kept (treeWalkWorker_local rt tree) walk
    cases tree with
    | node token children =>
      simp only [treeWalkWorker, Option.bind_eq_bind] at walk
      obtain ⟨⟨ws₁, children'⟩, below, same⟩ := Option.bind_eq_some_iff.mp walk
      cases same
      have postbuf := @walkChildren_postbuf rt (stateAfter options use) _ use _ _ rfl rfl below
      rw [schemaNameAfter_stateAfter] at schemaName
      obtain ⟨schemaName', postbuf', options'', foundRows'⟩ := ws₁
      simp only at schemaName postbuf options' foundRows
      subst schemaName postbuf options' foundRows
      simp [stateAfter, Tree.children]

/-- A call from such a state leaves such a state, and its output is a body with the statements
generated from its own trees. -/
theorem pgifyStringS_stateAfter {rt : Runtime} {options : ℕ} {use : Option String} {input : ι}
    {output : String} {ws' : WalkerState}
    (run : front.pgifyStringS rt input (stateAfter options use) = some (output, ws')) :
    ws' = stateAfter options ((usesOfInput front options input).getLast?.or use) ∧
      ∃ walked, front.pgify rt input (stateAfter options use) = some walked ∧
        output = withGenerated walked.1.body
          (String.join (generatedTexts rt use (statementsOf front options input))) := by
  obtain ⟨⟨pt, ws⟩, parsed, printed⟩ := Option.map_eq_some_iff.mp run
  obtain ⟨⟨walked, langAST⟩, walk, result⟩ := Option.map_eq_some_iff.mp parsed
  have state := pgify_stateAfter walk
  change pgifyStringTree pt ws = (output, ws') at printed
  rw [pgifyStringTree, printPostbuf_eq] at printed
  obtain ⟨text, left⟩ := Prod.mk.inj printed
  have same : walked = ws := (Prod.mk.inj result).2
  rw [same] at state
  refine ⟨?_, (pt, ws), parsed, ?_⟩
  · rw [← left, state]
    rfl
  · rw [← text, state]
    rfl

/-! ## Histories -/

theorem lastUse_cons (options : ℕ) (call : Runtime × ι) (rest : List (Runtime × ι)) :
    lastUse front options (call :: rest) =
      (lastUse front options rest).or (usesOfInput front options call.2).getLast? := by
  rw [lastUse, List.flatMap_cons, List.getLast?_append]
  rfl

/-- Calls from a state that remembers a USE leave one that remembers the last USE. -/
theorem calls_stateAfter {options : ℕ} {use : Option String} {history : List (Runtime × ι)}
    {ws : WalkerState} (run : front.calls history (stateAfter options use) = some ws) :
    ws = stateAfter options ((lastUse front options history).or use) := by
  induction history generalizing use with
  | nil => exact (Option.some.inj run).symm
  | cons call rest ih =>
    obtain ⟨⟨output, ws₁⟩, returned, run⟩ := Option.bind_eq_some_iff.mp run
    obtain ⟨rfl, -⟩ := pgifyStringS_stateAfter front returned
    rw [ih run, lastUse_cons, Option.or_assoc]

theorem calls_walkerstateNew {options : ℕ} {history : List (Runtime × ι)} {ws : WalkerState}
    (run : front.calls history (walkerstateNew options) = some ws) :
    ws = stateAfter options (lastUse front options history) := by
  have behind := @calls_stateAfter _ front options none history ws run
  rwa [Option.or_none] at behind

section Shop

private def word (type : TokenType) (text : String) : Tree :=
  .leaf ⟨type, text, .default, 1, 0⟩

/-- `USE shop;` -/
private def useShop : Tree :=
  .node none [word .tTransform "", .node (some (.imaginary .tUseDatabase "T_USE_DATABASE"))
    [word .kUse "USE", word .id "shop", word .semi ";"]]

/-- A front end whose inputs are their own ASTs. -/
private def direct : Frontend (Option Tree) := ⟨fun _ _ => [], fun _ input => input⟩

end Shop

end Pgify.History
