import Pgify.Proofs.History
import Pgify.Proofs.Renderings

/-! # The generated statements of a session

Any interleaving of `pgify` and `pgify_string_tree` on one walker state prints every generated
statement once and in the order of the inputs: what the renderings print behind their bodies and
what is left in the postbuf are together what the inputs generate, each behind the last USE in front
of it. The rest of the state is what the last USE says.
-/

namespace Pgify.Conservation

open Model Renderings WalkLocality

variable {ι : Type*} (front : Frontend ι)

/-- The walker state that remembers a USE and holds a postbuf. -/
def stateWith (options : ℕ) (use : Option String) (postbuf : String) : WalkerState :=
  { History.stateAfter options use with postbuf := postbuf }

/-- The inputs that a sequence of calls parses. -/
def inputs (calls : List (Call ι)) : List (Runtime × ι) :=
  calls.filterMap fun
    | .pgify rt input => some (rt, input)
    | .pgifyStringTree _ => none

/-- The tree and the returned string of a rendering. -/
def rendering? : Event → Option (PgifyTree × String)
  | .parsed .. => none
  | .rendered _ pt _ output => some (pt, output)

/-- The renderings print these texts behind the bodies of their trees. -/
def Prints (events : List Event) (texts : List String) : Prop :=
  List.Forall₂ (fun rendering text => rendering.2 = withGenerated rendering.1.body text)
    (events.filterMap rendering?) texts

/-- What a sequence of inputs generates, whatever is rendered in between. -/
def generatedOver (options : ℕ) : Option String → List (Runtime × ι) → String
  | _, [] => ""
  | use, (rt, input) :: rest =>
    String.join (History.generatedTexts rt use (History.statementsOf front options input)) ++
      generatedOver options ((History.usesOfInput front options input).getLast?.or use) rest

variable {front} {options : ℕ} {use : Option String} {postbuf : String}

/-! ## One call -/

theorem pgify_stateWith {rt : Runtime} {input : ι} {pt : PgifyTree} {ws : WalkerState}
    (parsed : front.pgify rt input (stateWith options use postbuf) = some (pt, ws)) :
    ws = stateWith options ((History.usesOfInput front options input).getLast?.or use)
      (postbuf ++
        String.join (History.generatedTexts rt use (History.statementsOf front options input))) := by
  obtain ⟨⟨left, langAST⟩, walk, result⟩ := Option.map_eq_some_iff.mp parsed
  have alone := resume (pgify_local rt (front.startRule options input))
    (stateWith options use postbuf) (History.stateAfter options use) rfl rfl rfl
  rw [show pgify rt (stateWith options use postbuf) (front.startRule options input) = _ from walk]
    at alone
  obtain ⟨fresh, freshWalk, same⟩ := Option.map_eq_some_iff.mp alone.symm
  have state := History.pgify_stateAfter freshWalk
  rw [← (Prod.mk.inj result).2, ← (Prod.mk.inj same).1, state]
  rfl

/-- A parse generates behind what is there, and a rendering prints all that is there. -/
theorem step_stateWith {session session' : Session} {call : Call ι} {event : Event}
    (state : session.ws = stateWith options use postbuf)
    (stepped : step front session call = some (event, session')) :
    (∃ rt input pt generated, call = .pgify rt input ∧ event = .parsed pt generated ∧
      session'.ws = stateWith options ((History.usesOfInput front options input).getLast?.or use)
        (postbuf ++ String.join
          (History.generatedTexts rt use (History.statementsOf front options input)))) ∨
    ∃ index pt generated, call = .pgifyStringTree index ∧
      event = .rendered index pt generated (withGenerated pt.body postbuf) ∧
      session'.ws = stateWith options use "" := by
  cases call with
  | pgify rt input =>
    obtain ⟨⟨pt, ws⟩, parsed, result⟩ := Option.map_eq_some_iff.mp stepped
    cases result
    rw [state] at parsed
    exact .inl ⟨rt, input, pt, _, rfl, rfl, pgify_stateWith parsed⟩
  | pgifyStringTree index =>
    obtain ⟨⟨pt, generated⟩, -, result⟩ := Option.map_eq_some_iff.mp stepped
    cases result
    refine .inr ⟨index, pt, generated, rfl, ?_, ?_⟩
    · rw [pgifyStringTree, printPostbuf_eq, state]
      rfl
    · simp only [pgifyStringTree, printPostbuf_eq, state]
      rfl

/-! ## Runs -/

theorem run_stateWith {calls : List (Call ι)} {session session' : Session} {events : List Event}
    (state : session.ws = stateWith options use postbuf)
    (ran : run front calls session = some (events, session')) :
    ∃ texts left, Prints events texts ∧
      session'.ws = stateWith options ((History.lastUse front options (inputs calls)).or use) left ∧
      String.join texts ++ left = postbuf ++ generatedOver front options use (inputs calls) := by
  induction calls generalizing session use postbuf events with
  | nil =>
    cases ran
    exact ⟨[], postbuf, .nil, state, by simp [inputs, generatedOver]⟩
  | cons call rest ih =>
    obtain ⟨⟨event, next⟩, stepped, ran⟩ := Option.bind_eq_some_iff.mp ran
    obtain ⟨⟨later, last⟩, ranRest, result⟩ := Option.map_eq_some_iff.mp ran
    cases result
    rcases step_stateWith state stepped with ⟨rt, input, pt, generated, rfl, rfl, behind⟩ |
      ⟨index, pt, generated, rfl, rfl, behind⟩
    · obtain ⟨texts, left, prints, state', conserved⟩ := ih behind ranRest
      refine ⟨texts, left, prints, ?_, ?_⟩
      · rw [state', ← Option.or_assoc, ← History.lastUse_cons front options (rt, input)]
        rfl
      · rw [conserved, String.append_assoc]
        rfl
    · obtain ⟨texts, left, prints, state', conserved⟩ := ih behind ranRest
      refine ⟨postbuf :: texts, left, .cons rfl prints, state', ?_⟩
      rw [String.join_cons, String.append_assoc, conserved, String.empty_append]
      rfl

/-- Over every sequence of calls on a fresh walker state, the texts that the renderings print behind
their bodies, followed by the postbuf, are what the parsed inputs generate one after the other: no
generated statement is lost, printed twice or reordered, whichever trees are rendered in between.
The calls leave the options and the found rows as they were, and remember the last USE. -/
theorem run_conserves {calls : List (Call ι)} {events : List Event} {session : Session}
    (ran : run front calls ⟨walkerstateNew options, []⟩ = some (events, session)) :
    session.ws.options = options ∧ session.ws.foundRows = 1 ∧
      session.ws.schemaName =
        (History.lastUse front options (inputs calls)).elim "" (fun name => s!"{name}.") ∧
      ∃ texts, Prints events texts ∧
        String.join texts ++ session.ws.postbuf =
          generatedOver front options none (inputs calls) := by
  have fresh : walkerstateNew options = stateWith options none "" := rfl
  obtain ⟨texts, left, prints, state, conserved⟩ := run_stateWith fresh ran
  rw [Option.or_none] at state
  rw [String.empty_append] at conserved
  rw [state]
  exact ⟨rfl, rfl, rfl, texts, prints, conserved⟩

section Indexed

private def word (type : TokenType) (text : String) : Tree :=
  .leaf ⟨type, text, .default, 1, 0⟩

private def node (type : TokenType) (text : String) (children : List Tree) : Tree :=
  .node (some (.imaginary type text)) children

/-- `CREATE TABLE t (a, KEY k (a))` and the end of the input. -/
private def indexed : Tree :=
  .node none
    [node .tCreateTable "T_CREATE_TABLE"
      [word .kCreate "CREATE", word .kTable "TABLE", word .id "t", word .lparen "(",
        node .tCreateTableColumnDef "T_CREATE_TABLE_COLUMN_DEF" [word .id "a"], word .comma ",",
        node .tCreateTableIndex "T_CREATE_TABLE_INDEX"
          [word .id "k", word .lparen "(", word .id "a", word .rparen ")"], word .rparen ")"],
      word .eof "<EOF>"]

/-- A front end whose inputs are their own ASTs. -/
private def direct : Frontend Tree := ⟨fun _ _ => [], fun _ input => some input⟩

/-- The index of the first tree is printed behind the second one. -/
theorem run_conserves_indexed : ∃ events session,
    run direct [.pgify ⟨id, 0⟩ indexed, .pgify ⟨id, 0⟩ (word .semi ";"), .pgifyStringTree 1]
        ⟨walkerstateNew 0, []⟩ = some (events, session) ∧
      ∃ texts, Prints events texts ∧
        String.join texts ++ session.ws.postbuf = "CREATE INDEX t_k_index ON t  ( a ) ;\n" := by
  refine ⟨_, _, rfl, ?_⟩
  exact (@run_conserves Tree direct 0
    [.pgify ⟨id, 0⟩ indexed, .pgify ⟨id, 0⟩ (word .semi ";"), .pgifyStringTree 1] _ _ rfl).2.2.2

end Indexed

end Pgify.Conservation
