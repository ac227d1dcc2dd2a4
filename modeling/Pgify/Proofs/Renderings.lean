import Pgify.Model.Calls
import Pgify.Proofs.WalkLocality

/-! # Rendering trees that share a walker state

`pgify` calls append what they generate to the postbuf of the walker state, and the next
`pgify_string_tree` prints all of it, whatever tree it prints. A rendering is right exactly when the
inputs parsed since the rendering before it have generated what the rendered tree's input has.
-/

namespace Pgify.Renderings

open Model WalkLocality

variable {ι : Type*}

/-- A call on the shared walker state; trees are numbered in the order they are handed out. -/
inductive Call (ι : Type*) where
  | pgify (rt : Runtime) (input : ι)
  | pgifyStringTree (index : ℕ)

/-- The walker state and the trees handed out so far, each with the statements generated for its
input. -/
structure Session where
  ws : WalkerState
  trees : List (PgifyTree × String)

/-- What a call has done: a tree with its statements, or a tree, its statements and the returned
string. -/
inductive Event where
  | parsed (pt : PgifyTree) (generated : String)
  | rendered (index : ℕ) (pt : PgifyTree) (generated output : String)

variable (front : Frontend ι)

/-- The statements that an input generates behind the last USE. -/
def generatedFor (rt : Runtime) (input : ι) (ws : WalkerState) : String :=
  ((front.pgify rt input { ws with postbuf := "" }).map fun parsed => parsed.2.postbuf).getD ""

/-- One call; only a tree that has been handed out can be rendered. -/
def step (session : Session) : Call ι → Option (Event × Session)
  | .pgify rt input =>
    (front.pgify rt input session.ws).map fun (pt, ws) =>
      (.parsed pt (generatedFor front rt input session.ws),
        ⟨ws, session.trees ++ [(pt, generatedFor front rt input session.ws)]⟩)
  | .pgifyStringTree index =>
    session.trees[index]?.map fun (pt, generated) =>
      (.rendered index pt generated (pgifyStringTree pt session.ws).1,
        { session with ws := (pgifyStringTree pt session.ws).2 })

/-- A sequence of calls, with what each of them has done. -/
def run : List (Call ι) → Session → Option (List Event × Session)
  | [], session => some ([], session)
  | call :: rest, session =>
    (step front session call).bind fun (event, session) =>
      (run rest session).map fun (events, session) => (event :: events, session)

/-- What an event leaves in the buffer. -/
def Event.leaves (pending : String) : Event → String
  | .parsed _ generated => pending ++ generated
  | .rendered .. => ""

/-- What the inputs parsed since the last rendering have generated. -/
def pending (events : List Event) : String :=
  events.foldl Event.leaves ""

/-! ## One call -/

/-- A parse appends the statements of its input to the postbuf. -/
theorem pgify_postbuf {rt : Runtime} {input : ι} {ws ws' : WalkerState} {pt : PgifyTree}
    (parsed : front.pgify rt input ws = some (pt, ws')) :
    ws'.postbuf = ws.postbuf ++ generatedFor front rt input ws := by
  obtain ⟨⟨left, langAST⟩, walk, result⟩ := Option.map_eq_some_iff.mp parsed
  have alone := resume (pgify_local rt (front.startRule ws.options input)) ws
    { ws with postbuf := "" } rfl rfl rfl
  rw [walk] at alone
  obtain ⟨fresh, freshWalk, same⟩ := Option.map_eq_some_iff.mp alone.symm
  have generated : generatedFor front rt input ws = fresh.1.postbuf := by
    rw [generatedFor, Frontend.pgify, freshWalk]
    rfl
  rw [generated, ← (Prod.mk.inj result).2]
  exact (congrArg WalkerState.postbuf (Prod.mk.inj same).1).symm

/-- Every call leaves in the postbuf what its event says. -/
theorem step_postbuf {session session' : Session} {call : Call ι} {event : Event}
    (stepped : step front session call = some (event, session')) :
    session'.ws.postbuf = event.leaves session.ws.postbuf := by
  cases call with
  | pgify rt input =>
    obtain ⟨⟨pt, ws⟩, parsed, result⟩ := Option.map_eq_some_iff.mp stepped
    cases result
    exact pgify_postbuf front parsed
  | pgifyStringTree index =>
    obtain ⟨⟨pt, generated⟩, -, result⟩ := Option.map_eq_some_iff.mp stepped
    cases result
    simp only [pgifyStringTree, printPostbuf_eq, Event.leaves]

/-- A rendering is of a tree handed out before, and prints the postbuf behind its body. -/
theorem step_rendered {session session' : Session} {call : Call ι} {index : ℕ} {pt : PgifyTree}
    {generated output : String}
    (stepped : step front session call = some (.rendered index pt generated output, session')) :
    session.trees[index]? = some (pt, generated) ∧
      output = withGenerated pt.body session.ws.postbuf := by
  cases call with
  | pgify rt input =>
    obtain ⟨_, -, result⟩ := Option.map_eq_some_iff.mp stepped
    cases result
  | pgifyStringTree =>
    obtain ⟨⟨pt', generated'⟩, present, result⟩ := Option.map_eq_some_iff.mp stepped
    cases result
    exact ⟨present, by rw [pgifyStringTree, printPostbuf_eq]⟩

/-- A tree that has been handed out stays as it is. -/
theorem step_trees {session session' : Session} {call : Call ι} {event : Event} {index : ℕ}
    {tree : PgifyTree × String} (stepped : step front session call = some (event, session'))
    (present : session.trees[index]? = some tree) : session'.trees[index]? = some tree := by
  cases call with
  | pgify rt input =>
    obtain ⟨_, -, result⟩ := Option.map_eq_some_iff.mp stepped
    cases result
    obtain ⟨bound, -⟩ := List.getElem?_eq_some_iff.mp present
    rw [List.getElem?_append_left bound, present]
  | pgifyStringTree =>
    obtain ⟨_, -, result⟩ := Option.map_eq_some_iff.mp stepped
    cases result
    exact present

/-! ## Runs -/

theorem run_trees {calls : List (Call ι)} {session session' : Session} {events : List Event}
    {index : ℕ} {tree : PgifyTree × String}
    (ran : run front calls session = some (events, session'))
    (present : session.trees[index]? = some tree) : session'.trees[index]? = some tree := by
  induction calls generalizing session events with
  | nil =>
    cases ran
    exact present
  | cons call rest ih =>
    obtain ⟨⟨event, next⟩, stepped, ran⟩ := Option.bind_eq_some_iff.mp ran
    obtain ⟨⟨later, last⟩, ranRest, result⟩ := Option.map_eq_some_iff.mp ran
    cases result
    exact ih ranRest (step_trees front stepped present)

/-- Every rendering of a run prints its tree's body and then the buffer, which holds what the events
in front of it have left there. -/
theorem run_rendered {calls : List (Call ι)} {session session' : Session} {events before : List Event}
    {index : ℕ} {pt : PgifyTree} {generated output : String} {after : List Event}
    (ran : run front calls session = some (events, session'))
    (split : events = before ++ .rendered index pt generated output :: after) :
    session'.trees[index]? = some (pt, generated) ∧
      output = withGenerated pt.body (before.foldl Event.leaves session.ws.postbuf) := by
  induction calls generalizing session events before with
  | nil =>
    cases ran
    exact absurd split (List.append_ne_nil_of_right_ne_nil _ (List.cons_ne_nil _ _)).symm
  | cons call rest ih =>
    obtain ⟨⟨event, next⟩, stepped, ran⟩ := Option.bind_eq_some_iff.mp ran
    obtain ⟨⟨later, last⟩, ranRest, result⟩ := Option.map_eq_some_iff.mp ran
    cases result
    cases before with
    | nil =>
      obtain ⟨rfl, -⟩ := List.cons.inj split
      obtain ⟨present, printed⟩ := step_rendered front stepped
      exact ⟨run_trees front ranRest (step_trees front stepped present), printed⟩
    | cons first before =>
      obtain ⟨rfl, behind⟩ := List.cons.inj split
      rw [List.foldl_cons, ← step_postbuf front stepped]
      exact ih ranRest behind

section Twice

private def word (type : TokenType) (text : String) : Tree :=
  .leaf ⟨type, text, .default, 1, 0⟩

private def node (type : TokenType) (text : String) (children : List Tree) : Tree :=
  .node (some (.imaginary type text)) children

/-- `CREATE TABLE t (a, KEY k (a))` and the end of the input. -/
private def indexed : Tree :=
  .node none
    [node .tCreateTable "T_CREATE_TABLE"
      [word .kCreate "CREATE", word .kTable "TABLE", word .id "t", word .lparen "(",
        node .tCreateTableColumnDef "T_CREATE_TABLE_COLUMN_DEF" [word .id "a"], word .comma ",",
        node .tCreateTableIndex "T_CREATE_TABLE_INDEX"
          [word .id "k", word .lparen "(", word .id "a", word .rparen ")"], word .rparen ")"],
      word .eof "<EOF>"]

/-- A front end whose inputs are their own ASTs. -/
private def direct : Frontend Tree := ⟨fun _ _ => [], fun _ input => some input⟩

/-- The strings that the renderings of a run return. -/
private def outputs (calls : List (Call Tree)) : Option (List String) :=
  (run direct calls ⟨walkerstateNew 0, []⟩).map fun result => result.1.filterMap fun
    | .rendered _ _ _ output => some output
    | .parsed .. => none

end Twice

end Pgify.Renderings
