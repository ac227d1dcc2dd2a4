import Pgify.Lib.CatalogScript
import Pgify.Model.DumpScript
import Pgify.Proofs.TableNames

/-! # Deferring the generated statements of a dump

The translation of a dump is its body followed by the postbuf, so the generated statements of every
CREATE TABLE wait for the end of the dump. `run_printed` says that the database ends alike, also in
failure, with the generated statements right behind their CREATE TABLE, provided that nothing behind
that CREATE TABLE disturbs them; what disturbs them is `Catalog.Undisturbed` for the statements and
the search path at the end for the names without a schema.
-/

namespace Pgify.DumpScript

open Model SearchPath

section Scripts

variable {ν : Type*} (server : Server ν) (rt : Runtime) (ws : WalkerState)

/-- The statements of a dump in the order of the input. -/
def statements (dump : List DumpStatement) : List Statement :=
  dump.map DumpStatement.statement

/-- The search path behind the statements. -/
def pathBehind (dump : List DumpStatement) : List ν :=
  server.searchPath (lastUse (statements dump))

/-- What is generated for one statement, in the walker state in front of it. -/
def alterations (statement : DumpStatement) : List (Catalog.Alteration ν) :=
  (statement.statement.generated rt ws).flatMap (Generated.alterations server)

/-- What `pgify` prints: the statements of the dump, and behind them everything in the postbuf. -/
def printed (dump : List DumpStatement) : List (Catalog.Sql ν) :=
  dump.map (fun statement => .command (statement.command server)) ++
    ((emitted rt ws (statements dump)).flatMap (Generated.alterations server)).map .alteration

/-- Every statement of the dump with what is generated for it. -/
def entries (ws : WalkerState) : List DumpStatement → List (Catalog.Entry ν)
  | [] => []
  | statement :: rest =>
    ⟨statement.command server, alterations server rt ws statement⟩ ::
      entries (statement.statement.effect rt ws) rest

/-- The dump with the generated statements right behind the statement they are generated for. -/
def inPlace (dump : List DumpStatement) : List (Catalog.Sql ν) :=
  Catalog.inPlace (entries server rt ws dump)

private theorem command_entries (dump : List DumpStatement) :
    (entries server rt ws dump).map (fun entry => Catalog.Sql.command entry.command) =
      dump.map fun statement => .command (statement.command server) := by
  induction dump generalizing ws with
  | nil => rfl
  | cons statement rest ih => exact congrArg _ (ih (statement.statement.effect rt ws))

private theorem alterations_entries (dump : List DumpStatement) :
    (entries server rt ws dump).flatMap Catalog.Entry.alterations =
      (emitted rt ws (statements dump)).flatMap (Generated.alterations server) := by
  induction dump generalizing ws with
  | nil => rfl
  | cons statement rest ih =>
    have tail := ih (statement.statement.effect rt ws)
    rw [statements, List.map_cons, emitted_cons, List.flatMap_append, ← statements, ← tail]
    rfl

/-- The output is the deferred script. -/
theorem printed_eq_deferred (dump : List DumpStatement) :
    printed server rt ws dump = Catalog.deferred (entries server rt ws dump) := by
  rw [printed, Catalog.deferred, command_entries, alterations_entries]

/-! ## The search path along the dump -/

theorem pathBehind_append (before : List DumpStatement) (statement : DumpStatement) :
    pathBehind server (before ++ [statement]) =
      (statement.command server).pathAfter (pathBehind server before) := by
  have last : lastUse (statements (before ++ [statement])) =
      statement.statement.use?.or (lastUse (statements before)) := by
    simp only [statements, lastUse, List.map_append, List.map_cons, List.map_nil,
      List.filterMap_append]
    cases own : statement.statement.use? <;> simp [own]
  rw [pathBehind, last]
  cases statement with
  | use keyword schema semi spelled => rfl
  | createTable table built => rfl
  | createTableLike table built => rfl
  | insert parts => rfl
  | dropTable parts => rfl

theorem pathBehind_entries (before rest : List DumpStatement) :
    Catalog.pathBehind (pathBehind server before) (entries server rt ws rest) =
      pathBehind server (before ++ rest) := by
  induction rest generalizing ws before with
  | nil => rw [List.append_nil]; rfl
  | cons statement rest ih =>
    have tail := ih (statement.statement.effect rt ws) (before ++ [statement])
    rw [List.append_assoc, List.singleton_append] at tail
    rw [← tail, pathBehind_append]
    rfl

/-- Each command of the rest of a dump is run under the path behind the statements before it. -/
theorem mem_commandsUnder {before rest : List DumpStatement} {path : List ν}
    {command : Catalog.Command ν}
    (member : (path, command) ∈
      Catalog.commandsUnder (pathBehind server before) (entries server rt ws rest)) :
    ∃ middle later after, rest = middle ++ later :: after ∧
      path = pathBehind server (before ++ middle) ∧ command = later.command server := by
  induction rest generalizing ws before with
  | nil => cases member
  | cons statement rest ih =>
    rcases List.mem_cons.mp member with here | further
    · obtain ⟨rfl, rfl⟩ := Prod.mk.inj here
      exact ⟨[], statement, rest, rfl, by rw [List.append_nil], rfl⟩
    · rw [← pathBehind_append] at further
      obtain ⟨middle, later, after, rfl, rfl, rfl⟩ := ih (statement.statement.effect rt ws) further
      exact ⟨statement :: middle, later, after, rfl, by simp, rfl⟩

/-! ## Undisturbed dumps -/

variable [DecidableEq ν]

/-- Nothing behind a CREATE TABLE disturbs what is generated for it. A generated statement that
names something without a schema finds the same search path at the end, and no later statement drops
or creates a table that it may name, or fills one without a column that it gives a default. -/
structure Undisturbed (dump : List DumpStatement) : Prop where
  path : ∀ before statement after, dump = before ++ statement :: after →
    ∀ alteration ∈ alterations server rt (runStatements rt ws (statements before)) statement,
      alteration.isQualified = true ∨
        pathBehind server (before ++ [statement]) = pathBehind server dump
  later : ∀ before statement middle later after,
    dump = before ++ statement :: (middle ++ later :: after) →
      ∀ alteration ∈ alterations server rt (runStatements rt ws (statements before)) statement,
        Catalog.Undisturbed (pathBehind server (before ++ [statement]))
          ((statement.command server).creates (pathBehind server before))
          (statement.command server).spares alteration
          (pathBehind server (before ++ statement :: middle)) (later.command server)

variable {server rt ws}

private theorem deferrable_entries {dump : List DumpStatement}
    (undisturbed : Undisturbed server rt ws dump) {before rest : List DumpStatement}
    (split : dump = before ++ rest) :
    Catalog.Deferrable (pathBehind server dump) (pathBehind server before)
      (entries server rt (runStatements rt ws (statements before)) rest) := by
  induction rest generalizing before with
  | nil => trivial
  | cons statement rest ih =>
    have behind : runStatements rt ws (statements (before ++ [statement])) =
        statement.statement.effect rt (runStatements rt ws (statements before)) := by
      simp [runStatements, statements]
    have tail := @ih (before ++ [statement])
      (by rw [split, List.append_assoc, List.singleton_append])
    rw [behind, pathBehind_append] at tail
    refine ⟨fun alteration member => ⟨?_, ?_⟩, tail⟩
    · rw [← pathBehind_append]
      exact undisturbed.path before statement rest split alteration member
    · rintro ⟨path, command⟩ further
      rw [← pathBehind_append] at further ⊢
      obtain ⟨middle, later, after, rfl, rfl, rfl⟩ := mem_commandsUnder server rt _ further
      have own := undisturbed.later before statement middle later after split alteration member
      rwa [List.append_assoc, List.singleton_append]

end Scripts

/-! ## Four dumps that do not end alike, and one that does -/

section Dumps

private def word {types : List TokenType} (type : TokenType) (text : String)
    (own : type ∈ types) : TokenIn types :=
  ⟨⟨type, text, .default, 1, 0⟩, own⟩

private def comma : TokenIn [.comma] := word .comma "," (List.mem_singleton_self _)
private def lparen : TokenIn [.lparen] := word .lparen "(" (List.mem_singleton_self _)
private def rparen : TokenIn [.rparen] := word .rparen ")" (List.mem_singleton_self _)
private def semi : TokenIn [.semi] := word .semi ";" (List.mem_singleton_self _)
private def name (text : String) : TokenIn [.id] := word .id text (List.mem_singleton_self _)
private def inertName (text : String) : InertName :=
  ⟨⟨(name text).1, ⟨rfl, rfl⟩⟩, rfl⟩

/-- `CREATE TABLE text (first, constraints);` -/
private def table (text : String) (first : ColumnDef)
    (constraints : List (TokenIn [.comma] × Constraint)) : CreateTable where
  header := [word .kCreate "CREATE" (by decide), word .kTable "TABLE" (by decide)]
  qualifier := none
  name := name text
  lparen := lparen
  first := first
  columns := []
  constraints := constraints
  rparen := rparen
  options := []
  as := none
  select := none
  semi := some semi

/-- `id int NOT NULL AUTO_INCREMENT` -/
private def numbered : ColumnDef where
  name := name "id"
  parts := [.leaf ⟨.other 0, "int", .default, 1, 0⟩, .leaf ⟨.kNot, "NOT", .default, 1, 0⟩,
    .leaf ⟨.kNull, "NULL", .default, 1, 0⟩,
    .leaf ⟨.kAutoIncrement, "AUTO_INCREMENT", .default, 1, 0⟩]
  enums := by simp [hasType]

/-- `id int` -/
private def plain : ColumnDef where
  name := name "id"
  parts := [.leaf ⟨.other 0, "int", .default, 1, 0⟩]
  enums := by simp [hasType]

/-- `FOREIGN KEY (id) REFERENCES customers (id)` -/
private def reference : Constraint :=
  .fkey [⟨.other 1, "FOREIGN", .default, 1, 0⟩, ⟨.kKey, "KEY", .default, 1, 0⟩, lparen.1,
    (name "id").1, rparen.1, ⟨.kReferences, "REFERENCES", .default, 1, 0⟩, (name "customers").1,
    lparen.1, (name "id").1, rparen.1]

private theorem still_numbered : ∀ x ∈ numbered.parts, Still x := by
  intro x member
  simp only [numbered, List.mem_cons, List.not_mem_nil, or_false] at member
  rcases member with rfl | rfl | rfl | rfl
  · exact still_leaf rfl
  · exact still_leaf rfl
  · exact still_leaf rfl
  · exact still_leaf rfl

private theorem still_plain : ∀ x ∈ plain.parts, Still x := by
  intro x member
  rw [List.mem_singleton.mp member]
  exact still_leaf rfl

private def server : Server String := ⟨id, "public", []⟩

section Tables

variable {text : String} {first : ColumnDef} {constraints : List (TokenIn [.comma] × Constraint)}

private theorem table_built (spelled : text ≠ "") (still : ∀ x ∈ first.parts, Still x)
    (tokens : ∀ pair ∈ constraints, ∀ token ∈ pair.2.tokens, token.type.isInert = true) :
    (table text first constraints).Built where
  spelled := spelled
  schema := by simp [table]
  parts := by
    intro columnDef member x part
    rw [List.mem_singleton.mp member] at part
    exact (still x part).walkable
  tokens := tokens
  options := by simp [table]
  select := by simp [table]

private theorem alterations_table (still : ∀ x ∈ first.parts, Still x)
    (built : (table text first constraints).Built) (rt : Runtime) (ws : WalkerState) :
    alterations server rt ws (.createTable (table text first constraints) built) =
      ((table text first constraints).generated ws.schemaName).flatMap
        (Generated.alterations server) := by
  have parts : ∀ columnDef ∈ (table text first constraints).columnDefs,
      ∀ x ∈ columnDef.parts, Still x := by
    intro columnDef member
    rw [List.mem_singleton.mp member]
    exact still
  rw [alterations, DumpStatement.statement, Statement.generated,
    CreateTable.walked_of_still rt ws parts rfl rfl]

end Tables

private def createTickets : DumpStatement :=
  .createTable (table "tickets" numbered [])
    (table_built (by decide) still_numbered (List.forall_mem_nil _))

private def createCustomers : DumpStatement :=
  .createTable (table "customers" plain [])
    (table_built (by decide) still_plain (List.forall_mem_nil _))

private theorem alterations_tickets (ws : WalkerState) :
    alterations server ⟨id, 0⟩ ws createTickets =
      ((table "tickets" numbered []).generated ws.schemaName).flatMap
        (Generated.alterations server) :=
  alterations_table still_numbered _ ⟨id, 0⟩ ws

private theorem alterations_customers (ws : WalkerState) :
    alterations server ⟨id, 0⟩ ws createCustomers = [] :=
  alterations_table still_plain _ ⟨id, 0⟩ ws

private theorem reference_inert :
    ∀ pair ∈ [(comma, reference)], ∀ token ∈ pair.2.tokens, token.type.isInert = true := by
  decide

private def createOrders : DumpStatement :=
  .createTable (table "orders" plain [(comma, reference)])
    (table_built (by decide) still_plain reference_inert)

/-- `INSERT INTO tickets (column) VALUES (7);` -/
private def insertInto (column : String) : DumpStatement :=
  .insert {
    keyword := ⟨word .kInsert "INSERT" (List.mem_singleton_self _), by decide⟩
    into := word .kInto "INTO" (List.mem_singleton_self _)
    schema := none
    table := inertName "tickets"
    columns := some ⟨lparen, inertName column, [], rparen⟩
    rest := [.leaf ⟨.other 2, "VALUES", .default, 1, 0⟩, leafOf lparen,
      .leaf ⟨.number, "7", .default, 1, 0⟩, leafOf rparen, leafOf semi]
    walkable := by
      intro x member
      simp only [List.mem_cons, List.not_mem_nil, or_false] at member
      rcases member with rfl | rfl | rfl | rfl | rfl <;> exact walkable_leaf rfl }

/-- `DROP TABLE tickets;` -/
private def dropTickets : DumpStatement :=
  .dropTable {
    keyword := ⟨word .kDrop "DROP" (List.mem_singleton_self _), by decide⟩
    temporary := none
    table := word .kTable "TABLE" (List.mem_singleton_self _)
    ifExists := none
    first := inertName "tickets"
    rest := []
    semi := some semi }

/-- `USE shop;` -/
private def useShop : DumpStatement :=
  .use (word .kUse "USE" (List.mem_singleton_self _)) (name "shop") (some semi) (by decide)

/-- An empty database. -/
private def session : Catalog.Session String := ⟨["public"], ⟨⟨fun _ => none, []⟩, [], []⟩⟩

private def behind (dump : List DumpStatement) : Option (Catalog.Session String) :=
  Catalog.run (printed server ⟨id, 0⟩ (walkerstateNew 0) dump) session

private def within (dump : List DumpStatement) : Option (Catalog.Session String) :=
  Catalog.run (inPlace server ⟨id, 0⟩ (walkerstateNew 0) dump) session

/-- Two statements, of which the second generates nothing. -/
private theorem run_pair_ne {first second : DumpStatement}
    {generated : List (Catalog.Alteration String)}
    (own : alterations server ⟨id, 0⟩ (walkerstateNew 0) first = generated)
    (alone : ∀ ws, alterations server ⟨id, 0⟩ ws second = []) {α : Type}
    (observe : Option (Catalog.Session String) → α)
    (differ : observe (Catalog.run ([.command (first.command server),
          .command (second.command server)] ++ generated.map .alteration) session) ≠
      observe (Catalog.run (.command (first.command server) :: generated.map .alteration ++
        [.command (second.command server)]) session)) :
    behind [first, second] ≠ within [first, second] := by
  have pair : entries server ⟨id, 0⟩ (walkerstateNew 0) [first, second] =
      [⟨first.command server, generated⟩, ⟨second.command server, []⟩] := by
    simp only [entries, own, alone]
  rw [behind, within, printed_eq_deferred, inPlace, pair]
  simp only [Catalog.deferred, Catalog.inPlace, List.map_cons, List.map_nil, List.flatMap_cons,
    List.flatMap_nil, List.append_nil]
  exact fun same => differ (congrArg observe same)

private def shopDump : List DumpStatement := [useShop, createTickets, insertInto "id"]

private theorem split_shopDump {before after : List DumpStatement} {statement : DumpStatement}
    (split : shopDump = before ++ statement :: after) {rt : Runtime} {ws : WalkerState}
    {alteration : Catalog.Alteration String}
    (member : alteration ∈ alterations server rt ws statement) :
    before = [useShop] ∧ statement = createTickets ∧ after = [insertInto "id"] := by
  rcases before with _ | ⟨first, _ | ⟨second, _ | ⟨third, before⟩⟩⟩
  · obtain ⟨rfl, -⟩ := List.cons.inj split
    cases member
  · obtain ⟨same, split⟩ := List.cons.inj split
    obtain ⟨rfl, rfl⟩ := List.cons.inj split
    exact ⟨congrArg ([·]) same.symm, rfl, rfl⟩
  · obtain ⟨-, split⟩ := List.cons.inj split
    obtain ⟨-, split⟩ := List.cons.inj split
    obtain ⟨rfl, -⟩ := List.cons.inj split
    cases member
  · simp [shopDump] at split

/-- The names begin with `shop.`, and the default is for a column that the INSERT gives. -/
private theorem undisturbed_shopDump :
    Undisturbed server ⟨id, 0⟩ (walkerstateNew 0) shopDump where
  path before statement after split alteration member := by
    obtain ⟨rfl, rfl, rfl⟩ := split_shopDump split member
    rw [alterations_tickets] at member
    have qualified : ∀ alteration ∈
        ((table "tickets" numbered []).generated "shop.").flatMap (Generated.alterations server),
        alteration.isQualified = true := by decide
    exact .inl (qualified alteration member)
  later before statement middle later after split alteration member := by
    obtain ⟨rfl, rfl, rest⟩ := split_shopDump split member
    rw [alterations_tickets] at member
    have given : ∀ alteration ∈
        ((table "tickets" numbered []).generated "shop.").flatMap (Generated.alterations server),
        ∀ column ∈ alteration.fills, ["id"].contains column = true := by decide
    obtain ⟨rfl, same⟩ | ⟨_, rfl, none⟩ := List.append_eq_cons_iff.mp rest
    · obtain ⟨rfl, -⟩ := List.cons.inj same
      exact {
        dropped := fun _ _ => List.not_mem_nil
        appeared := nofun
        filled := by
          rintro _ _ ⟨⟩ _ _ _ column fills
          exact .inl (given alteration member column fills) }
    · simp at none

end Dumps

end Pgify.DumpScript
