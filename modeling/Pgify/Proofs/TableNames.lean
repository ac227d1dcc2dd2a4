import Pgify.Model.TableNames
import Pgify.Proofs.StatementWalk

/-! # The names in the generated statements

The statements split out of a CREATE TABLE take their schema from the last USE and their table from
the first identifier of the statement. `generatedNames_iff` says for which inputs all of them name
the table that the statement creates, as the search path behind the whole input reads the names.
-/

namespace Pgify.TableNames

open Model SearchPath

variable {ν : Type*}

/-- Behind a run the schema name is the schema of the last USE with a dot. -/
theorem schemaName_runStatements (rt : Runtime) (ws : WalkerState) (statements : List Statement) :
    (runStatements rt ws statements).schemaName =
      (lastUse statements).elim ws.schemaName fun schema => s!"{schema}." := by
  induction statements generalizing ws with
  | nil => rfl
  | cons statement rest ih =>
    have set : (statement.effect rt ws).schemaName =
        statement.use?.elim ws.schemaName fun schema => s!"{schema}." := by
      cases statement <;> rfl
    rw [runStatements, List.foldl_cons, ← runStatements, ih, set]
    cases own : statement.use? with
    | none => simp [lastUse, own]
    | some schema =>
      simp only [lastUse, List.filterMap_cons, own, List.getLast?_cons]
      cases (rest.filterMap Statement.use?).getLast? <;> rfl

/-! ## The targets of one table -/

section Targets

variable (table : CreateTable)

private theorem mem_map_of_const {α β : Type*} {l : List α} {f : α → β} {c y : β}
    (same : ∀ x ∈ l, f x = c) : y ∈ l.map f ↔ l ≠ [] ∧ y = c := by
  rw [List.map_congr_left same, List.map_const', List.mem_replicate, ne_eq, List.length_eq_zero_iff]

private theorem onupdates_eq_nil (schemaName : String) :
    table.onupdates schemaName = [] ↔ ∀ columnDef ∈ table.columnDefs,
      columnDef.parts.any (hasType .tCreateTableOnupdate) = false := by
  simp only [CreateTable.onupdates, ColumnDef.onupdates, List.flatMap_eq_nil_iff,
    List.map_eq_nil_iff, SearchLoop.takeSkip_fst_eq_nil_iff]

private theorem sequences_eq_nil (schemaName : String) :
    table.sequences schemaName = [] ↔
      ∀ columnDef ∈ table.columnDefs, columnDef.isAutoIncrement = false := by
  simp [CreateTable.sequences]

private theorem indexes_eq_nil (schemaName : String) :
    table.indexes schemaName = [] ↔
      ∀ pair ∈ table.constraints, pair.2.isIndex = false := by
  have same (constraint : Constraint) :
      constraint.indexKey? = none ↔ constraint.isIndex = false := by
    cases constraint <;> simp [Constraint.indexKey?, Constraint.isIndex]
  simp only [CreateTable.indexes, List.map_eq_nil_iff, List.filterMap_eq_nil_iff, same]

private theorem hasPrefixed_iff (schemaName : String) :
    table.hasPrefixed = true ↔
      table.onupdates schemaName ≠ [] ∨ table.sequences schemaName ≠ [] ∨
        table.indexes schemaName ≠ [] := by
  have absent : table.hasPrefixed = false ↔ table.onupdates schemaName = [] ∧
      table.sequences schemaName = [] ∧ table.indexes schemaName = [] := by
    rw [onupdates_eq_nil, sequences_eq_nil, indexes_eq_nil, CreateTable.hasPrefixed,
      Bool.or_eq_false_iff, List.any_eq_false, List.any_eq_false]
    simp only [Bool.or_eq_true, Bool.not_eq_true, not_or, forall_and, and_assoc]
  rw [← Bool.not_eq_false, absent, not_and_or, not_and_or]

private theorem hasFkey_iff : table.hasFkey = true ↔ table.foreignKeys ≠ [] := by
  have same (constraint : Constraint) :
      constraint.fkeyTokens? = none ↔ constraint.isFkey = false := by
    cases constraint <;> simp [Constraint.fkeyTokens?, Constraint.isFkey]
  rw [← Bool.not_eq_false, ne_eq, CreateTable.hasFkey, List.any_eq_false, CreateTable.foreignKeys,
    List.map_eq_nil_iff, List.filterMap_eq_nil_iff]
  simp only [same, Bool.not_eq_true]

/-- The statements with a schema prefix all write the same name, and so do the foreign keys. -/
theorem mem_targets (schemaName : String) (written : String × String) :
    written ∈ (table.generated schemaName).map Generated.target ↔
      table.hasPrefixed = true ∧ written = (schemaName, table.tablename) ∨
        table.hasFkey = true ∧ written = ("", table.tablename) := by
  have onupdates : ∀ x ∈ table.onupdates schemaName, x.target = (schemaName, table.tablename) := by
    simp only [CreateTable.onupdates, List.mem_flatMap, List.mem_map]
    rintro x ⟨columnDef, -, clause, -, rfl⟩
    rfl
  have indexes : ∀ x ∈ table.indexes schemaName, x.target = (schemaName, table.tablename) := by
    simp only [CreateTable.indexes, List.mem_map]
    rintro x ⟨key, -, rfl⟩
    rfl
  have sequences : ∀ x ∈ table.sequences schemaName, x.target = (schemaName, table.tablename) := by
    simp only [CreateTable.sequences, List.mem_map]
    rintro x ⟨columnDef, -, rfl⟩
    rfl
  have foreignKeys : ∀ x ∈ table.foreignKeys, x.target = ("", table.tablename) := by
    simp only [CreateTable.foreignKeys, List.mem_map]
    rintro x ⟨tokens, -, rfl⟩
    rfl
  rw [hasPrefixed_iff table schemaName, hasFkey_iff]
  simp only [CreateTable.generated, List.map_append, List.mem_append, mem_map_of_const onupdates,
    mem_map_of_const indexes, mem_map_of_const sequences, mem_map_of_const foreignKeys]
  tauto

theorem generated_eq_nil_iff (schemaName : String) :
    table.generated schemaName = [] ↔ table.hasPrefixed = false ∧ table.hasFkey = false := by
  rw [← List.map_eq_nil_iff (f := Generated.target), List.eq_nil_iff_forall_not_mem]
  simp only [mem_targets, not_or, not_and, forall_and]
  constructor
  · rintro ⟨isPrefixed, isFkey⟩
    exact ⟨Bool.eq_false_iff.mpr fun own => isPrefixed _ own rfl,
      Bool.eq_false_iff.mpr fun own => isFkey _ own rfl⟩
  · rintro ⟨isPrefixed, isFkey⟩
    exact ⟨fun _ own => absurd own (by simp [isPrefixed]),
      fun _ own => absurd own (by simp [isFkey])⟩

/-- Walking a CREATE TABLE changes neither what it splits out nor the names in it. -/
theorem hasPrefixed_walked (rt : Runtime) (ws : WalkerState) :
    (table.walked rt ws).hasPrefixed = table.hasPrefixed := by
  have kept (k : TokenType) (parts : List Tree) :
      (parts.map (walkedTree rt ws)).any (hasType k) = parts.any (hasType k) := by
    have same (x : Tree) : hasType k (walkedTree rt ws x) = hasType k x := by simp [hasType]
    simp only [List.any_map, Function.comp_def, same]
  have columns : (table.walked rt ws).columnDefs =
      table.columnDefs.map (ColumnDef.walked rt ws) := by
    simp [CreateTable.columnDefs, CreateTable.walked, Function.comp_def]
  simp only [CreateTable.hasPrefixed, columns, List.any_map, Function.comp_def, ColumnDef.walked,
    ColumnDef.isAutoIncrement, kept]
  rfl

end Targets

/-! ## Which names denote the created table -/

/-- The schema in which a CREATE TABLE behind the given USE creates its table. -/
def createdSchema (server : Server ν) (use : Option String) (table : CreateTable) : ν :=
  match table.schema? with
  | some qualifier => server.ident qualifier
  | none => (use.map server.ident).getD server.current

theorem creation_reference (server : Server ν) (use : Option String) (table : CreateTable) :
    creation (server.searchPath use) (table.reference server) =
      some (createdSchema server use table, server.ident table.name.1.text) := by
  cases use <;> cases qualifier : table.schema? <;>
    simp [creation, CreateTable.reference, Server.nameOf, Server.searchPath, createdSchema,
      qualifier]

/-- The conditions under which all statements split out of a CREATE TABLE name its table. `use` is
the last USE in front of the statement and `final` the last one of the input. -/
structure WellNamed (server : Server ν) (holds : Place ν → Bool) (use final : Option String)
    (table : CreateTable) : Prop where
  identifier : table.hasPrefixed ∨ table.hasFkey →
    ∀ schema dot, table.qualifier = some (schema, dot) → schema.1.type = .id →
      server.ident schema.1.text = server.ident table.name.1.text
  schema : table.hasPrefixed → ∀ schema ∈ use,
    ∀ qualifier ∈ table.schema?, server.ident qualifier = server.ident schema
  reached : table.hasFkey ∨ table.hasPrefixed ∧ use = none →
    (server.searchPath final).find? (fun schema => holds (schema, server.ident table.name.1.text)) =
      some (createdSchema server use table)
  alone : table.hasPrefixed → table.hasFkey → use = none

private theorem ident_tablename_iff (server : Server ν) (table : CreateTable) :
    server.ident table.tablename = server.ident table.name.1.text ↔
      ∀ schema dot, table.qualifier = some (schema, dot) → schema.1.type = .id →
        server.ident schema.1.text = server.ident table.name.1.text := by
  rw [CreateTable.tablename]
  cases table.qualifier with
  | none => simp
  | some pair =>
    obtain ⟨schema, dot⟩ := pair
    constructor
    · rintro same _ _ ⟨⟩ isId
      simpa only [isId, ↓reduceIte] using same
    · intro same
      by_cases isId : schema.1.type = .id
      · simpa only [isId, ↓reduceIte] using same schema dot rfl isId
      · simp only [isId, ↓reduceIte]

/-- An emitted name with a schema prefix denotes the created table. -/
private theorem resolve_prefixed_iff (server : Server ν) (holds : Place ν → Bool) (schema : String)
    (path : List ν) (table : CreateTable) :
    resolve path holds (server.target (s!"{schema}.", table.tablename)) =
        some (createdSchema server (some schema) table, server.ident table.name.1.text) ↔
      server.ident table.tablename = server.ident table.name.1.text ∧
        ∀ qualifier ∈ table.schema?, server.ident qualifier = server.ident schema := by
  have dotted : s!"{schema}." = schema ++ "." := rfl
  have nonempty : s!"{schema}." ≠ "" := by simp [dotted]
  have undotted : String.ofList (s!"{schema}.").toList.dropLast = schema := by simp [dotted]
  have target : server.target (s!"{schema}.", table.tablename) =
      ⟨some (server.ident schema), server.ident table.tablename⟩ := by
    simp only [Server.target, nonempty, ↓reduceIte, undotted, Server.nameOf, Option.map_some]
  rw [target, resolve, Option.some.injEq, Prod.mk.injEq, and_comm]
  cases qualifier : table.schema? <;> simp [createdSchema, qualifier, eq_comm]

/-- An emitted name without one denotes the created table. -/
private theorem resolve_bare_iff (server : Server ν) (holds : Place ν → Bool) (use : Option String)
    (path : List ν) (table : CreateTable) :
    resolve path holds (server.target ("", table.tablename)) =
        some (createdSchema server use table, server.ident table.name.1.text) ↔
      server.ident table.tablename = server.ident table.name.1.text ∧
        path.find? (fun schema => holds (schema, server.ident table.name.1.text)) =
          some (createdSchema server use table) := by
  have target : server.target ("", table.tablename) = ⟨none, server.ident table.tablename⟩ := rfl
  rw [target, resolve, Option.map_eq_some_iff]
  constructor
  · rintro ⟨schema, found, same⟩
    obtain ⟨rfl, name⟩ := Prod.mk.inj same
    rw [name] at found
    exact ⟨name, found⟩
  · rintro ⟨name, found⟩
    rw [name]
    exact ⟨_, found, rfl⟩

/-- The schema prefix behind the given USE. -/
def schemaPrefix (use : Option String) : String :=
  use.elim "" fun schema => s!"{schema}."

private theorem targets_cases (schemaName : String) (table : CreateTable)
    (denotes : String × String → Prop) :
    (∀ written ∈ (table.generated schemaName).map Generated.target,
        (∀ other ∈ (table.generated schemaName).map Generated.target, other = written) ∧
        denotes written) ↔
      (table.hasPrefixed → table.hasFkey → schemaName = "") ∧
        (table.hasPrefixed → denotes (schemaName, table.tablename)) ∧
        (table.hasFkey → denotes ("", table.tablename)) := by
  simp only [mem_targets]
  constructor
  · intro all
    refine ⟨fun isPrefixed isFkey => ?_, fun isPrefixed => (all _ (.inl ⟨isPrefixed, rfl⟩)).2,
      fun isFkey => (all _ (.inr ⟨isFkey, rfl⟩)).2⟩
    have same := (all _ (.inr ⟨isFkey, rfl⟩)).1 _ (.inl ⟨isPrefixed, rfl⟩)
    exact (Prod.mk.inj same).1
  · rintro ⟨alone, withSchema, bare⟩ written (⟨isPrefixed, rfl⟩ | ⟨isFkey, rfl⟩)
    · refine ⟨?_, withSchema isPrefixed⟩
      rintro other (⟨-, rfl⟩ | ⟨isFkey, rfl⟩)
      · rfl
      · rw [alone isPrefixed isFkey]
    · refine ⟨?_, bare isFkey⟩
      rintro other (⟨isPrefixed, rfl⟩ | ⟨-, rfl⟩)
      · rw [alone isPrefixed isFkey]
      · rfl

/-- All names written for one table are the same and denote it, just when it is well named. -/
theorem targets_iff (server : Server ν) (holds : Place ν → Bool) (use final : Option String)
    (table : CreateTable) :
    (∀ written ∈ (table.generated (schemaPrefix use)).map Generated.target,
        (∀ other ∈ (table.generated (schemaPrefix use)).map Generated.target, other = written) ∧
        resolve (server.searchPath final) holds (server.target written) =
          creation (server.searchPath use) (table.reference server)) ↔
      WellNamed server holds use final table := by
  have bare := resolve_bare_iff server holds use (server.searchPath final) table
  rw [targets_cases, creation_reference]
  cases use with
  | none =>
    simp only [schemaPrefix, Option.elim_none, bare, ident_tablename_iff]
    constructor
    · rintro ⟨-, isPrefixed, isFkey⟩
      exact {
        identifier := fun some =>
          some.elim (fun own => (isPrefixed own).1) fun own => (isFkey own).1
        schema := nofun
        reached := fun some => some.elim (fun own => (isFkey own).2) fun own => (isPrefixed own.1).2
        alone := fun _ _ => rfl }
    · intro named
      exact ⟨fun _ _ => trivial,
        fun own => ⟨named.identifier (.inl own), named.reached (.inr ⟨own, rfl⟩)⟩,
        fun own => ⟨named.identifier (.inr own), named.reached (.inl own)⟩⟩
  | some schema =>
    have nonempty : s!"{schema}." ≠ "" := by
      have dotted : s!"{schema}." = schema ++ "." := rfl
      simp [dotted]
    simp only [schemaPrefix, Option.elim_some, bare, resolve_prefixed_iff, ident_tablename_iff]
    constructor
    · rintro ⟨alone, isPrefixed, isFkey⟩
      exact {
        identifier := fun some =>
          some.elim (fun own => (isPrefixed own).1) fun own => (isFkey own).1
        schema := by
          rintro own _ ⟨⟩
          exact (isPrefixed own).2
        reached := fun some => some.elim (fun own => (isFkey own).2) fun own => nomatch own.2
        alone := fun own fkey => absurd (alone own fkey) nonempty }
    · intro named
      exact ⟨fun own fkey => (nomatch named.alone own fkey),
        fun own => ⟨named.identifier (.inl own), named.schema own schema rfl⟩,
        fun own => ⟨named.identifier (.inr own), named.reached (.inl own)⟩⟩

/-- Every statement split out of a CREATE TABLE of the input writes one and the same name for its
table, and behind the input that name denotes the table that the CREATE TABLE has created. -/
def GeneratedNames (rt : Runtime) (ws : WalkerState) (server : Server ν) (holds : Place ν → Bool)
    (statements : List Statement) : Prop :=
  ∀ before table built after, statements = before ++ .createTable table built :: after →
    ∀ generated ∈ (Statement.createTable table built).generated rt (runStatements rt ws before),
      (∀ other ∈ (Statement.createTable table built).generated rt (runStatements rt ws before),
        other.target = generated.target) ∧
      resolve (server.searchPath (lastUse statements)) holds (server.target generated.target) =
        creation (server.searchPath (lastUse before)) (table.reference server)

private theorem wellNamed_walked (rt : Runtime) (ws : WalkerState) (server : Server ν)
    (holds : Place ν → Bool) (use final : Option String) (table : CreateTable) :
    WellNamed server holds use final (table.walked rt ws) ↔
      WellNamed server holds use final table := by
  have same := hasPrefixed_walked table rt ws
  constructor
  · rintro ⟨identifier, schema, reached, alone⟩
    rw [same] at identifier schema reached alone
    exact ⟨identifier, schema, reached, alone⟩
  · rintro ⟨identifier, schema, reached, alone⟩
    rw [← same] at identifier schema reached alone
    exact ⟨identifier, schema, reached, alone⟩

/-- The conditions on every CREATE TABLE of an input. -/
def WellNamedInput (server : Server ν) (holds : Place ν → Bool) (statements : List Statement) :
    Prop :=
  ∀ before table built after, statements = before ++ .createTable table built :: after →
    WellNamed server holds (lastUse before) (lastUse statements) table

/-- `pgify` appends to the postbuf what the statements of the input generate, and the generated
statements name the tables that their CREATE TABLE creates just when every CREATE TABLE is well
named. -/
theorem generatedNames_iff (rt : Runtime) (pgoptions : ℕ) (server : Server ν)
    (holds : Place ν → Bool) (eof : TokenIn [.eof]) (statements : List Statement) :
    (pgify rt (walkerstateNew pgoptions) (startRuleTree eof statements)).map
        (fun result => result.1.postbuf) =
      some (String.join
        ((emitted rt (walkerstateNew pgoptions) statements).map Generated.text)) ∧
    (GeneratedNames rt (walkerstateNew pgoptions) server holds statements ↔
      WellNamedInput server holds statements) := by
  constructor
  · obtain ⟨tree, walk, -⟩ := pgify_startRuleTree rt (walkerstateNew pgoptions) eof statements
    rw [walk, Option.map_some, postbuf_runStatements]
    simp [walkerstateNew]
  · refine forall_congr' fun before => forall_congr' fun table => forall_congr' fun built =>
      forall_congr' fun after => imp_congr_right fun _ => ?_
    have schemaName : (runStatements rt (walkerstateNew pgoptions) before).schemaName =
        schemaPrefix (lastUse before) :=
      schemaName_runStatements rt (walkerstateNew pgoptions) before
    generalize runStatements rt (walkerstateNew pgoptions) before = ws at schemaName ⊢
    rw [← wellNamed_walked rt ws, ← targets_iff, ← schemaName]
    simp only [List.forall_mem_map]
    rfl

/-! ## USE shop; CREATE TABLE orders (customer int, KEY (customer), FOREIGN KEY ...) -/

section Shop

private def shop : Statement :=
  .use ⟨⟨.kUse, "USE", .default, 1, 0⟩, by decide⟩ ⟨⟨.id, "shop", .default, 1, 4⟩, by decide⟩ none
    (by decide)

private def comma : TokenIn [.comma] := ⟨⟨.comma, ",", .default, 2, 0⟩, by decide⟩
private def lparen : TokenIn [.lparen] := ⟨⟨.lparen, "(", .default, 2, 0⟩, by decide⟩
private def rparen : TokenIn [.rparen] := ⟨⟨.rparen, ")", .default, 2, 0⟩, by decide⟩
private def customer : TokenIn [.id] := ⟨⟨.id, "customer", .default, 2, 0⟩, by decide⟩

private def orders : CreateTable where
  header := [⟨⟨.kCreate, "CREATE", .default, 2, 0⟩, by decide⟩,
    ⟨⟨.kTable, "TABLE", .default, 2, 7⟩, by decide⟩]
  qualifier := none
  name := ⟨⟨.id, "orders", .default, 2, 13⟩, by decide⟩
  lparen := lparen
  first := ⟨customer, [], nofun⟩
  columns := []
  constraints :=
    [(comma, .index ⟨none, none, ⟨lparen, ⟨customer, none⟩, [], rparen⟩, none⟩),
      (comma, .fkey [⟨.other 0, "FOREIGN", .default, 2, 50⟩, ⟨.kKey, "KEY", .default, 2, 58⟩,
        lparen.1, customer.1, rparen.1, ⟨.kReferences, "REFERENCES", .default, 2, 73⟩,
        ⟨.id, "customers", .default, 2, 84⟩, lparen.1, ⟨.id, "id", .default, 2, 95⟩, rparen.1])]
  rparen := rparen
  options := []
  as := none
  select := none
  semi := some ⟨⟨.semi, ";", .default, 2, 99⟩, by decide⟩

private theorem orders_built : orders.Built where
  spelled := by simp [orders]
  schema := by simp [orders]
  parts := by simp [orders, CreateTable.columnDefs]
  tokens := by simp [orders, Constraint.tokens, TokenType.isInert, lparen, customer, rparen]
  options := by simp [orders]
  select := by simp [orders]

/-- The index is made on `shop.orders` and the foreign key on `orders`. -/
theorem not_generatedNames_shop :
    ¬ GeneratedNames ⟨id, 0⟩ (walkerstateNew 0) (⟨id, "public", []⟩ : Server String)
      (fun place => place == ("shop", "orders")) [shop, .createTable orders orders_built] := by
  intro names
  have named := targets_iff ⟨id, "public", []⟩ (fun place => place == ("shop", "orders"))
    (some "shop") (some "shop") (orders.walked ⟨id, 0⟩ ⟨"shop.", "", 0, 1⟩)
  have own := named.mp fun written member => ?_
  · have alone := own.alone (by rw [hasPrefixed_walked]; rfl) rfl
    cases alone
  · obtain ⟨generated, there, rfl⟩ := List.mem_map.mp member
    have own := names [shop] orders orders_built [] rfl generated there
    exact ⟨List.forall_mem_map.mpr own.1, own.2⟩

end Shop

end Pgify.TableNames
