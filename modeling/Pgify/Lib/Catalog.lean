import Mathlib.Logic.Function.Basic
import Pgify.Lib.Deferral
import Pgify.Lib.SearchPath

/-! # A catalog of tables behind a search path

The state of a database session as far as data definition statements see it: the tables with their
required columns, defaults, indexes and triggers, the foreign keys between them, sequences and
functions. Commands create, fill and drop tables; alterations add to what is there. An alteration
first reads what its names denote and then writes one update, so it moves behind a command that
leaves alone what it reads and accepts what it writes: `Alteration.moves`.
-/

namespace Catalog

open SearchPath

variable {ν : Type*} [DecidableEq ν]

/-! ## States -/

/-- `required` are the columns that an INSERT has to give unless they have a default. -/
structure Table (ν : Type*) where
  required : List ν
  defaults : List (ν × String)
  indexes : List (ν × String)
  triggers : List (ν × String)
deriving DecidableEq

structure ForeignKey (ν : Type*) where
  table : Place ν
  referenced : Place ν
  definition : String
deriving DecidableEq

structure Relations (ν : Type*) where
  tables : Place ν → Option (Table ν)
  foreignKeys : List (ForeignKey ν)

structure State (ν : Type*) where
  relations : Relations ν
  sequences : List (Place ν)
  functions : List (Place ν × String)

namespace Relations

def holds (relations : Relations ν) (place : Place ν) : Bool :=
  (relations.tables place).isSome

def setTable (relations : Relations ν) (place : Place ν) (table : Option (Table ν)) :
    Relations ν :=
  { relations with tables := Function.update relations.tables place table }

end Relations

/-! ## Commands -/

/-- The commands of a script. INSERT without a column list gives every column. -/
inductive Command (ν : Type*) where
  | setSearchPath (path : List ν)
  | createTable (name : Reference ν) (ifNotExists : Bool) (table : Table ν)
  | createTableLike (name : Reference ν) (ifNotExists : Bool) (template : Reference ν)
  | insert (name : Reference ν) (given : Option (List ν))
  | dropTables (ifExists : Bool) (names : List (Reference ν))

/-- Whether an INSERT that gives these columns has a value for every required column. -/
def Table.accepts (table : Table ν) (given : Option (List ν)) : Bool :=
  table.required.all fun column =>
    given.all (fun columns => columns.contains column) ||
      table.defaults.any fun default => default.1 == column

namespace Relations

def create (relations : Relations ν) (place : Place ν) (ifNotExists : Bool) (table : Table ν) :
    Option (Relations ν) :=
  if relations.holds place then (if ifNotExists then some relations else none)
  else some (relations.setTable place (some table))

/-- The relations without a table and its foreign keys. -/
def remove (relations : Relations ν) (place : Place ν) : Relations ν :=
  ⟨Function.update relations.tables place none,
    relations.foreignKeys.filter fun key => key.table ≠ place⟩

/-- Whether a foreign key of another table references the table. -/
def isReferenced (relations : Relations ν) (place : Place ν) : Bool :=
  relations.foreignKeys.any fun key => key.table ≠ place ∧ key.referenced = place

/-- A referenced table is not dropped. -/
def drop (relations : Relations ν) (path : List ν) (ifExists : Bool) (name : Reference ν) :
    Option (Relations ν) :=
  match (resolve path relations.holds name).filter relations.holds with
  | none => if ifExists then some relations else none
  | some place =>
    if relations.isReferenced place then none else some (relations.remove place)

def dropAll (path : List ν) (ifExists : Bool) :
    List (Reference ν) → Relations ν → Option (Relations ν)
  | [], relations => some relations
  | name :: rest, relations =>
    (relations.drop path ifExists name).bind (dropAll path ifExists rest)

end Relations

namespace Command

def exec (path : List ν) : Command ν → Relations ν → Option (Relations ν)
  | setSearchPath _, relations => some relations
  | createTable name ifNotExists table, relations =>
    (creation path name).bind fun place => relations.create place ifNotExists table
  | createTableLike name ifNotExists template, relations =>
    (creation path name).bind fun place =>
      ((resolve path relations.holds template).bind relations.tables).bind fun table =>
        relations.create place ifNotExists ⟨table.required, [], [], []⟩
  | insert name given, relations =>
    ((resolve path relations.holds name).bind relations.tables).bind fun table =>
      if table.accepts given then some relations else none
  | dropTables ifExists names, relations => relations.dropAll path ifExists names

def onState (path : List ν) (command : Command ν) (state : State ν) : Option (State ν) :=
  (command.exec path state.relations).map fun relations => { state with relations := relations }

/-- The search path behind the command. -/
def pathAfter : Command ν → List ν → List ν
  | setSearchPath path, _ => path
  | _, path => path

/-- The place in which the command creates a table. -/
def creates (path : List ν) : Command ν → Option (Place ν)
  | createTable name _ _ => creation path name
  | createTableLike name _ _ => creation path name
  | _ => none

/-- The columns that a table of this command does not require. With IF NOT EXISTS the table may be
an older one. -/
def spares : Command ν → ν → Bool
  | createTable _ false table, column => !table.required.contains column
  | _, _ => false

/-- The places in which the command may drop a table. -/
def drops (path : List ν) : Command ν → List (Place ν)
  | dropTables _ names => names.flatMap (places path)
  | _ => []

end Command

/-! ## Alterations -/

/-- A change to one table. -/
inductive Change (ν : Type*) where
  | setDefault (column : ν) (expression : String)
  | createIndex (name : ν) (definition : String)
  | createTrigger (name : ν) (definition : String)

/-- Names of indexes and of triggers are not given twice. -/
def Change.apply : Change ν → Table ν → Option (Table ν)
  | setDefault column expression, table =>
    some { table with
      defaults := (column, expression) :: table.defaults.filter fun default => default.1 ≠ column }
  | createIndex name definition, table =>
    if table.indexes.any fun index => index.1 = name then none
    else some { table with indexes := table.indexes ++ [(name, definition)] }
  | createTrigger name definition, table =>
    if table.triggers.any fun trigger => trigger.1 = name then none
    else some { table with triggers := table.triggers ++ [(name, definition)] }

/-- The columns to which a change gives a default. -/
def Change.fills : Change ν → List ν
  | setDefault column _ => [column]
  | _ => []

inductive Alteration (ν : Type*) where
  | createFunction (name : Reference ν) (definition : String)
  | createSequence (name : Reference ν)
  | alter (name : Reference ν) (change : Change ν)
  | addForeignKey (name referenced : Reference ν) (definition : String)

/-- What an alteration writes to the relations. -/
inductive Update (ν : Type*) where
  | setTable (place : Place ν) (table : Table ν)
  | addForeignKey (key : ForeignKey ν)

def Update.apply : Update ν → Relations ν → Relations ν
  | setTable place table, relations => relations.setTable place (some table)
  | addForeignKey key, relations =>
    { relations with foreignKeys := relations.foreignKeys ++ [key] }

/-- The table that a name denotes. -/
def Relations.find (relations : Relations ν) (path : List ν) (name : Reference ν) :
    Option (Place ν × Table ν) :=
  (resolve path relations.holds name).bind fun place =>
    (relations.tables place).map fun table => (place, table)

namespace Alteration

/-- ALTER TABLE, CREATE INDEX and CREATE TRIGGER on the relations: read the tables that are named,
and write one update. -/
def update (path : List ν) (relations : Relations ν) : Alteration ν → Option (Update ν)
  | alter name change =>
    (relations.find path name).bind fun (place, table) => (change.apply table).map (.setTable place)
  | addForeignKey name referenced definition =>
    (relations.find path name).bind fun (place, _) =>
      (relations.find path referenced).map fun (target, _) =>
        .addForeignKey ⟨place, target, definition⟩
  | _ => none

/-- CREATE OR REPLACE FUNCTION never fails where there is a schema to create in. -/
def exec (path : List ν) : Alteration ν → State ν → Option (State ν)
  | createFunction name definition, state =>
    (creation path name).map fun place =>
      { state with
        functions := state.functions.filter (fun function => function.1 ≠ place) ++
          [(place, definition)] }
  | createSequence name, state =>
    (creation path name).bind fun place =>
      if state.sequences.contains place then none
      else some { state with sequences := state.sequences ++ [place] }
  | alteration, state =>
    (update path state.relations alteration).map fun update =>
      { state with relations := update.apply state.relations }

end Alteration

/-! ## What a command leaves alone -/

namespace Relations

variable {relations relations' : Relations ν} {path : List ν} {place : Place ν}

theorem holds_create {ifNotExists : Bool} {table : Table ν}
    (created : relations.create place ifNotExists table = some relations') :
    relations'.holds place = true := by
  rw [create] at created
  split at created
  · next there =>
    split at created
    · exact Option.some.inj created ▸ there
    · cases created
  · rw [← Option.some.inj created]
    simp [holds, setTable]

theorem tables_create_self {table : Table ν}
    (created : relations.create place false table = some relations') :
    relations'.tables place = some table := by
  rw [← Option.some.inj (Option.ite_none_left_eq_some.mp created).2]
  exact Function.update_self place _ _

theorem tables_create {ifNotExists : Bool} {table : Table ν}
    (created : relations.create place ifNotExists table = some relations') {other : Place ν}
    (apart : other ≠ place ∨ relations.holds other = true) :
    relations'.tables other = relations.tables other := by
  rw [create] at created
  split at created
  · split at created
    · rw [Option.some.inj created]
    · cases created
  · next absent =>
    have differs : other ≠ place := by
      rcases apart with differs | there
      · exact differs
      · rintro rfl
        exact absent there
    rw [← Option.some.inj created]
    exact Function.update_of_ne differs _ _

theorem tables_drop {ifExists : Bool} {name : Reference ν}
    (dropped : relations.drop path ifExists name = some relations') {other : Place ν}
    (apart : other ∉ places path name) : relations'.tables other = relations.tables other := by
  rw [drop] at dropped
  cases found : (resolve path relations.holds name).filter relations.holds with
  | none =>
    simp only [found, Option.ite_none_right_eq_some, Option.some.injEq] at dropped
    rw [dropped.2]
  | some place =>
    have differs : other ≠ place := by
      rintro rfl
      exact apart (mem_places_of_resolve (Option.filter_eq_some_iff.mp found).1)
    simp only [found, Option.ite_none_left_eq_some, Option.some.injEq] at dropped
    rw [← dropped.2]
    exact Function.update_of_ne differs _ _

theorem tables_dropAll {ifExists : Bool} {names : List (Reference ν)}
    (dropped : relations.dropAll path ifExists names = some relations') {other : Place ν}
    (apart : other ∉ names.flatMap (places path)) :
    relations'.tables other = relations.tables other := by
  induction names generalizing relations with
  | nil => rw [← Option.some.inj dropped]
  | cons name rest ih =>
    simp only [List.flatMap_cons, List.mem_append, not_or] at apart
    obtain ⟨middle, first, later⟩ := Option.bind_eq_some_iff.mp dropped
    rw [ih later apart.2, tables_drop first apart.1]

end Relations

namespace Command

variable {relations relations' : Relations ν} {path : List ν} {command : Command ν}

/-- A command changes what it drops and what it creates; what is there is not created again. -/
theorem tables_exec (run : command.exec path relations = some relations') {place : Place ν}
    (kept : place ∉ command.drops path)
    (apart : command.creates path ≠ some place ∨ relations.holds place = true) :
    relations'.tables place = relations.tables place := by
  cases command with
  | setSearchPath path => rw [← Option.some.inj run]
  | createTable name ifNotExists table =>
    obtain ⟨own, created, run⟩ := Option.bind_eq_some_iff.mp run
    refine Relations.tables_create run (apart.imp_left fun other same => other ?_)
    rw [creates, created, same]
  | createTableLike name ifNotExists template =>
    obtain ⟨own, created, run⟩ := Option.bind_eq_some_iff.mp run
    obtain ⟨table, -, run⟩ := Option.bind_eq_some_iff.mp run
    refine Relations.tables_create run (apart.imp_left fun other same => other ?_)
    rw [creates, created, same]
  | insert name given =>
    obtain ⟨table, -, run⟩ := Option.bind_eq_some_iff.mp run
    rw [(Option.ite_none_right_eq_some.mp run).2 |> Option.some.inj]
  | dropTables ifExists names => exact Relations.tables_dropAll run kept

end Command

/-! ## Writing in front of a command -/

section SetTable

variable {relations : Relations ν} {path : List ν} {place : Place ν} {old new : Table ν}
  (there : relations.tables place = some old)

include there

theorem holds_setTable : (relations.setTable place (some new)).holds = relations.holds := by
  funext other
  by_cases same : other = place
  · rw [same]
    simp [Relations.holds, Relations.setTable, there]
  · simp [Relations.holds, Relations.setTable, same]

theorem create_setTable (other : Place ν) (ifNotExists : Bool) (table : Table ν) :
    (relations.setTable place (some new)).create other ifNotExists table =
      (relations.create other ifNotExists table).map fun relations =>
        relations.setTable place (some new) := by
  rw [Relations.create, Relations.create, holds_setTable there]
  split
  · split <;> rfl
  · next absent =>
    have differs : other ≠ place := by
      rintro rfl
      exact absent (by simp [Relations.holds, there])
    simp only [Option.map_some, Relations.setTable, Function.update_comm differs]

theorem drop_setTable (ifExists : Bool) {name : Reference ν} (apart : place ∉ places path name) :
    (relations.setTable place (some new)).drop path ifExists name =
      (relations.drop path ifExists name).map fun relations =>
        relations.setTable place (some new) := by
  rw [Relations.drop, Relations.drop, holds_setTable there]
  cases found : (resolve path relations.holds name).filter relations.holds with
  | none => cases ifExists <;> rfl
  | some other =>
    have differs : other ≠ place := by
      rintro rfl
      exact apart (mem_places_of_resolve (Option.filter_eq_some_iff.mp found).1)
    have removed : (relations.setTable place (some new)).remove other =
        (relations.remove other).setTable place (some new) := by
      simp only [Relations.remove, Relations.setTable, Function.update_comm differs]
    have referenced : (relations.setTable place (some new)).isReferenced other =
        relations.isReferenced other := rfl
    simp only [referenced, removed]
    split <;> rfl

theorem dropAll_setTable (ifExists : Bool) {names : List (Reference ν)}
    (apart : place ∉ names.flatMap (places path)) :
    (relations.setTable place (some new)).dropAll path ifExists names =
      (relations.dropAll path ifExists names).map fun relations =>
        relations.setTable place (some new) := by
  induction names generalizing relations with
  | nil => rfl
  | cons name rest ih =>
    simp only [List.flatMap_cons, List.mem_append, not_or] at apart
    rw [Relations.dropAll, Relations.dropAll, drop_setTable there ifExists apart.1]
    cases dropped : relations.drop path ifExists name with
    | none => rfl
    | some middle =>
      exact ih ((Relations.tables_drop dropped apart.1).trans there) apart.2

/-- A table may be rewritten in front of a command, if the command does not drop it and its required
columns stay as they are, and if INSERTs into it are accepted as before. -/
theorem exec_setTable (required : new.required = old.required) {command : Command ν}
    (kept : place ∉ command.drops path)
    (accepted : ∀ name given, command = .insert name given → place ∈ places path name →
      new.accepts given = old.accepts given) :
    command.exec path (relations.setTable place (some new)) =
      (command.exec path relations).map fun relations => relations.setTable place (some new) := by
  cases command with
  | setSearchPath path => rfl
  | createTable name ifNotExists table =>
    simp only [Command.exec, create_setTable there]
    cases creation path name <;> rfl
  | createTableLike name ifNotExists template =>
    simp only [Command.exec, create_setTable there, holds_setTable there]
    cases creation path name with
    | none => rfl
    | some other =>
      cases resolve path relations.holds template with
      | none => rfl
      | some source =>
        by_cases same : source = place
        · simp [Relations.setTable, same, there, required]
        · simp only [Option.bind_some, Relations.setTable, Function.update_of_ne same]
          cases relations.tables source <;> rfl
  | insert name given =>
    simp only [Command.exec, holds_setTable there]
    cases target : resolve path relations.holds name with
    | none => rfl
    | some other =>
      by_cases same : other = place
      · have own := accepted name given rfl (same ▸ mem_places_of_resolve target)
        simp only [Option.bind_some, Relations.setTable, same, Function.update_self, there, own]
        split <;> rfl
      · simp only [Option.bind_some, Relations.setTable, Function.update_of_ne same]
        cases relations.tables other with
        | none => rfl
        | some table =>
          simp only [Option.bind_some]
          split <;> rfl
  | dropTables ifExists names => exact dropAll_setTable there ifExists kept

end SetTable

section AddForeignKey

variable {relations : Relations ν} {path : List ν} {key : ForeignKey ν}

theorem drop_addForeignKey (ifExists : Bool) {name : Reference ν}
    (table : key.table ∉ places path name) (referenced : key.referenced ∉ places path name) :
    ((Update.addForeignKey key).apply relations).drop path ifExists name =
      (relations.drop path ifExists name).map (Update.addForeignKey key).apply := by
  have holds : ((Update.addForeignKey key).apply relations).holds = relations.holds := rfl
  rw [Relations.drop, Relations.drop, holds]
  cases found : (resolve path relations.holds name).filter relations.holds with
  | none => cases ifExists <;> rfl
  | some other =>
    have member := mem_places_of_resolve (Option.filter_eq_some_iff.mp found).1
    have otherTable : key.table ≠ other := by
      rintro rfl
      exact table member
    have otherReferenced : key.referenced ≠ other := by
      rintro rfl
      exact referenced member
    have same : ((Update.addForeignKey key).apply relations).isReferenced other =
        relations.isReferenced other := by
      simp [Relations.isReferenced, Update.apply, otherReferenced]
    have removed : ((Update.addForeignKey key).apply relations).remove other =
        (Update.addForeignKey key).apply (relations.remove other) := by
      simp [Relations.remove, Update.apply, otherTable]
    simp only [same, removed]
    split <;> rfl

theorem dropAll_addForeignKey (ifExists : Bool) {names : List (Reference ν)}
    (table : key.table ∉ names.flatMap (places path))
    (referenced : key.referenced ∉ names.flatMap (places path)) :
    ((Update.addForeignKey key).apply relations).dropAll path ifExists names =
      (relations.dropAll path ifExists names).map (Update.addForeignKey key).apply := by
  induction names generalizing relations with
  | nil => rfl
  | cons name rest ih =>
    simp only [List.flatMap_cons, List.mem_append, not_or] at table referenced
    rw [Relations.dropAll, Relations.dropAll, drop_addForeignKey ifExists table.1 referenced.1]
    cases relations.drop path ifExists name with
    | none => rfl
    | some middle => exact ih table.2 referenced.2

/-- A foreign key may be added in front of a command that drops neither of its tables. -/
theorem exec_addForeignKey {command : Command ν} (table : key.table ∉ command.drops path)
    (referenced : key.referenced ∉ command.drops path) :
    command.exec path ((Update.addForeignKey key).apply relations) =
      (command.exec path relations).map (Update.addForeignKey key).apply := by
  have holds : ((Update.addForeignKey key).apply relations).holds = relations.holds := rfl
  have create (place : Place ν) (ifNotExists : Bool) (table : Table ν) :
      ((Update.addForeignKey key).apply relations).create place ifNotExists table =
        (relations.create place ifNotExists table).map (Update.addForeignKey key).apply := by
    rw [Relations.create, Relations.create, holds]
    split
    · split <;> rfl
    · rfl
  cases command with
  | setSearchPath path => rfl
  | createTable name ifNotExists table =>
    simp only [Command.exec, create]
    cases creation path name <;> rfl
  | createTableLike name ifNotExists template =>
    simp only [Command.exec, create, holds]
    cases creation path name with
    | none => rfl
    | some other =>
      cases resolve path relations.holds template with
      | none => rfl
      | some source =>
        simp only [Option.bind_some, Update.apply]
        cases relations.tables source <;> rfl
  | insert name given =>
    simp only [Command.exec, holds]
    cases resolve path relations.holds name with
    | none => rfl
    | some other =>
      simp only [Option.bind_some, Update.apply]
      cases relations.tables other with
      | none => rfl
      | some table =>
        simp only [Option.bind_some]
        split <;> rfl
  | dropTables ifExists names => exact dropAll_addForeignKey ifExists table referenced

end AddForeignKey

/-! ## Moving an alteration behind a command -/

/-- The places that a name may denote while the table that was created in `created` is there. -/
def settled (path : List ν) (created : Option (Place ν)) (name : Reference ν) : List (Place ν) :=
  if creation path name = created then created.toList else places path name

/-- The places whose tables an alteration reads. -/
def Alteration.reads (path : List ν) (created : Option (Place ν)) : Alteration ν → List (Place ν)
  | alter name _ => settled path created name
  | addForeignKey name referenced _ => settled path created name ++ settled path created referenced
  | _ => []

/-- The columns to which an alteration gives a default. -/
def Alteration.fills : Alteration ν → List ν
  | alter _ change => change.fills
  | _ => []

/-- A later command leaves an alteration alone. The table in `created` does not require what is
spared. -/
structure Undisturbed (path : List ν) (created : Option (Place ν)) (spared : ν → Bool)
    (alteration : Alteration ν) (later : List ν) (command : Command ν) : Prop where
  dropped : ∀ place ∈ alteration.reads path created, place ∉ command.drops later
  appeared : ∀ place ∈ alteration.reads path created, command.creates later = some place →
    created = some place
  filled : ∀ name given, command = .insert name given →
    ∀ place ∈ alteration.reads path created, place ∈ places later name →
      ∀ column ∈ alteration.fills,
        given.all (fun columns => columns.contains column) = true ∨
          created = some place ∧ spared column = true

omit [DecidableEq ν] in
theorem resolve_of_find {relations : Relations ν} {path : List ν} {name : Reference ν}
    {place : Place ν} {table : Table ν} (found : relations.find path name = some (place, table)) :
    resolve path relations.holds name = some place ∧ relations.tables place = some table := by
  obtain ⟨own, resolved, found⟩ := Option.bind_eq_some_iff.mp found
  obtain ⟨ownTable, there, same⟩ := Option.map_eq_some_iff.mp found
  obtain ⟨rfl, rfl⟩ := Prod.mk.inj same
  exact ⟨resolved, there⟩

section Moves

variable {path later : List ν} {created : Option (Place ν)} {spared : ν → Bool}
  {relations relations' : Relations ν} {command : Command ν}

/-- While the created table is there, a name denotes one of its settled places. -/
theorem mem_settled_of_resolve {name : Reference ν} {place : Place ν}
    (there : ∀ place ∈ created, place ∈ settled path created name → relations.holds place = true)
    (resolved : resolve path relations.holds name = some place) :
    place ∈ settled path created name := by
  rw [settled] at there ⊢
  split at there
  · next own =>
    have denotes : resolve path relations.holds name = created :=
      resolve_of_created own fun place member => there place member (Option.mem_toList.mpr member)
    rw [if_pos own, Option.mem_toList, ← denotes]
    exact resolved
  · next other =>
    rw [if_neg other]
    exact mem_places_of_resolve resolved

/-- A name keeps its meaning as long as its settled places keep their tables. -/
theorem resolve_settled {name : Reference ν}
    (there : ∀ place ∈ created, place ∈ settled path created name → relations.holds place = true)
    (same : ∀ place ∈ settled path created name,
      relations'.tables place = relations.tables place) :
    resolve path relations'.holds name = resolve path relations.holds name := by
  have holds : ∀ place ∈ settled path created name,
      relations'.holds place = relations.holds place := by
    intro place member
    rw [Relations.holds, same place member]
    rfl
  by_cases own : creation path name = created
  · have member : ∀ place ∈ created, place ∈ settled path created name := by
      intro place member
      rw [settled, if_pos own]
      exact Option.mem_toList.mpr member
    have held : ∀ place ∈ created, relations.holds place = true :=
      fun place own => there place own (member place own)
    rw [resolve_of_created own held, resolve_of_created own fun place own => by
      rw [holds place (member place own), held place own]]
  · rw [settled, if_neg own] at holds
    exact resolve_congr holds

/-- A name goes on to denote the same table. -/
theorem find_settled {name : Reference ν}
    (there : ∀ place ∈ created, place ∈ settled path created name → relations.holds place = true)
    (same : ∀ place ∈ settled path created name,
      relations'.tables place = relations.tables place) :
    relations'.find path name = relations.find path name := by
  rw [Relations.find, Relations.find, resolve_settled there same]
  cases resolved : resolve path relations.holds name with
  | none => rfl
  | some place =>
    rw [Option.bind_some, Option.bind_some, same place (mem_settled_of_resolve there resolved)]

variable {alteration : Alteration ν}

/-- There is a table in the place, and it requires no spared column. -/
def Relations.Spares (relations : Relations ν) (spared : ν → Bool) (place : Place ν) : Prop :=
  ∃ table, relations.tables place = some table ∧
    ∀ column ∈ table.required, spared column = false

omit [DecidableEq ν] in
theorem Relations.Spares.holds {place : Place ν} (there : relations.Spares spared place) :
    relations.holds place = true := by
  obtain ⟨table, own, -⟩ := there
  rw [Relations.holds, own, Option.isSome_some]

theorem Command.spares_exec (run : command.exec later relations = some relations')
    {place : Place ν} (kept : place ∉ command.drops later)
    (there : relations.Spares spared place) : relations'.Spares spared place := by
  rw [Relations.Spares, Command.tables_exec run kept (.inr there.holds)]
  exact there

/-- What an alteration reads is there, as far as its table has been created in front of it. -/
def Alteration.Grounded (path : List ν) (created : Option (Place ν)) (spared : ν → Bool)
    (alteration : Alteration ν) (relations : Relations ν) : Prop :=
  ∀ place ∈ created, place ∈ alteration.reads path created → relations.Spares spared place

theorem Alteration.Grounded.holds {alteration : Alteration ν}
    (grounded : alteration.Grounded path created spared relations) :
    ∀ place ∈ created, place ∈ alteration.reads path created → relations.holds place = true :=
  fun place own read => (grounded place own read).holds

/-- An undisturbed alteration writes the same update behind the command as in front of it. -/
theorem update_exec (grounded : alteration.Grounded path created spared relations)
    (undisturbed : Undisturbed path created spared alteration later command)
    (run : command.exec later relations = some relations') :
    alteration.update path relations' = alteration.update path relations := by
  have same : ∀ place ∈ alteration.reads path created,
      relations'.tables place = relations.tables place := by
    intro place member
    refine Command.tables_exec run (undisturbed.dropped place member) ?_
    by_cases appeared : command.creates later = some place
    · exact .inr (grounded.holds place (undisturbed.appeared place member appeared) member)
    · exact .inl appeared
  cases alteration with
  | createFunction name definition => rfl
  | createSequence name => rfl
  | alter name change => rw [Alteration.update, find_settled grounded.holds same]; rfl
  | addForeignKey name referenced definition =>
    have there := grounded.holds
    simp only [Alteration.reads, List.mem_append] at there same
    rw [Alteration.update, find_settled (fun place own member => there place own (.inl member))
        fun place member => same place (.inl member),
      find_settled (fun place own member => there place own (.inr member))
        fun place member => same place (.inr member)]
    rfl

theorem Change.required_apply {change : Change ν} {old new : Table ν}
    (applied : change.apply old = some new) : new.required = old.required := by
  cases change with
  | setDefault column expression => rw [← Option.some.inj applied]
  | createIndex name definition =>
    rw [← Option.some.inj (Option.ite_none_left_eq_some.mp applied).2]
  | createTrigger name definition =>
    rw [← Option.some.inj (Option.ite_none_left_eq_some.mp applied).2]

/-- An INSERT is accepted as before if it gives the required columns with a new default. -/
theorem Change.accepts_apply {change : Change ν} {old new : Table ν}
    (applied : change.apply old = some new) {given : Option (List ν)}
    (filled : ∀ column ∈ change.fills,
      given.all (fun columns => columns.contains column) = true ∨ column ∉ old.required) :
    new.accepts given = old.accepts given := by
  cases change with
  | setDefault column expression =>
    rw [← Option.some.inj applied, Table.accepts, Table.accepts, Bool.eq_iff_iff, List.all_eq_true,
      List.all_eq_true]
    refine forall₂_congr fun other required => Bool.eq_iff_iff.mp ?_
    by_cases same : other = column
    · have own : given.all (fun columns => columns.contains column) = true :=
        (filled column List.mem_cons_self).resolve_right fun absent => absent (same ▸ required)
      rw [same, own, Bool.true_or, Bool.true_or]
    · have kept : (fun default : ν × String => decide (default.1 ≠ column) && default.1 == other) =
          fun default => default.1 == other := by
        funext default
        by_cases hit : default.1 = other <;> simp [hit, same]
      have fresh : (column == other) = false := by simpa using Ne.symm same
      rw [List.any_cons, List.any_filter, kept, fresh, Bool.false_or]
  | createIndex name definition =>
    rw [← Option.some.inj (Option.ite_none_left_eq_some.mp applied).2]
    rfl
  | createTrigger name definition =>
    rw [← Option.some.inj (Option.ite_none_left_eq_some.mp applied).2]
    rfl

/-- What an undisturbed alteration writes may be written in front of the command. -/
theorem exec_update (grounded : alteration.Grounded path created spared relations)
    (undisturbed : Undisturbed path created spared alteration later command) {update : Update ν}
    (written : alteration.update path relations = some update) :
    command.exec later (update.apply relations) =
      (command.exec later relations).map update.apply := by
  cases alteration with
  | createFunction name definition => cases written
  | createSequence name => cases written
  | alter name change =>
    obtain ⟨⟨place, old⟩, found, written⟩ := Option.bind_eq_some_iff.mp written
    obtain ⟨new, applied, rfl⟩ := Option.map_eq_some_iff.mp written
    obtain ⟨resolved, there⟩ := resolve_of_find found
    have member := mem_settled_of_resolve grounded.holds resolved
    refine exec_setTable there (Change.required_apply applied) (undisturbed.dropped place member) ?_
    intro target given insert own
    refine Change.accepts_apply applied fun column fills => ?_
    refine (undisturbed.filled target given insert place member own column fills).imp_right ?_
    rintro ⟨here, spared⟩ required
    obtain ⟨table, same, absent⟩ := grounded place here member
    obtain rfl := Option.some.inj (there.symm.trans same)
    exact absurd spared (by simp [absent column required])
  | addForeignKey name referenced definition =>
    obtain ⟨⟨place, table⟩, found, written⟩ := Option.bind_eq_some_iff.mp written
    obtain ⟨⟨target, targetTable⟩, targetFound, rfl⟩ := Option.map_eq_some_iff.mp written
    have there := grounded.holds
    simp only [Alteration.reads, List.mem_append] at there
    have member := mem_settled_of_resolve (fun place own member => there place own (.inl member))
      (resolve_of_find found).1
    have targetMember := mem_settled_of_resolve
      (fun place own member => there place own (.inr member)) (resolve_of_find targetFound).1
    exact exec_addForeignKey (undisturbed.dropped place (List.mem_append_left _ member))
      (undisturbed.dropped target (List.mem_append_right _ targetMember))

/-- What leaves the relations alone moves behind every command. -/
private theorem bind_of_apart {act : State ν → Option (State ν)}
    (any : ∀ state relations, act { state with relations := relations } =
      (act state).map fun state => { state with relations := relations })
    (kept : ∀ state state', act state = some state' → state'.relations = state.relations)
    (state : State ν) :
    (act state).bind (command.onState later) = (command.onState later state).bind act := by
  rw [Command.onState]
  cases ran : act state with
  | none =>
    cases command.exec later state.relations with
    | none => rfl
    | some relations => rw [Option.map_some, Option.bind_some, any, ran]; rfl
  | some state' =>
    rw [Option.bind_some, Command.onState, kept state state' ran]
    cases command.exec later state.relations with
    | none => rfl
    | some relations => rw [Option.map_some, Option.map_some, Option.bind_some, any, ran]; rfl

/-- What reads the relations and writes an update moves behind an undisturbed command. -/
private theorem bind_of_update
    (undisturbed : Undisturbed path created spared alteration later command)
    {act : State ν → Option (State ν)}
    (reads : ∀ state, act state = (alteration.update path state.relations).map fun update =>
      { state with relations := update.apply state.relations })
    (state : State ν) (grounded : alteration.Grounded path created spared state.relations) :
    (act state).bind (command.onState later) = (command.onState later state).bind act := by
  rw [Command.onState, reads]
  cases run : command.exec later state.relations with
  | none =>
    cases written : alteration.update path state.relations with
    | none => rfl
    | some update => simp [Command.onState, exec_update grounded undisturbed written, run]
  | some relations =>
    have behind := update_exec grounded undisturbed run
    cases written : alteration.update path state.relations with
    | none => simp [reads, behind, written]
    | some update =>
      simp [Command.onState, exec_update grounded undisturbed written, run, reads, behind, written]

/-- An undisturbed alteration may be run in front of the command or behind it. -/
theorem Alteration.moves (undisturbed : Undisturbed path created spared alteration later command) :
    Deferral.Moves (fun state => alteration.Grounded path created spared state.relations)
      (alteration.exec path) (command.onState later) := by
  intro state grounded
  cases alteration with
  | createFunction name definition =>
    refine bind_of_apart (fun state relations => ?_) (fun state state' ran => ?_) state
    · simp only [exec, Option.map_map]
      rfl
    · obtain ⟨place, -, rfl⟩ := Option.map_eq_some_iff.mp ran
      rfl
  | createSequence name =>
    refine bind_of_apart (fun state relations => ?_) (fun state state' ran => ?_) state
    · simp only [exec]
      cases creation path name with
      | none => rfl
      | some place =>
        simp only [Option.bind_some]
        split <;> rfl
    · obtain ⟨place, -, ran⟩ := Option.bind_eq_some_iff.mp ran
      rw [← Option.some.inj (Option.ite_none_left_eq_some.mp ran).2]
  | alter name change => exact bind_of_update undisturbed (fun _ => rfl) state grounded
  | addForeignKey name referenced definition =>
    exact bind_of_update undisturbed (fun _ => rfl) state grounded

end Moves

end Catalog
