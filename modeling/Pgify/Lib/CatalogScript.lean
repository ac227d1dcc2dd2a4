import Pgify.Lib.Catalog

/-! # Scripts over a catalog

A script is a list of commands, each with the alterations generated for it. They may be run in place
or deferred to the end of the script, under the search path that the last command has left.
`run_deferred` says that both runs end alike, also in failure, if every alteration reads its names
under the path it would have in place and is left undisturbed by the commands behind it.
-/

namespace Catalog

open SearchPath

variable {ν : Type*} [DecidableEq ν]

structure Session (ν : Type*) where
  path : List ν
  state : State ν

/-- One SQL statement of a script. -/
inductive Sql (ν : Type*) where
  | command (command : Command ν)
  | alteration (alteration : Alteration ν)

def Sql.exec : Sql ν → Session ν → Option (Session ν)
  | .command own, session =>
    (own.onState session.path session.state).map fun state => ⟨own.pathAfter session.path, state⟩
  | .alteration own, session =>
    (own.exec session.path session.state).map fun state => ⟨session.path, state⟩

def run (script : List (Sql ν)) (session : Session ν) : Option (Session ν) :=
  Deferral.run (script.map Sql.exec) session

/-- A command and the alterations generated for it. -/
structure Entry (ν : Type*) where
  command : Command ν
  alterations : List (Alteration ν)

def inPlace (entries : List (Entry ν)) : List (Sql ν) :=
  entries.flatMap fun entry => .command entry.command :: entry.alterations.map .alteration

def deferred (entries : List (Entry ν)) : List (Sql ν) :=
  entries.map (fun entry => .command entry.command) ++
    (entries.flatMap Entry.alterations).map .alteration

/-- The search path behind a script. -/
def pathBehind (path : List ν) (entries : List (Entry ν)) : List ν :=
  entries.foldl (fun path entry => entry.command.pathAfter path) path

/-- The commands of a script with the search paths in front of them. -/
def commandsUnder : List ν → List (Entry ν) → List (List ν × Command ν)
  | _, [] => []
  | path, entry :: rest =>
    (path, entry.command) :: commandsUnder (entry.command.pathAfter path) rest

/-! ## Names that do not depend on the path -/

/-- Every name in the alteration has a schema. -/
def Alteration.isQualified : Alteration ν → Bool
  | createFunction name _ => name.schema.isSome
  | createSequence name => name.schema.isSome
  | alter name _ => name.schema.isSome
  | addForeignKey name referenced _ => name.schema.isSome && referenced.schema.isSome

theorem Alteration.exec_of_isQualified {alteration : Alteration ν}
    (qualified : alteration.isQualified = true) (path path' : List ν) :
    alteration.exec path = alteration.exec path' := by
  have creation {name : Reference ν} (own : name.schema.isSome = true) :
      creation path name = creation path' name := by
    obtain ⟨schema, present⟩ := Option.isSome_iff_exists.mp own
    simp [SearchPath.creation, present]
  have find {name : Reference ν} (own : name.schema.isSome = true) (relations : Relations ν) :
      relations.find path name = relations.find path' name := by
    obtain ⟨schema, present⟩ := Option.isSome_iff_exists.mp own
    simp [Relations.find, resolve, present]
  funext state
  cases alteration with
  | createFunction name definition => rw [exec, exec, creation qualified]
  | createSequence name => rw [exec, exec, creation qualified]
  | alter name change => simp only [exec, update, find qualified]
  | addForeignKey name referenced definition =>
    obtain ⟨own, other⟩ := Bool.and_eq_true_iff.mp qualified
    simp only [exec, update, find own, find other]

/-! ## Deferring -/

/-- The alterations of every entry may wait for the end of the script, where the search path is
`final`. -/
def Deferrable (final : List ν) : List ν → List (Entry ν) → Prop
  | _, [] => True
  | path, entry :: rest =>
    (∀ alteration ∈ entry.alterations,
      (alteration.isQualified = true ∨ entry.command.pathAfter path = final) ∧
      ∀ later ∈ commandsUnder (entry.command.pathAfter path) rest,
        Undisturbed (entry.command.pathAfter path) (entry.command.creates path)
          entry.command.spares alteration later.1 later.2) ∧
    Deferrable final (entry.command.pathAfter path) rest

/-- The steps of a script on the state alone, each under its own search path. -/
private def steps : List ν → List (Entry ν) → List (Deferral.Step (State ν))
  | _, [] => []
  | path, entry :: rest =>
    ⟨entry.command.onState path,
        entry.alterations.map (Alteration.exec (entry.command.pathAfter path))⟩ ::
      steps (entry.command.pathAfter path) rest

private theorem run_alterations (path : List ν) (alterations : List (Alteration ν))
    (state : State ν) :
    Deferral.run ((alterations.map Sql.alteration).map Sql.exec) ⟨path, state⟩ =
      (Deferral.run (alterations.map (Alteration.exec path)) state).map fun state =>
        ⟨path, state⟩ := by
  induction alterations generalizing state with
  | nil => rfl
  | cons alteration rest ih =>
    simp only [List.map_cons, Deferral.run, Sql.exec]
    cases alteration.exec path state with
    | none => rfl
    | some state => exact ih state

private theorem run_commands (path : List ν) (entries : List (Entry ν)) (state : State ν) :
    Deferral.run ((entries.map fun entry => Sql.command entry.command).map Sql.exec)
        ⟨path, state⟩ =
      (Deferral.run ((steps path entries).map Deferral.Step.command) state).map fun state =>
        ⟨pathBehind path entries, state⟩ := by
  induction entries generalizing path state with
  | nil => rfl
  | cons entry rest ih =>
    simp only [List.map_cons, Deferral.run, Sql.exec, steps]
    cases entry.command.onState path state with
    | none => rfl
    | some state => exact ih (entry.command.pathAfter path) state

private theorem run_inPlace (path : List ν) (entries : List (Entry ν)) (state : State ν) :
    run (inPlace entries) ⟨path, state⟩ =
      (Deferral.run (Deferral.inPlace (steps path entries)) state).map fun state =>
        ⟨pathBehind path entries, state⟩ := by
  induction entries generalizing path state with
  | nil => rfl
  | cons entry rest ih =>
    have shape : run (inPlace (entry :: rest)) ⟨path, state⟩ =
        (Sql.exec (.command entry.command) ⟨path, state⟩).bind fun session =>
          (Deferral.run ((entry.alterations.map Sql.alteration).map Sql.exec) session).bind
            (run (inPlace rest)) := by
      simp only [run, inPlace, List.flatMap_cons, List.cons_append, List.map_cons, List.map_append,
        Deferral.run]
      exact congrArg _ (funext (Deferral.run_append _ _))
    simp only [shape, steps, Deferral.inPlace, List.flatMap_cons, List.cons_append, Deferral.run,
      Sql.exec]
    cases entry.command.onState path state with
    | none => rfl
    | some state =>
      simp only [Option.map_some, Option.bind_some, run_alterations, Deferral.run_append]
      cases Deferral.run (entry.alterations.map
          (Alteration.exec (entry.command.pathAfter path))) state with
      | none => rfl
      | some state => exact ih (entry.command.pathAfter path) state

/-! ### The invariants of the steps -/

theorem spares_update {alteration : Alteration ν} {path : List ν} {relations : Relations ν}
    {update : Update ν} (written : alteration.update path relations = some update)
    {spared : ν → Bool} {place : Place ν} (there : relations.Spares spared place) :
    (update.apply relations).Spares spared place := by
  cases alteration with
  | createFunction name definition => cases written
  | createSequence name => cases written
  | alter name change =>
    obtain ⟨⟨own, old⟩, found, written⟩ := Option.bind_eq_some_iff.mp written
    obtain ⟨new, applied, rfl⟩ := Option.map_eq_some_iff.mp written
    obtain ⟨table, here, spares⟩ := there
    by_cases same : place = own
    · obtain rfl := Option.some.inj (here.symm.trans (same ▸ (resolve_of_find found).2))
      refine ⟨new, ?_, Change.required_apply applied ▸ spares⟩
      rw [same]
      exact Function.update_self own _ _
    · exact ⟨table, (Function.update_of_ne same _ _).trans here, spares⟩
  | addForeignKey name referenced definition =>
    obtain ⟨⟨own, table⟩, -, written⟩ := Option.bind_eq_some_iff.mp written
    obtain ⟨target, -, rfl⟩ := Option.map_eq_some_iff.mp written
    exact there

/-- An alteration removes no table and makes no column required. -/
theorem spares_alteration {alteration : Alteration ν} {path : List ν} {state state' : State ν}
    (ran : alteration.exec path state = some state') {spared : ν → Bool} {place : Place ν}
    (there : state.relations.Spares spared place) : state'.relations.Spares spared place := by
  cases alteration with
  | createFunction name definition =>
    obtain ⟨own, -, rfl⟩ := Option.map_eq_some_iff.mp ran
    exact there
  | createSequence name =>
    obtain ⟨own, -, ran⟩ := Option.bind_eq_some_iff.mp ran
    rw [← Option.some.inj (Option.ite_none_left_eq_some.mp ran).2]
    exact there
  | alter name change =>
    obtain ⟨update, written, rfl⟩ := Option.map_eq_some_iff.mp ran
    exact spares_update written there
  | addForeignKey name referenced definition =>
    obtain ⟨update, written, rfl⟩ := Option.map_eq_some_iff.mp ran
    exact spares_update written there

/-- A command that creates a table leaves it there. -/
theorem spares_creates {command : Command ν} {path : List ν} {relations relations' : Relations ν}
    (ran : command.exec path relations = some relations') {place : Place ν}
    (own : command.creates path = some place) : relations'.Spares command.spares place := by
  cases command with
  | setSearchPath path => cases own
  | createTable name ifNotExists table =>
    obtain ⟨created, here, ran⟩ := Option.bind_eq_some_iff.mp ran
    obtain rfl := Option.some.inj (own.symm.trans here)
    cases ifNotExists with
    | true =>
      obtain ⟨there, same⟩ := Option.isSome_iff_exists.mp (Relations.holds_create ran)
      exact ⟨there, same, fun _ _ => rfl⟩
    | false =>
      refine ⟨table, Relations.tables_create_self ran, fun column required => ?_⟩
      simpa [Command.spares] using required
  | createTableLike name ifNotExists template =>
    obtain ⟨created, here, ran⟩ := Option.bind_eq_some_iff.mp ran
    obtain rfl := Option.some.inj (own.symm.trans here)
    obtain ⟨table, -, ran⟩ := Option.bind_eq_some_iff.mp ran
    obtain ⟨there, same⟩ := Option.isSome_iff_exists.mp (Relations.holds_create ran)
    exact ⟨there, same, fun _ _ => rfl⟩
  | insert name given => cases own
  | dropTables ifExists names => cases own

private theorem map_command_steps (path : List ν) (entries : List (Entry ν)) :
    (steps path entries).map Deferral.Step.command =
      (commandsUnder path entries).map fun (path, command) => command.onState path := by
  induction entries generalizing path with
  | nil => rfl
  | cons entry rest ih => exact congrArg _ (ih _)

private theorem deferrable_step {final path : List ν} {entry : Entry ν} {rest : List (Entry ν)}
    (deferrable : Deferrable final path (entry :: rest)) :
    Deferral.Deferrable
      ⟨entry.command.onState path,
        entry.alterations.map (Alteration.exec (entry.command.pathAfter path))⟩
      ((steps (entry.command.pathAfter path) rest).map Deferral.Step.command)
      fun state => ∀ alteration ∈ entry.alterations,
        alteration.Grounded (entry.command.pathAfter path) (entry.command.creates path)
          entry.command.spares state.relations := by
  constructor
  · intro state state' ran alteration _ place own _
    obtain ⟨relations, executed, rfl⟩ := Option.map_eq_some_iff.mp ran
    exact spares_creates executed own
  · intro command member state state' inv ran alteration own place created read
    obtain ⟨other, -, rfl⟩ := List.mem_map.mp member
    exact spares_alteration ran (inv alteration own place created read)
  · intro command member state state' inv ran alteration own place created read
    rw [map_command_steps] at member
    obtain ⟨later, there, rfl⟩ := List.mem_map.mp member
    obtain ⟨relations, executed, rfl⟩ := Option.map_eq_some_iff.mp ran
    have undisturbed := (deferrable.1 alteration own).2 later there
    exact Command.spares_exec executed (undisturbed.dropped place read)
      (inv alteration own place created read)
  · intro first firstMember second secondMember state inv
    rw [map_command_steps] at secondMember
    obtain ⟨alteration, own, rfl⟩ := List.mem_map.mp firstMember
    obtain ⟨later, there, rfl⟩ := List.mem_map.mp secondMember
    exact Alteration.moves ((deferrable.1 alteration own).2 later there) state (inv alteration own)

private theorem allDeferrable_steps {final path : List ν} {entries : List (Entry ν)}
    (deferrable : Deferrable final path entries) : Deferral.AllDeferrable (steps path entries) := by
  induction entries generalizing path with
  | nil => trivial
  | cons entry rest ih => exact ⟨⟨_, deferrable_step deferrable⟩, ih deferrable.2⟩

/-- The deferred alterations mean at the end what they mean in place. -/
private theorem generated_steps {final path : List ν} {entries : List (Entry ν)}
    (deferrable : Deferrable final path entries) :
    (steps path entries).flatMap Deferral.Step.generated =
      (entries.flatMap Entry.alterations).map (Alteration.exec final) := by
  induction entries generalizing path with
  | nil => rfl
  | cons entry rest ih =>
    rw [steps, List.flatMap_cons, List.flatMap_cons, List.map_append, ih deferrable.2]
    refine congrArg (· ++ _) (List.map_congr_left fun alteration member => ?_)
    rcases (deferrable.1 alteration member).1 with qualified | same
    · exact Alteration.exec_of_isQualified qualified _ _
    · rw [same]

/-- A script of deferrable entries ends alike in place and deferred, also when it fails. -/
theorem run_deferred (path : List ν) (entries : List (Entry ν))
    (deferrable : Deferrable (pathBehind path entries) path entries) (state : State ν) :
    run (deferred entries) ⟨path, state⟩ = run (inPlace entries) ⟨path, state⟩ := by
  set final := pathBehind path entries with finalDef
  have steps_eq : Deferral.deferred (steps path entries) =
      (steps path entries).map Deferral.Step.command ++
        (entries.flatMap Entry.alterations).map (Alteration.exec final) := by
    rw [Deferral.deferred, generated_steps deferrable]
  calc run (deferred entries) ⟨path, state⟩
      = ((Deferral.run ((steps path entries).map Deferral.Step.command) state).map fun state =>
          Session.mk final state).bind (Deferral.run
            (((entries.flatMap Entry.alterations).map Sql.alteration).map Sql.exec)) := by
        rw [run, deferred, List.map_append, Deferral.run_append, run_commands]
    _ = (Deferral.run (Deferral.deferred (steps path entries)) state).map fun state =>
          ⟨final, state⟩ := by
        rw [steps_eq, Deferral.run_append]
        cases Deferral.run ((steps path entries).map Deferral.Step.command) state with
        | none => rfl
        | some state => exact run_alterations final _ state
    _ = (Deferral.run (Deferral.inPlace (steps path entries)) state).map fun state =>
          ⟨final, state⟩ := by
        rw [Deferral.run_deferred (allDeferrable_steps deferrable)]
    _ = run (inPlace entries) ⟨path, state⟩ := (run_inPlace path entries state).symm

/-! ## Scripts in pieces -/

theorem path_of_run {path : List ν} {entries : List (Entry ν)} {state : State ν}
    {session : Session ν} (ran : run (inPlace entries) ⟨path, state⟩ = some session) :
    session.path = pathBehind path entries := by
  rw [run_inPlace] at ran
  obtain ⟨state', -, rfl⟩ := Option.map_eq_some_iff.mp ran
  rfl

theorem run_append (first second : List (Sql ν)) (session : Session ν) :
    run (first ++ second) session = (run first session).bind (run second) := by
  rw [run, List.map_append, Deferral.run_append]
  rfl

/-- Every piece may be deferred to its own end. -/
def DeferrablePieces : List ν → List (List (Entry ν)) → Prop
  | _, [] => True
  | path, piece :: rest =>
    Deferrable (pathBehind path piece) path piece ∧ DeferrablePieces (pathBehind path piece) rest

/-- A script of deferrable pieces ends alike in place and with each piece deferred to its own
end. -/
theorem run_deferredPieces {path : List ν} {pieces : List (List (Entry ν))}
    (deferrable : DeferrablePieces path pieces) (state : State ν) :
    run (pieces.flatMap deferred) ⟨path, state⟩ = run (inPlace pieces.flatten) ⟨path, state⟩ := by
  induction pieces generalizing path state with
  | nil => rfl
  | cons piece rest ih =>
    have split : inPlace (piece :: rest).flatten = inPlace piece ++ inPlace rest.flatten := by
      rw [List.flatten_cons, inPlace, List.flatMap_append]
      rfl
    rw [List.flatMap_cons, split, run_append, run_append, run_deferred path piece deferrable.1]
    cases ran : run (inPlace piece) ⟨path, state⟩ with
    | none => rfl
    | some session =>
      obtain ⟨path', state'⟩ := session
      obtain rfl := path_of_run ran
      exact ih deferrable.2 state'

/-- A piece of one entry defers nothing. -/
theorem deferrablePieces_single (path : List ν) (entries : List (Entry ν)) :
    DeferrablePieces path (entries.map fun entry => [entry]) := by
  induction entries generalizing path with
  | nil => trivial
  | cons entry rest ih =>
    exact ⟨⟨fun _ _ => ⟨.inr rfl, nofun⟩, trivial⟩, ih (entry.command.pathAfter path)⟩

end Catalog
