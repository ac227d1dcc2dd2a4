import Mathlib.Data.List.Find

/-! # Names behind a search path

A name is written with a schema or without one. With one it denotes a fixed place; without one it is
created in the first schema of the search path and denotes the first place on the path that holds
something of that name. `resolve_congr` says which places the meaning of a name depends on, and
`resolve_of_created` that what a name has created there it goes on to denote.
-/

namespace SearchPath

variable {ν : Type*}

/-- A name as it is written. -/
structure Reference (ν : Type*) where
  schema : Option ν
  name : ν
deriving DecidableEq

/-- A schema and a name in it. -/
abbrev Place (ν : Type*) := ν × ν

/-- The place that a name denotes, where `holds` says which places are taken. -/
def resolve (path : List ν) (holds : Place ν → Bool) (reference : Reference ν) :
    Option (Place ν) :=
  match reference.schema with
  | some schema => some (schema, reference.name)
  | none => (path.find? fun schema => holds (schema, reference.name)).map
      fun schema => (schema, reference.name)

/-- The place in which a name is created. -/
def creation (path : List ν) (reference : Reference ν) : Option (Place ν) :=
  (reference.schema.or path.head?).map fun schema => (schema, reference.name)

/-- The places that a name may denote, whichever places are taken. -/
def places (path : List ν) (reference : Reference ν) : List (Place ν) :=
  match reference.schema with
  | some schema => [(schema, reference.name)]
  | none => path.map fun schema => (schema, reference.name)

variable {path : List ν} {holds holds' : Place ν → Bool} {reference : Reference ν}
  {place : Place ν}

/-- A name denotes one of its places. -/
theorem mem_places_of_resolve (resolved : resolve path holds reference = some place) :
    place ∈ places path reference := by
  obtain ⟨schema, name⟩ := reference
  cases schema with
  | some schema => simpa [resolve, places, eq_comm] using resolved
  | none =>
    obtain ⟨schema, found, rfl⟩ := Option.map_eq_some_iff.mp resolved
    exact List.mem_map.mpr ⟨schema, List.mem_of_find?_eq_some found, rfl⟩

/-- The meaning of a name depends on its places alone. -/
theorem resolve_congr (agree : ∀ place ∈ places path reference, holds place = holds' place) :
    resolve path holds reference = resolve path holds' reference := by
  obtain ⟨schema, name⟩ := reference
  cases schema with
  | some schema => rfl
  | none =>
    have same : path.find? (fun schema => holds (schema, name)) =
        path.find? fun schema => holds' (schema, name) :=
      List.find?_congr fun schema member => agree _ (List.mem_map.mpr ⟨schema, member, rfl⟩)
    simp only [resolve, same]

/-- What a name has created it denotes, as long as it is there. -/
theorem resolve_of_created {created : Option (Place ν)} (own : creation path reference = created)
    (there : ∀ place ∈ created, holds place = true) : resolve path holds reference = created := by
  obtain ⟨schema, name⟩ := reference
  subst own
  cases schema with
  | some schema => rfl
  | none =>
    cases path with
    | nil => rfl
    | cons first rest =>
      have held : holds (first, name) = true := there (first, name) rfl
      simp [resolve, creation, held]

end SearchPath
