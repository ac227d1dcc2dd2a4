import Pgify.Lib.SearchLoop

/-! # Computations that append to a record

A computation over a state may fail, and otherwise returns the state it leaves and a value. Of the
state it reads a context, which nothing changes, and a register; it appends to a record and may set
the register. What such a computation does is a function of context and register alone: neither
what has been recorded before nor the rest of the state has any influence.
-/

/-- How a state holds its context, its register and its record. -/
structure Recorder (σ ε κ ω : Type*) where
  context : σ → ε
  register : σ → κ
  /-- Set the register and append to the record. -/
  record : κ → ω → σ → σ
  empty : ω
  append : ω → ω → ω
  context_record : ∀ k w s, context (record k w s) = context s
  register_record : ∀ k w s, register (record k w s) = k
  record_record : ∀ k w k' w' s, record k' w' (record k w s) = record k' (append w w') s
  record_register : ∀ s, record (register s) empty s = s

namespace Recorder

variable {σ ε κ ω α β γ : Type*} (R : Recorder σ ε κ ω)

/-- The run is a function of context and register, which says what it records and what it sets the
register to. -/
def Local (run : σ → Option (σ × α)) : Prop :=
  ∃ g : ε → κ → Option (κ × ω × α), ∀ s, run s =
    (g (R.context s) (R.register s)).map fun r => (R.record r.1 r.2.1 s, r.2.2)

/-- A local run that leaves the register as it is. -/
def Quiet (run : σ → Option (σ × α)) : Prop :=
  ∃ g : ε → κ → Option (ω × α), ∀ s, run s =
    (g (R.context s) (R.register s)).map fun r => (R.record (R.register s) r.1 s, r.2)

variable {R}

/-! ## Quiet runs -/

theorem Quiet.pure (x : α) : R.Quiet fun s => some (s, x) :=
  ⟨fun _ _ => some (R.empty, x), fun s => by simp [R.record_register]⟩

theorem Quiet.fail : R.Quiet fun _ => (none : Option (σ × α)) :=
  ⟨fun _ _ => none, fun _ => rfl⟩

/-- Record something that the context and the register say. -/
theorem Quiet.emit (text : ε → κ → ω) (x : α) :
    R.Quiet fun s => some (R.record (R.register s) (text (R.context s) (R.register s)) s, x) :=
  ⟨fun e k => some (text e k, x), fun _ => rfl⟩

theorem Quiet.guard (o : Option β) {run : β → σ → Option (σ × α)}
    (quiet : ∀ x, R.Quiet (run x)) : R.Quiet fun s => o.bind fun x => run x s := by
  cases o with
  | none => exact Quiet.fail
  | some x => exact quiet x

theorem Quiet.bind {run : σ → Option (σ × α)} {next : α → σ → Option (σ × β)}
    (quiet : R.Quiet run) (quietNext : ∀ x, R.Quiet (next x)) :
    R.Quiet fun s => (run s).bind fun r => next r.2 r.1 := by
  obtain ⟨g, run_eq⟩ := quiet
  choose h next_eq using quietNext
  refine ⟨fun e k => (g e k).bind fun r => (h r.2 e k).map fun t => (R.append r.1 t.1, t.2), ?_⟩
  intro s
  simp only [run_eq]
  cases g (R.context s) (R.register s) with
  | none => rfl
  | some r =>
    simp only [Option.map_some, Option.bind_some, next_eq, R.context_record, R.register_record,
      R.record_record, Option.map_map, Function.comp_def]

theorem Quiet.map {run : σ → Option (σ × α)} (quiet : R.Quiet run) (f : α → β) :
    R.Quiet fun s => (run s).map fun r => (r.1, f r.2) := by
  obtain ⟨g, run_eq⟩ := quiet
  refine ⟨fun e k => (g e k).map fun r => (r.1, f r.2), fun s => ?_⟩
  simp only [run_eq, Option.map_map, Function.comp_def]

/-- A search loop is quiet when every turn of it is. -/
theorem Quiet.searchLoop {p : α → Bool} {body : ℕ → σ → List α → Option (ℕ × σ × List α)}
    (quiet : ∀ pos l, R.Quiet fun s => (body pos s l).map fun r => (r.2.1, r.1, r.2.2))
    (fuel start : ℕ) (l : List α) :
    R.Quiet fun s => SearchLoop.searchLoop p body fuel start s l := by
  induction fuel generalizing start l with
  | zero => exact Quiet.fail
  | succ fuel ih =>
    simp only [SearchLoop.searchLoop]
    cases SearchLoop.findFrom p start l with
    | none => exact Quiet.pure l
    | some pos =>
      have turns := (quiet pos l).bind fun x => ih x.1 x.2
      simpa only [Option.bind_map, Function.comp_def] using turns

/-- A quiet run leaves the register. -/
theorem Quiet.register_eq {run : σ → Option (σ × α)} (quiet : R.Quiet run) {s s' : σ} {x : α}
    (ran : run s = some (s', x)) : R.register s' = R.register s := by
  obtain ⟨g, run_eq⟩ := quiet
  rw [run_eq] at ran
  obtain ⟨r, -, result⟩ := Option.map_eq_some_iff.mp ran
  rw [← (Prod.mk.inj result).1, R.register_record]

/-! ## Local runs -/

theorem Quiet.toLocal {run : σ → Option (σ × α)} (quiet : R.Quiet run) : R.Local run := by
  obtain ⟨g, run_eq⟩ := quiet
  refine ⟨fun e k => (g e k).map fun r => (k, r.1, r.2), fun s => ?_⟩
  simp only [run_eq, Option.map_map, Function.comp_def]

theorem Local.bind {run : σ → Option (σ × α)} {next : α → σ → Option (σ × β)}
    (isLocal : R.Local run) (localNext : ∀ x, R.Local (next x)) :
    R.Local fun s => (run s).bind fun r => next r.2 r.1 := by
  obtain ⟨g, run_eq⟩ := isLocal
  choose h next_eq using localNext
  refine ⟨fun e k => (g e k).bind fun r =>
    (h r.2.2 e r.1).map fun t => (t.1, R.append r.2.1 t.2.1, t.2.2), fun s => ?_⟩
  simp only [run_eq]
  cases g (R.context s) (R.register s) with
  | none => rfl
  | some r =>
    simp only [Option.map_some, Option.bind_some, next_eq, R.context_record, R.register_record,
      R.record_record, Option.map_map, Function.comp_def]

theorem Local.map {run : σ → Option (σ × α)} (isLocal : R.Local run) (f : α → β) :
    R.Local fun s => (run s).map fun r => (r.1, f r.2) := by
  obtain ⟨g, run_eq⟩ := isLocal
  refine ⟨fun e k => (g e k).map fun r => (r.1, r.2.1, f r.2.2), fun s => ?_⟩
  simp only [run_eq, Option.map_map, Function.comp_def]

end Recorder
