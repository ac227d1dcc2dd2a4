import Mathlib.Data.List.Basic

/-! # Deferring commands to the end of a script

A script is a list of steps; a step is a command and some commands generated for it. Commands may
fail, and a script fails with the first of its commands. The generated commands of a step may be run
behind the whole script instead of in place, if each of them moves behind every later command. They
need to do so only in states that satisfy an invariant which the step establishes and nothing
breaks.
-/

namespace Deferral

variable {σ : Type*}

/-- Run commands one after the other. -/
def run : List (σ → Option σ) → σ → Option σ
  | [], s => some s
  | command :: rest, s => (command s).bind (run rest)

theorem run_append (first second : List (σ → Option σ)) (s : σ) :
    run (first ++ second) s = (run first s).bind (run second) := by
  induction first generalizing s with
  | nil => rfl
  | cons command rest ih =>
    simp only [List.cons_append, run, Option.bind_assoc]
    exact congrArg _ (funext ih)

structure Step (σ : Type*) where
  command : σ → Option σ
  generated : List (σ → Option σ)

/-- The script with every generated command behind the command of its step. -/
def inPlace (steps : List (Step σ)) : List (σ → Option σ) :=
  steps.flatMap fun step => step.command :: step.generated

/-- The script with all generated commands at its end. -/
def deferred (steps : List (Step σ)) : List (σ → Option σ) :=
  steps.map Step.command ++ steps.flatMap Step.generated

/-- Every state that the command can reach from the invariant satisfies it. -/
def Keeps (I : σ → Prop) (command : σ → Option σ) : Prop :=
  ∀ s s', I s → command s = some s' → I s'

/-- In states of the invariant the two commands can be run in either order. -/
def Moves (I : σ → Prop) (first second : σ → Option σ) : Prop :=
  ∀ s, I s → (first s).bind second = (second s).bind first

/-- The generated commands of a step can be moved behind some later commands. -/
structure Deferrable (step : Step σ) (later : List (σ → Option σ)) (I : σ → Prop) : Prop where
  establishes : ∀ s s', step.command s = some s' → I s'
  keepsGenerated : ∀ command ∈ step.generated, Keeps I command
  keepsLater : ∀ command ∈ later, Keeps I command
  moves : ∀ first ∈ step.generated, ∀ second ∈ later, Moves I first second

/-- Every step of the script is deferrable behind the commands of the steps after it. -/
def AllDeferrable : List (Step σ) → Prop
  | [] => True
  | step :: rest => (∃ I, Deferrable step (rest.map Step.command) I) ∧ AllDeferrable rest

/-- A command that moves behind each of some commands moves behind all of them. -/
theorem Moves.run_right {I : σ → Prop} {first : σ → Option σ} {later : List (σ → Option σ)}
    (kept : ∀ command ∈ later, Keeps I command)
    (moves : ∀ second ∈ later, Moves I first second) : Moves I first (run later) := by
  induction later with
  | nil => intro s _; cases next : first s <;> simp [run, next]
  | cons second rest ih =>
    intro s inv
    have tail := ih (fun command member => kept command (List.mem_cons_of_mem _ member))
      fun command member => moves command (List.mem_cons_of_mem _ member)
    calc (first s).bind (run (second :: rest))
        = ((first s).bind second).bind (run rest) := (Option.bind_assoc _ _ _).symm
      _ = ((second s).bind first).bind (run rest) := by
        rw [moves second List.mem_cons_self s inv]
      _ = (second s).bind fun s' => (first s').bind (run rest) := Option.bind_assoc _ _ _
      _ = (second s).bind fun s' => (run rest s').bind first := by
        cases next : second s with
        | none => rfl
        | some s' => exact tail s' (kept second List.mem_cons_self s s' inv next)
      _ = (run (second :: rest) s).bind first := (Option.bind_assoc _ _ _).symm

/-- Commands that move behind a command do so together. -/
theorem Moves.run_left {I : σ → Prop} {earlier : List (σ → Option σ)} {second : σ → Option σ}
    (kept : ∀ command ∈ earlier, Keeps I command)
    (moves : ∀ first ∈ earlier, Moves I first second) : Moves I (run earlier) second := by
  induction earlier with
  | nil => intro s _; cases next : second s <;> simp [run, next]
  | cons first rest ih =>
    intro s inv
    have tail := ih (fun command member => kept command (List.mem_cons_of_mem _ member))
      fun command member => moves command (List.mem_cons_of_mem _ member)
    calc (run (first :: rest) s).bind second
        = (first s).bind fun s' => (run rest s').bind second := Option.bind_assoc _ _ _
      _ = (first s).bind fun s' => (second s').bind (run rest) := by
        cases next : first s with
        | none => rfl
        | some s' => exact tail s' (kept first List.mem_cons_self s s' inv next)
      _ = ((first s).bind second).bind (run rest) := (Option.bind_assoc _ _ _).symm
      _ = ((second s).bind first).bind (run rest) := by
        rw [moves first List.mem_cons_self s inv]
      _ = (second s).bind (run (first :: rest)) := Option.bind_assoc _ _ _

/-- A script of deferrable steps ends alike in place and deferred, also when it fails. -/
theorem run_deferred {steps : List (Step σ)} (deferrable : AllDeferrable steps) (s : σ) :
    run (deferred steps) s = run (inPlace steps) s := by
  induction steps generalizing s with
  | nil => rfl
  | cons step rest ih =>
    obtain ⟨⟨I, own⟩, restDeferrable⟩ := deferrable
    cases next : step.command s with
    | none => simp [deferred, inPlace, run, next]
    | some s' =>
      have inv := own.establishes s s' next
      have moved := Moves.run_left own.keepsGenerated
        (fun first member => Moves.run_right own.keepsLater (own.moves first member)) s' inv
      have tail (s : σ) : (run (rest.map Step.command) s).bind (run (rest.flatMap Step.generated)) =
          run (inPlace rest) s := (run_append _ _ s).symm.trans (ih restDeferrable s)
      calc run (deferred (step :: rest)) s
          = (run (rest.map Step.command) s').bind
              (run (step.generated ++ rest.flatMap Step.generated)) := by
            simp [deferred, run, next, run_append]
        _ = ((run (rest.map Step.command) s').bind (run step.generated)).bind
              (run (rest.flatMap Step.generated)) := by
            rw [Option.bind_assoc]
            exact congrArg _ (funext (run_append _ _))
        _ = ((run step.generated s').bind (run (rest.map Step.command))).bind
              (run (rest.flatMap Step.generated)) := by rw [moved]
        _ = (run step.generated s').bind (run (inPlace rest)) := by
            rw [Option.bind_assoc]
            exact congrArg _ (funext tail)
        _ = run (inPlace (step :: rest)) s := by
            simp [inPlace, run, next, run_append]

end Deferral
