import Mathlib.Data.List.Infix
import Mathlib.Data.List.Pairwise

/-! # Scanners

A scanner takes its input apart from the front: a step from a state with input left takes some of
it. A run visits states until the input is used up, and keeps a place that every element taken moves
on. What the steps take is the input, and where the run stands is the place behind what was taken.
-/

/-- Every step takes a part of the input that is left. -/
structure Scanner (α σ : Type*) where
  rest : σ → List α
  next : σ → σ
  shortens : ∀ s, rest s ≠ [] → ∃ span, span ≠ [] ∧ rest s = span ++ rest (next s)

namespace Scanner

variable {α σ π : Type*} (scanner : Scanner α σ) (advance : π → α → π)

/-- What the step from a state takes. -/
def span (s : σ) : List α :=
  (scanner.rest s).take ((scanner.rest s).length - (scanner.rest (scanner.next s)).length)

/-- The states that a run steps from, with their places. -/
def visits : (fuel : ℕ) → π → σ → List (π × σ)
  | 0, _, _ => []
  | fuel + 1, p, s =>
    if (scanner.rest s).isEmpty then []
    else (p, s) :: visits fuel ((scanner.span s).foldl advance p) (scanner.next s)

/-- What a run takes, step by step. -/
def taken (visits : List (π × σ)) : List α :=
  visits.flatMap fun visit => scanner.span visit.2

variable {scanner} {advance}

theorem span_of_eq {s : σ} {span : List α}
    (step : scanner.rest s = span ++ scanner.rest (scanner.next s)) :
    scanner.span s = span := by
  have length : (scanner.rest s).length - (scanner.rest (scanner.next s)).length = span.length := by
    rw [step, List.length_append]
    omega
  rw [Scanner.span, length, step, List.take_left]

theorem span_append {s : σ} (left : scanner.rest s ≠ []) :
    scanner.span s ++ scanner.rest (scanner.next s) = scanner.rest s := by
  obtain ⟨span, -, step⟩ := scanner.shortens s left
  rw [span_of_eq step, ← step]

theorem span_ne_nil {s : σ} (left : scanner.rest s ≠ []) : scanner.span s ≠ [] := by
  obtain ⟨span, filled, step⟩ := scanner.shortens s left
  rwa [span_of_eq step]

theorem length_next_lt {s : σ} (left : scanner.rest s ≠ []) :
    (scanner.rest (scanner.next s)).length < (scanner.rest s).length := by
  obtain ⟨span, filled, step⟩ := scanner.shortens s left
  have positive := List.length_pos_iff.mpr filled
  rw [step, List.length_append]
  omega

/-- One turn for every element is enough to use up the input. -/
theorem taken_visits {fuel : ℕ} {p : π} {s : σ} (enough : (scanner.rest s).length ≤ fuel) :
    scanner.taken (scanner.visits advance fuel p s) = scanner.rest s := by
  induction fuel generalizing p s with
  | zero =>
    rw [List.length_eq_zero_iff.mp (Nat.le_zero.mp enough)]
    rfl
  | succ fuel ih =>
    rw [visits]
    split
    · next ended => rw [List.isEmpty_iff.mp ended]; rfl
    · next left =>
      have left : scanner.rest s ≠ [] := fun ended => left (List.isEmpty_iff.mpr ended)
      have shorter := length_next_lt left
      have below := ih (p := (scanner.span s).foldl advance p) (s := scanner.next s) (by omega)
      rw [taken, List.flatMap_cons, ← span_append left, ← below]
      rfl

theorem rest_of_mem_visits {fuel : ℕ} {p : π} {s : σ} :
    ∀ visit ∈ scanner.visits advance fuel p s, scanner.rest visit.2 ≠ [] := by
  induction fuel generalizing p s with
  | zero => exact nofun
  | succ fuel ih =>
    intro visit member
    rw [visits] at member
    split at member
    · cases member
    · next left =>
      rcases List.mem_cons.mp member with rfl | member
      · exact fun ended => left (List.isEmpty_iff.mpr ended)
      · exact ih visit member

/-- A run stands at the place behind everything that it has taken. -/
theorem place_of_split {fuel : ℕ} {p : π} {s : σ} {before after : List (π × σ)} {visit : π × σ}
    (split : scanner.visits advance fuel p s = before ++ visit :: after) :
    visit.1 = (scanner.taken before).foldl advance p := by
  induction fuel generalizing p s before with
  | zero => simp [visits] at split
  | succ fuel ih =>
    rw [visits] at split
    split at split
    · simp at split
    · cases before with
      | nil =>
        rw [List.nil_append] at split
        rw [← (List.cons.inj split).1]
        rfl
      | cons first before =>
        rw [List.cons_append] at split
        obtain ⟨rfl, tail⟩ := List.cons.inj split
        rw [ih tail, taken, taken, List.flatMap_cons, List.foldl_append]

/-! ## Two runs side by side -/

/-- Runs from related states take related steps, as long as the states of the first run allow it. -/
theorem visits_forall₂ {R : π × σ → π × σ → Prop} {Q : σ → Prop}
    (ended : ∀ v w, R v w → (scanner.rest v.2).isEmpty = (scanner.rest w.2).isEmpty)
    (step : ∀ v w, R v w → scanner.rest v.2 ≠ [] → Q v.2 →
      R ((scanner.span v.2).foldl advance v.1, scanner.next v.2)
        ((scanner.span w.2).foldl advance w.1, scanner.next w.2))
    {fuel : ℕ} {v w : π × σ} (start : R v w)
    (allows : ∀ visit ∈ scanner.visits advance fuel v.1 v.2, Q visit.2) :
    List.Forall₂ (fun v w => R v w ∧ Q v.2) (scanner.visits advance fuel v.1 v.2)
      (scanner.visits advance fuel w.1 w.2) := by
  induction fuel generalizing v w with
  | zero => exact .nil
  | succ fuel ih =>
    rw [visits] at allows ⊢
    rw [visits, ← ended v w start]
    split
    · exact .nil
    · next left =>
      rw [if_neg left] at allows
      have left : scanner.rest v.2 ≠ [] := fun ended => left (List.isEmpty_iff.mpr ended)
      have own := allows v List.mem_cons_self
      exact .cons ⟨start, own⟩
        (ih (step v w start left own) fun visit member => allows visit (List.mem_cons_of_mem _ member))

/-! ## Places that only move on -/

variable {r : π → π → Prop} [IsTrans π r]

theorem foldl_advance (moves : ∀ p c, r p (advance p c)) {span : List α} (filled : span ≠ [])
    (p : π) : r p (span.foldl advance p) := by
  induction span generalizing p with
  | nil => exact absurd rfl filled
  | cons c span ih =>
    rw [List.foldl_cons]
    cases span with
    | nil => exact moves p c
    | cons d span => exact Trans.trans (moves p c) (ih (List.cons_ne_nil d span) (advance p c))

/-- The places of a run only move on. -/
theorem visits_pairwise (moves : ∀ p c, r p (advance p c)) {fuel : ℕ} {p : π} {s : σ} :
    (scanner.visits advance fuel p s).Pairwise fun first second => r first.1 second.1 := by
  have behind (fuel : ℕ) (p : π) (s : σ) : ∀ visit ∈ scanner.visits advance fuel p s,
      visit.1 = p ∨ r p visit.1 := by
    intro visit member
    obtain ⟨before, after, split⟩ := List.append_of_mem member
    have place := place_of_split split
    by_cases empty : scanner.taken before = []
    · rw [empty] at place
      exact Or.inl place
    · exact Or.inr (place ▸ foldl_advance moves empty p)
  induction fuel generalizing p s with
  | zero => exact List.Pairwise.nil
  | succ fuel ih =>
    rw [visits]
    split
    · exact List.Pairwise.nil
    · next left =>
      have left : scanner.rest s ≠ [] := fun ended => left (List.isEmpty_iff.mpr ended)
      refine List.pairwise_cons.mpr ⟨fun visit member => ?_, ih⟩
      have first := foldl_advance moves (span_ne_nil left) p
      rcases behind fuel _ _ visit member with same | later
      · rw [same]
        exact first
      · exact Trans.trans first later

end Scanner
