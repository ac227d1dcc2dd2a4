import Mathlib.Data.List.Infix

/-! # Scans that look at the whole rest

A loop over an input that decides from several elements of look-ahead whether it consumes one more.
Its test is a test of the rest of the input, so where it stops depends on the end of the input too.
-/

namespace SuffixScan

variable {α : Type*} {p : List α → Bool}

/-- Drop elements as long as the rest of the list passes. -/
def dropWhileRest (p : List α → Bool) : List α → List α
  | [] => []
  | x :: rest => if p (x :: rest) = true then dropWhileRest p rest else x :: rest

/-- The scan stops at the end or at a rest that fails. -/
theorem dropWhileRest_stops (l : List α) :
    dropWhileRest p l = [] ∨ p (dropWhileRest p l) = false := by
  induction l with
  | nil => exact Or.inl rfl
  | cons x rest ih =>
    rw [dropWhileRest]
    split
    · exact ih
    · next fails => exact Or.inr (Bool.eq_false_iff.mpr fails)

theorem dropWhileRest_suffix (l : List α) : dropWhileRest p l <:+ l := by
  induction l with
  | nil => exact List.suffix_refl _
  | cons x rest ih =>
    rw [dropWhileRest]
    split
    · exact ih.trans (List.suffix_cons x rest)
    · exact List.suffix_refl _

/-- The scan does not pass a rest that fails. -/
theorem suffix_dropWhileRest (front : List α) {l : List α} (fails : p l = false) :
    l <:+ dropWhileRest p (front ++ l) := by
  induction front with
  | nil =>
    cases l with
    | nil => exact List.nil_suffix
    | cons x rest =>
      rw [List.nil_append, dropWhileRest, fails]
      exact List.suffix_refl _
  | cons x front ih =>
    rw [List.cons_append, dropWhileRest]
    split
    · exact ih
    · exact List.suffix_append (x :: front) l

/-- Scans of two inputs whose tests agree along a map stop at the same place. -/
theorem map_dropWhileRest {β : Type*} {f : α → β} {q : List β → Bool}
    (same : ∀ l, q (l.map f) = p l) (l : List α) :
    (dropWhileRest p l).map f = dropWhileRest q (l.map f) := by
  induction l with
  | nil => rfl
  | cons x rest ih =>
    rw [dropWhileRest, List.map_cons, dropWhileRest, ← List.map_cons, same]
    split
    · exact ih
    · rfl

end SuffixScan
