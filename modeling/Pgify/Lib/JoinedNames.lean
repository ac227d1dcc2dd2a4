import Mathlib.Data.List.Basic

/-! # Names joined by a separator

Two pairs of words joined by a separator are the same name in more cases than that of equal pairs:
the separator may occur in the words, and it may overlap with itself.
-/

namespace JoinedNames

variable {α : Type*}

/-- Two words with a separator between them. -/
def join (separator : List α) (pair : List α × List α) : List α :=
  pair.1 ++ (separator ++ pair.2)

/-- The first word of `other` goes on with the separator and a middle part, which stands in front of
the separator in the second word of `pair`. -/
def Continues (separator : List α) (pair other : List α × List α) : Prop :=
  ∃ middle, other.1 = pair.1 ++ (separator ++ middle) ∧
    pair.2 = middle ++ (separator ++ other.2)

/-- The first word of `other` goes on with a part of the separator, and the rest of the separator is
also its beginning. -/
def Abuts (separator : List α) (pair other : List α × List α) : Prop :=
  ∃ front border back, front ≠ [] ∧ border ≠ [] ∧ separator = front ++ border ∧
    separator = border ++ back ∧ other.1 = pair.1 ++ front ∧ pair.2 = back ++ other.2

/-- All pairs with the same join. -/
def Clash (separator : List α) (pair other : List α × List α) : Prop :=
  pair = other ∨ Continues separator pair other ∨ Continues separator other pair ∨
    Abuts separator pair other ∨ Abuts separator other pair

variable {separator : List α} {pair other : List α × List α}

theorem Continues.join_eq (continues : Continues separator pair other) :
    join separator pair = join separator other := by
  obtain ⟨middle, first, second⟩ := continues
  simp [join, first, second]

theorem Abuts.join_eq (abuts : Abuts separator pair other) :
    join separator pair = join separator other := by
  obtain ⟨front, border, back, -, -, split, split', first, second⟩ := abuts
  calc join separator pair
      = pair.1 ++ (front ++ (border ++ back) ++ other.2) := by simp [join, split, second]
    _ = join separator other := by simp [join, first, ← split']

/-- A first word that is longer by some part. -/
private theorem clash_of_longer {longer : List α} (first : other.1 = pair.1 ++ longer)
    (second : separator ++ pair.2 = longer ++ (separator ++ other.2)) :
    pair = other ∨ Continues separator pair other ∨ Abuts separator pair other := by
  obtain ⟨word, part⟩ := pair
  obtain ⟨word', part'⟩ := other
  subst first
  rcases List.append_eq_append_iff.mp second with ⟨middle, rfl, own⟩ | ⟨border, split, own⟩
  · exact .inr (.inl ⟨middle, rfl, own⟩)
  · by_cases same : longer = []
    · subst same
      exact .inl (by simpa using second)
    · by_cases whole : border = []
      · subst whole
        rw [List.append_nil] at split
        subst split
        exact .inr (.inl ⟨[], by simp, by simpa using own.symm⟩)
      · rcases List.append_eq_append_iff.mp own with ⟨back, split', rest⟩ | ⟨back, split', rest⟩
        · have lengths := congrArg List.length split
          have lengths' := congrArg List.length split'
          have positive := List.length_pos_iff.mpr same
          simp only [List.length_append] at lengths lengths'
          omega
        · exact .inr (.inr ⟨longer, border, back, same, whole, split, split', rfl, rest⟩)

/-- Joins are the same exactly for the pairs that clash. -/
theorem join_eq_iff : join separator pair = join separator other ↔ Clash separator pair other := by
  constructor
  · intro same
    rcases List.append_eq_append_iff.mp same with ⟨longer, first, second⟩ | ⟨longer, first, second⟩
    · rcases clash_of_longer first second with equal | continues | abuts
      · exact .inl equal
      · exact .inr (.inl continues)
      · exact .inr (.inr (.inr (.inl abuts)))
    · rcases clash_of_longer first second with equal | continues | abuts
      · exact .inl equal.symm
      · exact .inr (.inr (.inl continues))
      · exact .inr (.inr (.inr (.inr abuts)))
  · rintro (rfl | continues | continues | abuts | abuts)
    · rfl
    · exact continues.join_eq
    · exact continues.join_eq.symm
    · exact abuts.join_eq
    · exact abuts.join_eq.symm

end JoinedNames
