import Mathlib.Data.List.Basic

/-! # Names between quote characters

A quoted name stands between two quote characters, and a quote character inside it is doubled. The
reader takes the name at the front of an input; a quote character behind the name would belong to
it.
-/

namespace QuotedName

variable {α : Type*} [DecidableEq α] (q : α)

/-- The name with every quote character doubled. -/
def double (name : List α) : List α :=
  name.flatMap fun c => if c = q then [q, q] else [c]

def enclose (name : List α) : List α :=
  q :: double q name ++ [q]

/-- Read behind the opening quote: the name and the rest of the input. -/
def readBody : List α → Option (List α × List α)
  | [] => none
  | c :: input =>
    if c = q then
      match input with
      | [] => some ([], [])
      | d :: behind =>
        if d = q then (readBody behind).map fun read => (q :: read.1, read.2)
        else some ([], d :: behind)
    else (readBody input).map fun read => (c :: read.1, read.2)

def read : List α → Option (List α × List α)
  | [] => none
  | c :: input => if c = q then readBody q input else none

variable {q}

@[simp] theorem double_nil : double q [] = [] := rfl

@[simp] theorem double_quote (name : List α) : double q (q :: name) = q :: q :: double q name := by
  simp [double]

@[simp] theorem double_cons {c : α} (other : c ≠ q) (name : List α) :
    double q (c :: name) = c :: double q name := by
  simp [double, other]

theorem double_append (first second : List α) :
    double q (first ++ second) = double q first ++ double q second :=
  List.flatMap_append

theorem length_le_double (name : List α) : name.length ≤ (double q name).length := by
  induction name with
  | nil => exact Nat.le_refl 0
  | cons c name ih =>
    by_cases quote : c = q
    · subst quote
      simp only [double_quote, List.length_cons]
      omega
    · simp only [double_cons quote, List.length_cons]
      omega

/-- A name without the quote character is spelled as it is. -/
theorem double_eq_self_iff {name : List α} : double q name = name ↔ q ∉ name := by
  induction name with
  | nil => simp
  | cons c name ih =>
    by_cases quote : c = q
    · subst quote
      refine ⟨fun same => ?_, fun absent => absurd List.mem_cons_self absent⟩
      have lengths := congrArg List.length same
      have longer := @length_le_double _ _ c name
      simp only [double_quote, List.length_cons] at lengths
      omega
    · have apart : q ≠ c := fun same => quote same.symm
      simp [double_cons quote, ih, apart]

/-- What has no quote character may stand behind every spelling. -/
theorem exists_double_append_iff {front behind : List α} (absent : q ∉ behind) :
    (∃ name, front ++ behind = double q name) ↔ ∃ name, front = double q name := by
  constructor
  · rintro ⟨name, same⟩
    induction name generalizing front with
    | nil => exact ⟨[], (List.append_eq_nil_iff.mp same).1⟩
    | cons c name ih =>
      cases front with
      | nil => exact ⟨[], rfl⟩
      | cons d front =>
        by_cases quote : c = q
        · subst quote
          rw [double_quote] at same
          obtain ⟨rfl, tail⟩ := List.cons.inj same
          cases front with
          | nil =>
            have single : behind = d :: double d name := tail
            exact absurd (by rw [single]; exact List.mem_cons_self) absent
          | cons e front =>
            obtain ⟨rfl, behind⟩ := List.cons.inj tail
            obtain ⟨own, rfl⟩ := ih behind
            exact ⟨e :: own, (double_quote own).symm⟩
        · rw [double_cons quote] at same
          obtain ⟨rfl, tail⟩ := List.cons.inj same
          obtain ⟨own, rfl⟩ := ih tail
          exact ⟨d :: own, (double_cons quote own).symm⟩
  · rintro ⟨name, rfl⟩
    exact ⟨name ++ behind, by rw [double_append, double_eq_self_iff.mpr absent]⟩

/-! ## Reading back -/

theorem readBody_double (name : List α) {rest : List α} (ends : rest.head? ≠ some q) :
    readBody q (double q name ++ q :: rest) = some (name, rest) := by
  induction name with
  | nil =>
    cases rest with
    | nil => simp [readBody]
    | cons d rest =>
      have other : d ≠ q := fun same => ends (by rw [same]; rfl)
      simp [readBody, other]
  | cons c name ih =>
    by_cases quote : c = q
    · subst quote
      simp [readBody, ih]
    · rw [double_cons quote, List.cons_append, readBody.eq_def]
      simp [quote, ih]

theorem readBody_sound {input name rest : List α} (taken : readBody q input = some (name, rest)) :
    input = double q name ++ q :: rest ∧ rest.head? ≠ some q := by
  fun_induction readBody q input generalizing name with
  | case1 => cases taken
  | case2 =>
    cases taken
    simp
  | case3 behind ih =>
    obtain ⟨inner, own, same⟩ := Option.map_eq_some_iff.mp taken
    cases same
    obtain ⟨rfl, ends⟩ := ih own
    exact ⟨by simp, ends⟩
  | case4 d behind other =>
    cases taken
    exact ⟨rfl, fun same => other (Option.some.inj same)⟩
  | case5 c input other ih =>
    obtain ⟨inner, own, same⟩ := Option.map_eq_some_iff.mp taken
    cases same
    obtain ⟨rfl, ends⟩ := ih own
    exact ⟨by simp [double_cons other], ends⟩

/-- The reader takes exactly the spelling of the name, and no quote character follows it. -/
theorem read_eq_some_iff {input name rest : List α} :
    read q input = some (name, rest) ↔ input = enclose q name ++ rest ∧ rest.head? ≠ some q := by
  constructor
  · intro taken
    cases input with
    | nil => cases taken
    | cons c input =>
      rw [read] at taken
      split at taken
      · next quote =>
        obtain ⟨rfl, ends⟩ := readBody_sound taken
        exact ⟨by simp [enclose, quote], ends⟩
      · cases taken
  · rintro ⟨rfl, ends⟩
    simpa [enclose, read] using readBody_double name ends

/-- Characters between two quotes are read as themselves exactly when no quote is among them. -/
theorem read_verbatim_iff {content name : List α} :
    read q (q :: content ++ [q]) = some (name, []) ↔ content = double q name := by
  rw [read_eq_some_iff]
  simp [enclose]

end QuotedName
