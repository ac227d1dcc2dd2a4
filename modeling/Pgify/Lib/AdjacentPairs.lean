import Mathlib.Data.List.Chain
import Mathlib.Data.List.Count

/-! # Deleting adjacent pairs and first hits

A word of two tokens is an element `p` with an element `q` right behind it. A pass that deletes the
first such pair, or the first hit of a test, has deleted all of them exactly when there was at most
one.
-/

namespace AdjacentPairs

variable {α : Type*}

/-! ## Pairs -/

section Pairs

variable (p q : α → Bool)

/-- Delete the first pair. -/
def dropFirst : List α → List α
  | x :: y :: rest => if p x = true ∧ q y = true then rest else x :: dropFirst (y :: rest)
  | l => l

/-- Delete every pair. -/
def dropAll : List α → List α
  | x :: y :: rest => if p x = true ∧ q y = true then dropAll rest else x :: dropAll (y :: rest)
  | l => l

/-- No pair stands anywhere. -/
def Absent (l : List α) : Prop :=
  l.IsChain fun x y => ¬(p x = true ∧ q y = true)

instance (l : List α) : Decidable (Absent p q l) :=
  inferInstanceAs (Decidable (l.IsChain _))

/-- Every `p` is the first half of a pair. -/
def Paired : List α → Prop
  | [] => True
  | x :: rest => (p x = true → ∃ y ∈ rest.head?, q y = true) ∧ Paired rest

end Pairs

variable {p q : α → Bool}

theorem Paired.append {first second : List α} (front : Paired p q first)
    (behind : Paired p q second) : Paired p q (first ++ second) := by
  induction first with
  | nil => exact behind
  | cons x rest ih =>
    refine ⟨fun hit => ?_, ih front.2⟩
    obtain ⟨y, head, follows⟩ := front.1 hit
    obtain ⟨tail, rfl⟩ := List.head?_eq_some_iff.mp head
    exact ⟨y, by simp, follows⟩

theorem paired_of_clear {l : List α} (clear : ∀ x ∈ l, p x = false) : Paired p q l := by
  induction l with
  | nil => trivial
  | cons x rest ih =>
    refine ⟨fun hit => ?_, ih fun y member => clear y (List.mem_cons_of_mem _ member)⟩
    rw [clear x List.mem_cons_self] at hit
    cases hit

/-- Deleting elements but no `q` leaves every pair together. -/
theorem Paired.filter {r : α → Bool} (keeps : ∀ x, q x = true → r x = true) {l : List α}
    (paired : Paired p q l) : Paired p q (l.filter r) := by
  induction l with
  | nil => trivial
  | cons x rest ih =>
    cases kept : r x with
    | false =>
      rw [List.filter_cons_of_neg (by simp [kept])]
      exact ih paired.2
    | true =>
      rw [List.filter_cons_of_pos kept]
      refine ⟨fun hit => ?_, ih paired.2⟩
      obtain ⟨y, head, follows⟩ := paired.1 hit
      obtain ⟨tail, rfl⟩ := List.head?_eq_some_iff.mp head
      exact ⟨y, by rw [List.filter_cons_of_pos (keeps y follows)]; rfl, follows⟩

/-- Deleting elements that are in no pair leaves every pair together. -/
theorem Paired.of_sublist {kept l : List α} (sublist : kept.Sublist l)
    (same : kept.filter (fun x => p x || q x) = l.filter fun x => p x || q x)
    (paired : Paired p q l) : Paired p q kept := by
  have lost {x : α} {kept rest : List α} (short : kept.Sublist rest)
      (same : kept.filter (fun x => p x || q x) = (x :: rest).filter fun x => p x || q x) :
      (p x || q x) = false := by
    refine Bool.eq_false_iff.mpr fun hit => ?_
    have fewer := (short.filter fun x => p x || q x).length_le
    rw [same, List.filter_cons_of_pos (p := fun x => p x || q x) hit, List.length_cons] at fewer
    omega
  induction sublist with
  | slnil => trivial
  | cons x short ih =>
    have miss := lost short same
    rw [List.filter_cons_of_neg (by simp [miss])] at same
    exact ih same paired.2
  | cons_cons x short ih =>
    rename_i rest l
    have tail : rest.filter (fun x => p x || q x) = l.filter fun x => p x || q x := by
      rw [List.filter_cons, List.filter_cons] at same
      split at same
      · exact (List.cons.inj same).2
      · exact same
    refine ⟨fun hit => ?_, ih tail paired.2⟩
    obtain ⟨y, head, follows⟩ := paired.1 hit
    obtain ⟨more, rfl⟩ := List.head?_eq_some_iff.mp head
    cases short with
    | cons _ shorter =>
      have miss := lost shorter tail
      simp [follows] at miss
    | cons_cons _ _ => exact ⟨y, rfl, follows⟩

/-- Every `q` stands right behind a `p`. -/
def Preceded (p q : α → Bool) (l : List α) : Prop :=
  (l.IsChain fun x y => q y = true → p x = true) ∧ ∀ y ∈ l.head?, q y = false

theorem preceded_of_clear {l : List α} (clear : ∀ x ∈ l, q x = false) : Preceded p q l := by
  refine ⟨List.isChain_iff_forall_rel_of_append_cons_cons.mpr ?_, fun y own =>
    clear y (List.mem_of_mem_head? own)⟩
  rintro x y before after rfl hit
  rw [clear y (by simp)] at hit
  cases hit

theorem preceded_append_of_clear {front l : List α} (noFirst : ∀ x ∈ front, p x = false)
    (noSecond : ∀ x ∈ front, q x = false) : Preceded p q (front ++ l) ↔ Preceded p q l := by
  induction front with
  | nil => rfl
  | cons x front ih =>
    have tail := ih (fun y member => noFirst y (List.mem_cons_of_mem _ member))
      fun y member => noSecond y (List.mem_cons_of_mem _ member)
    rw [← tail, List.cons_append]
    simp [Preceded, List.isChain_cons, noFirst x List.mem_cons_self, noSecond x List.mem_cons_self,
      and_comm]

theorem absent_of_clear {l : List α} (clear : (∀ x ∈ l, p x = false) ∨ ∀ x ∈ l, q x = false) :
    Absent p q l := by
  refine List.isChain_iff_forall_rel_of_append_cons_cons.mpr ?_
  rintro x y before after rfl both
  rcases clear with noFirst | noSecond
  · rw [noFirst x (by simp)] at both
    cases both.1
  · rw [noSecond y (by simp)] at both
    cases both.2

theorem absent_append_of_clear {front rest : List α} (clear : ∀ x ∈ front, p x = false) :
    Absent p q (front ++ rest) ↔ Absent p q rest := by
  induction front with
  | nil => rfl
  | cons x front ih =>
    have tail := ih fun y member => clear y (List.mem_cons_of_mem _ member)
    rw [← tail, List.cons_append]
    simp [Absent, List.isChain_cons, clear x List.mem_cons_self]

/-- No pair stands across an element that is in none. -/
theorem absent_append_cons_iff {front rest : List α} {x : α} (noFirst : p x = false)
    (noSecond : q x = false) :
    Absent p q (front ++ x :: rest) ↔ Absent p q front ∧ Absent p q rest := by
  simp [Absent, List.isChain_append, List.isChain_cons, noFirst, noSecond]

/-- Every `p` has its `q`; every `q` has its `p` exactly when there are no more of them. -/
theorem Paired.preceded_iff (disjoint : ∀ x, q x = true → p x = false) {l : List α}
    (paired : Paired p q l) :
    l.countP p ≤ l.countP q ∧ (Preceded p q l ↔ l.countP q = l.countP p) := by
  induction l using List.twoStepInduction with
  | nil => simp [Preceded]
  | singleton x =>
    have miss : p x = false := by
      refine Bool.eq_false_iff.mpr fun hit => ?_
      obtain ⟨y, head, -⟩ := paired.1 hit
      cases head
    cases follows : q x <;> simp [Preceded, miss, follows]
  | cons_cons x y rest ih behind =>
    cases first : p x with
    | true =>
      obtain ⟨z, head, second⟩ := paired.1 first
      cases head
      have noP := disjoint y second
      have noQ : q x = false :=
        Bool.eq_false_iff.mpr fun hit => by simp [disjoint x hit] at first
      have whole : Preceded p q (x :: y :: rest) ↔ Preceded p q rest := by
        simp [Preceded, List.isChain_cons, first, noP, noQ, and_comm]
      rw [whole, List.countP_cons_of_pos first, List.countP_cons_of_neg (by simp [noP]),
        List.countP_cons_of_neg (by simp [noQ]), List.countP_cons_of_pos second,
        Nat.add_right_cancel_iff, Nat.add_le_add_iff_right]
      exact ih paired.2.2
    | false =>
      have whole : Preceded p q (x :: y :: rest) ↔ q x = false ∧ Preceded p q (y :: rest) := by
        simp [Preceded, List.isChain_cons, first, and_comm]
      obtain ⟨fewer, tail⟩ := behind y paired.2
      have firsts : (x :: y :: rest).countP p = (y :: rest).countP p :=
        List.countP_cons_of_neg (by simp [first])
      rw [whole, tail, firsts]
      cases hit : q x with
      | true =>
        have seconds : (x :: y :: rest).countP q = (y :: rest).countP q + 1 :=
          List.countP_cons_of_pos hit
        rw [seconds]
        simp only [Bool.true_eq_false, false_and, false_iff]
        omega
      | false =>
        have seconds : (x :: y :: rest).countP q = (y :: rest).countP q :=
          List.countP_cons_of_neg (by simp [hit])
        rw [seconds]
        simpa using fewer

theorem dropFirst_sublist (l : List α) : (dropFirst p q l).Sublist l := by
  fun_induction dropFirst p q l with
  | case1 x y rest both =>
    exact (List.sublist_cons_self y rest).trans (List.sublist_cons_self x _)
  | case2 x y rest apart ih => exact ih.cons_cons x
  | case3 l => exact List.Sublist.refl _

theorem dropAll_sublist (l : List α) : (dropAll p q l).Sublist l := by
  fun_induction dropAll p q l with
  | case1 x y rest both ih =>
    exact (ih.trans (List.sublist_cons_self y rest)).trans (List.sublist_cons_self x _)
  | case2 x y rest apart ih => exact ih.cons_cons x
  | case3 l => exact List.Sublist.refl _

/-- What is in no pair is kept. -/
theorem dropFirst_filter {r : α → Bool} {l : List α}
    (notFirst : ∀ x ∈ l, p x = true → r x = false)
    (notSecond : ∀ x ∈ l, q x = true → r x = false) : (dropFirst p q l).filter r = l.filter r := by
  fun_induction dropFirst p q l with
  | case1 x y rest both =>
    have first := notFirst x List.mem_cons_self both.1
    have second := notSecond y (List.mem_cons_of_mem _ List.mem_cons_self) both.2
    rw [List.filter_cons_of_neg (by simp [first]), List.filter_cons_of_neg (by simp [second])]
  | case2 x y rest apart ih =>
    have tail := ih (fun z member => notFirst z (List.mem_cons_of_mem _ member))
      fun z member => notSecond z (List.mem_cons_of_mem _ member)
    rw [List.filter_cons, tail, ← List.filter_cons]
  | case3 l => rfl

theorem dropAll_of_clear {l : List α} (clear : ∀ x ∈ l, p x = false) : dropAll p q l = l := by
  fun_induction dropAll p q l with
  | case1 x y rest both =>
    rw [clear x List.mem_cons_self] at both
    cases both.1
  | case2 x y rest apart ih =>
    rw [ih fun z member => clear z (List.mem_cons_of_mem _ member)]
  | case3 l => rfl

theorem dropAll_append_of_clear {front : List α} (clear : ∀ x ∈ front, p x = false)
    (rest : List α) : dropAll p q (front ++ rest) = front ++ dropAll p q rest := by
  induction front with
  | nil => rfl
  | cons x front ih =>
    have miss : ∀ y, ¬(p x = true ∧ q y = true) := by simp [clear x List.mem_cons_self]
    have tail := ih fun y member => clear y (List.mem_cons_of_mem _ member)
    cases behind : front ++ rest with
    | nil =>
      obtain ⟨rfl, rfl⟩ := List.append_eq_nil_iff.mp behind
      rfl
    | cons y more =>
      rw [List.cons_append, behind, dropAll, if_neg (miss y), ← behind, tail, List.cons_append]

theorem dropAll_of_absent {l : List α} (absent : Absent p q l) : dropAll p q l = l := by
  fun_induction dropAll p q l with
  | case1 x y rest both => exact ((List.isChain_cons_cons.mp absent).1 both).elim
  | case2 x y rest apart ih => rw [ih (List.isChain_cons_cons.mp absent).2]
  | case3 l => rfl

/-- Where every `p` opens a pair, no pair stands anywhere exactly when there is no `p`. -/
theorem Paired.absent_iff {l : List α} (paired : Paired p q l) :
    Absent p q l ↔ l.countP p = 0 := by
  rw [List.countP_eq_zero]
  induction l with
  | nil => simp [Absent]
  | cons x rest ih =>
    have tail := ih paired.2
    constructor
    · intro absent
      have behind := tail.mp (List.IsChain.tail absent)
      refine List.forall_mem_cons.mpr ⟨fun hit => ?_, behind⟩
      obtain ⟨y, head, follows⟩ := paired.1 hit
      obtain ⟨more, rfl⟩ := List.head?_eq_some_iff.mp head
      exact (List.isChain_cons_cons.mp absent).1 ⟨hit, follows⟩
    · intro none
      cases rest with
      | nil => exact List.isChain_singleton x
      | cons y more =>
        exact List.isChain_cons_cons.mpr ⟨fun both => none x List.mem_cons_self both.1,
          tail.mpr fun z member => none z (List.mem_cons_of_mem _ member)⟩

private theorem not_first {x y : α} {rest : List α} (paired : Paired p q (x :: y :: rest))
    (apart : ¬(p x = true ∧ q y = true)) : p x = false := by
  refine Bool.eq_false_iff.mpr fun hit => ?_
  obtain ⟨z, head, follows⟩ := paired.1 hit
  cases head
  exact apart ⟨hit, follows⟩

theorem Paired.dropFirst {l : List α} (paired : Paired p q l) :
    Paired p q (dropFirst p q l) := by
  fun_induction AdjacentPairs.dropFirst p q l with
  | case1 x y rest both => exact paired.2.2
  | case2 x y rest apart ih =>
    refine ⟨fun hit => ?_, ih paired.2⟩
    rw [not_first paired apart] at hit
    cases hit
  | case3 l => exact paired

/-- Deleting the first pair deletes one `p`. -/
theorem Paired.countP_dropFirst (disjoint : ∀ x, q x = true → p x = false) {l : List α}
    (paired : Paired p q l) : (AdjacentPairs.dropFirst p q l).countP p = l.countP p - 1 := by
  fun_induction AdjacentPairs.dropFirst p q l with
  | case1 x y rest both =>
    rw [List.countP_cons_of_pos both.1, List.countP_cons_of_neg (by simp [disjoint y both.2]),
      Nat.add_sub_cancel]
  | case2 x y rest apart ih =>
    have miss := not_first paired apart
    rw [List.countP_cons_of_neg (by simp [miss]), List.countP_cons_of_neg (by simp [miss]),
      ih paired.2]
  | case3 l short =>
    have none : l.countP p = 0 := by
      cases l with
      | nil => rfl
      | cons x rest =>
        cases rest with
        | nil =>
          refine List.countP_eq_zero.mpr (List.forall_mem_singleton.mpr fun hit => ?_)
          obtain ⟨y, head, -⟩ := paired.1 hit
          cases head
        | cons y rest => exact (short x y rest rfl).elim
    rw [none]

/-- One pair at most is all pairs. -/
theorem dropFirst_eq_dropAll {l : List α} (few : l.countP p ≤ 1) :
    dropFirst p q l = dropAll p q l := by
  fun_induction dropFirst p q l with
  | case1 x y rest both =>
    have none : ∀ z ∈ rest, p z = false := by
      rw [List.countP_cons_of_pos both.1] at few
      have behind : (y :: rest).countP p = 0 := by omega
      intro z member
      exact Bool.eq_false_iff.mpr
        (List.countP_eq_zero.mp behind z (List.mem_cons_of_mem _ member))
    rw [dropAll, if_pos both, dropAll_of_clear none]
  | case2 x y rest apart ih =>
    have fewer := List.Sublist.countP_le (p := p) (List.sublist_cons_self x (y :: rest))
    rw [dropAll, if_neg apart, ih (by omega)]
  | case3 l short =>
    cases l with
    | nil => rfl
    | cons x rest =>
      cases rest with
      | nil => rfl
      | cons y rest => exact (short x y rest rfl).elim

/-! ## First hits -/

theorem countP_eraseP (p : α → Bool) (l : List α) : (l.eraseP p).countP p = l.countP p - 1 := by
  rcases List.exists_or_eq_self_of_eraseP p l with same | ⟨x, before, after, clear, hit, split, rest⟩
  · have none : l.countP p = 0 := List.countP_eq_zero.mpr (List.eraseP_eq_self_iff.mp same)
    rw [same, none]
  · rw [rest, split, List.countP_append, List.countP_append, List.countP_cons_of_pos hit]
    omega

/-- One hit at most is all hits. -/
theorem eraseP_eq_filter {p : α → Bool} {l : List α} (few : l.countP p ≤ 1) :
    l.eraseP p = l.filter fun x => !p x := by
  have erased := countP_eraseP p l
  have clear : ∀ x ∈ l.eraseP p, (!p x) = true := by
    intro x member
    have none : (l.eraseP p).countP p = 0 := by omega
    simpa using List.countP_eq_zero.mp none x member
  have filtered := List.filter_eq_self.mpr clear
  rcases List.exists_or_eq_self_of_eraseP p l with same | ⟨x, before, after, -, hit, split, rest⟩
  · rw [same] at filtered ⊢
    exact filtered.symm
  · rw [rest] at filtered ⊢
    rw [split, List.filter_append, List.filter_cons_of_neg (by simp [hit]), ← List.filter_append,
      filtered]

theorem eraseP_filter {p r : α → Bool} {l : List α} (apart : ∀ x ∈ l, p x = true → r x = false) :
    (l.eraseP p).filter r = l.filter r := by
  rcases List.exists_or_eq_self_of_eraseP p l with same | ⟨x, before, after, -, hit, split, rest⟩
  · rw [same]
  · have member : x ∈ l := by simp [split]
    rw [rest, split, List.filter_append, List.filter_append,
      List.filter_cons_of_neg (by simp [apart x member hit])]

end AdjacentPairs
