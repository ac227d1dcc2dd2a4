import Mathlib.Data.List.Basic

/-! # Search loops over a list that shrinks while it is searched

`while ((pos = find(l, start)) > -1) body(pos)` is a common shape of imperative code over a mutable
list: the body rewrites or deletes the element it has found, and the next search resumes at a
position computed before the list shifted. The rules below turn such a loop into one pass over the
list: visiting every hit, deleting every hit, deleting every hit together with the separator in
front of it, and deleting hits while the resume position skips an element.
-/

namespace SearchLoop

variable {σ α : Type*}

/-- The first index at or after `start` whose element satisfies `p`. -/
def findFrom (p : α → Bool) (start : ℕ) (l : List α) : Option ℕ :=
  ((l.drop start).findIdx? p).map (start + ·)

/-- Search from `start`, run the body at the hit, resume where the body says. Running out of fuel
has no result. -/
def searchLoop (p : α → Bool) (body : ℕ → σ → List α → Option (ℕ × σ × List α)) :
    (fuel start : ℕ) → σ → List α → Option (σ × List α)
  | 0, _, _, _ => none
  | fuel + 1, start, s, l =>
    match findFrom p start l with
    | none => some (s, l)
    | some pos => (body pos s l).bind fun (next, s', l') => searchLoop p body fuel next s' l'

theorem findFrom_eq_none_iff {p : α → Bool} {start : ℕ} {l : List α} :
    findFrom p start l = none ↔ ∀ x ∈ l.drop start, p x = false := by
  simp [findFrom, List.findIdx?_eq_none_iff]

theorem findFrom_none {p : α → Bool} {l : List α} (start : ℕ) (clear : ∀ x ∈ l, p x = false) :
    findFrom p start l = none :=
  findFrom_eq_none_iff.mpr fun x member => clear x (List.mem_of_mem_drop member)

/-- The hit is the element right after a prefix that is clear from `start` on. -/
theorem findFrom_append {p : α → Bool} {start : ℕ} {l r : List α} {x : α}
    (bound : start ≤ l.length) (clear : ∀ y ∈ l.drop start, p y = false)
    (hit : p x = true) : findFrom p start (l ++ x :: r) = some l.length := by
  have skipped : (l.drop start).findIdx? p = none := List.findIdx?_eq_none_iff.mpr clear
  rw [findFrom, List.drop_append_of_le_length bound, List.findIdx?_append, skipped,
    List.findIdx?_cons, if_pos hit]
  simp only [Option.map_some, Option.none_or, List.length_drop, Option.some.injEq]
  omega

/-- Searching from an element that is no hit is searching from the next one. -/
theorem findFrom_skip {p : α → Bool} (before rest : List α) {x : α} (miss : p x = false) :
    findFrom p before.length (before ++ x :: rest) =
      findFrom p (before.length + 1) (before ++ x :: rest) := by
  have tail : (before ++ x :: rest).drop (before.length + 1) = rest := by
    rw [← List.drop_drop, List.drop_left, List.drop_one, List.tail_cons]
  rw [findFrom, findFrom, List.drop_left, tail, List.findIdx?_cons, miss]
  simp only [Bool.false_eq_true, ↓reduceIte, Option.map_map]
  congr 1
  funext n
  simp only [Function.comp_apply]
  omega

/-- The loop sees its resume position through the search alone. -/
theorem searchLoop_congr_start {p : α → Bool}
    {body : ℕ → σ → List α → Option (ℕ × σ × List α)} {start start' : ℕ} {l : List α}
    (same : findFrom p start l = findFrom p start' l) (fuel : ℕ) (s : σ) :
    searchLoop p body fuel start s l = searchLoop p body fuel start' s l := by
  cases fuel with
  | zero => rfl
  | succ fuel => simp only [searchLoop, same]

theorem searchLoop_stop {p : α → Bool} {body : ℕ → σ → List α → Option (ℕ × σ × List α)}
    {fuel start : ℕ} {l : List α} (s : σ) (fueled : 0 < fuel)
    (missing : findFrom p start l = none) :
    searchLoop p body fuel start s l = some (s, l) := by
  obtain ⟨fuel, rfl⟩ := Nat.exists_eq_succ_of_ne_zero (Nat.ne_zero_of_lt fueled)
  simp only [searchLoop, missing]

theorem searchLoop_step {p : α → Bool} {body : ℕ → σ → List α → Option (ℕ × σ × List α)}
    {fuel start pos next : ℕ} {s s' : σ} {l l' : List α}
    (found : findFrom p start l = some pos) (run : body pos s l = some (next, s', l')) :
    searchLoop p body (fuel + 1) start s l = searchLoop p body fuel next s' l' := by
  simp only [searchLoop, found, run, Option.bind_some]

theorem findFrom_hit {p : α → Bool} {start pos : ℕ} {l : List α}
    (found : findFrom p start l = some pos) : ∃ x, l[pos]? = some x ∧ p x = true := by
  obtain ⟨n, here, rfl⟩ := Option.map_eq_some_iff.mp found
  obtain ⟨bound, hit, -⟩ := List.findIdx?_eq_some_iff_getElem.mp here
  refine ⟨(l.drop start)[n], ?_, hit⟩
  rw [← List.getElem?_drop, List.getElem?_eq_getElem bound]

/-- What holds of the list and is kept by the body at every hit holds of the list behind the
loop. -/
theorem searchLoop_invariant {p : α → Bool} {body : ℕ → σ → List α → Option (ℕ × σ × List α)}
    {I : List α → Prop}
    (keep : ∀ pos s l x next s' l', I l → l[pos]? = some x → p x = true →
      body pos s l = some (next, s', l') → I l')
    {fuel start : ℕ} {s t : σ} {l out : List α} (initial : I l)
    (run : searchLoop p body fuel start s l = some (t, out)) : I out := by
  induction fuel generalizing start s l with
  | zero => cases run
  | succ fuel ih =>
    rw [searchLoop] at run
    split at run
    · cases run
      exact initial
    · next pos found =>
      obtain ⟨⟨next, s', l'⟩, turn, behind⟩ := Option.bind_eq_some_iff.mp run
      obtain ⟨x, here, hit⟩ := findFrom_hit found
      exact ih (keep pos s l x next s' l' initial here hit turn) behind

/-! Where a body finds its hit: right behind the part of the list that the search has passed. -/

theorem getElem?_here (before rest : List α) (x : α) :
    (before ++ x :: rest)[before.length]? = some x := by
  simp

theorem getElem?_behind (before rest : List α) (x y : α) :
    (before ++ x :: y :: rest)[before.length + 1]? = some y := by
  simp

theorem set_here (before rest : List α) (x y : α) :
    (before ++ x :: rest).set before.length y = before ++ y :: rest := by
  simp

theorem eraseIdx_here (before rest : List α) (x : α) :
    (before ++ x :: rest).eraseIdx before.length = before ++ rest := by
  simp [List.eraseIdx_append_of_length_le]

theorem eraseIdx_behind (before rest : List α) (x y : α) :
    (before ++ x :: y :: rest).eraseIdx (before.length + 1) = before ++ x :: rest := by
  simp [List.eraseIdx_append_of_length_le]

section Visit

/-- One pass that runs `f` at every hit and leaves everything else alone. -/
def visitAll (p : α → Bool) (f : σ → α → Option (σ × α)) : σ → List α → Option (σ × List α)
  | s, [] => some (s, [])
  | s, x :: rest =>
    if p x then
      (f s x).bind fun (s', x') => (visitAll p f s' rest).map fun (t, out) => (t, x' :: out)
    else (visitAll p f s rest).map fun (t, out) => (t, x :: out)

variable {p : α → Bool} {f : σ → α → Option (σ × α)} {I : List α → Prop}
  {body : ℕ → σ → List α → Option (ℕ × σ × List α)}

private theorem searchLoop_visit_from
    (step : ∀ s before x rest, I (before ++ x :: rest) → p x = true →
      body before.length s (before ++ x :: rest) =
        (f s x).map fun (s', x') => (before.length + 1, s', before ++ x' :: rest))
    (keep : ∀ s s' before x x' rest, I (before ++ x :: rest) → p x = true →
      f s x = some (s', x') → I (before ++ x' :: rest))
    (rest before : List α) (fuel : ℕ) (s : σ) (start : I (before ++ rest))
    (fueled : rest.length < fuel) :
    searchLoop p body fuel before.length s (before ++ rest) =
      (visitAll p f s rest).map fun (t, out) => (t, before ++ out) := by
  induction rest generalizing before fuel s with
  | nil =>
    have missing : findFrom p before.length (before ++ []) = none := by
      simp [findFrom_eq_none_iff]
    simpa [visitAll] using searchLoop_stop s fueled missing
  | cons x rest ih =>
    have bound : rest.length < fuel := by simp only [List.length_cons] at fueled; omega
    cases hit : p x with
    | false =>
      rw [searchLoop_congr_start (findFrom_skip before rest hit) fuel s]
      have tail := ih (before ++ [x]) fuel s (by simpa using start) bound
      simp only [List.length_append, List.length_singleton, List.append_assoc,
        List.singleton_append] at tail
      rw [tail, visitAll, hit]
      simp only [Bool.false_eq_true, ↓reduceIte, Option.map_map]
      rfl
    | true =>
      obtain ⟨fuel, rfl⟩ := Nat.exists_eq_succ_of_ne_zero (Nat.ne_zero_of_lt fueled)
      have found : findFrom p before.length (before ++ x :: rest) = some before.length :=
        findFrom_append (Nat.le_refl _) (by simp) hit
      simp only [searchLoop, found, step s before x rest start hit, visitAll, hit, ↓reduceIte]
      cases visited : f s x with
      | none => rfl
      | some result =>
        obtain ⟨s', x'⟩ := result
        have tail := ih (before ++ [x']) fuel s'
          (by simpa using keep s s' before x x' rest start hit visited)
          (by simp only [List.length_cons] at fueled; omega)
        simp only [List.length_append, List.length_singleton, List.append_assoc,
          List.singleton_append] at tail
        simp only [Option.map_some, Option.bind_some, tail, Option.map_map]
        rfl

/-- A loop whose body rewrites its hit in place and resumes behind it is one pass. The body may look
at the whole list as far as an invariant fixes what it sees. -/
theorem searchLoop_visit
    (step : ∀ s before x rest, I (before ++ x :: rest) → p x = true →
      body before.length s (before ++ x :: rest) =
        (f s x).map fun (s', x') => (before.length + 1, s', before ++ x' :: rest))
    (keep : ∀ s s' before x x' rest, I (before ++ x :: rest) → p x = true →
      f s x = some (s', x') → I (before ++ x' :: rest))
    (s : σ) (l : List α) {fuel : ℕ} (start : I l) (fueled : l.length < fuel) :
    searchLoop p body fuel 0 s l = visitAll p f s l := by
  have run := searchLoop_visit_from step keep l [] fuel s start fueled
  simpa using run

/-- When every visit succeeds, the pass maps the hits and folds the state over them in order. -/
theorem visitAll_eq_some {g : α → α} {h : σ → α → σ} (s : σ) (l : List α)
    (visit : ∀ s, ∀ x ∈ l, p x = true → f s x = some (h s x, g x)) :
    visitAll p f s l =
      some ((l.filter p).foldl h s, l.map fun x => if p x then g x else x) := by
  induction l generalizing s with
  | nil => rfl
  | cons x rest ih =>
    have tail := fun s => ih s fun s y member => visit s y (List.mem_cons_of_mem _ member)
    cases hit : p x with
    | false => simp [visitAll, hit, tail]
    | true => simp [visitAll, hit, tail, visit s x List.mem_cons_self hit]

end Visit

section Delete

variable {p : α → Bool} {body : ℕ → σ → List α → Option (ℕ × σ × List α)}

private theorem searchLoop_delete_from
    (step : ∀ s before x rest, p x = true →
      body before.length s (before ++ x :: rest) = some (before.length, s, before ++ rest))
    (rest before : List α) (fuel : ℕ) (s : σ) (fueled : rest.length < fuel) :
    searchLoop p body fuel before.length s (before ++ rest) =
      some (s, before ++ rest.filter fun x => !p x) := by
  induction rest generalizing before fuel with
  | nil =>
    have missing : findFrom p before.length (before ++ []) = none := by
      simp [findFrom_eq_none_iff]
    simpa using searchLoop_stop s fueled missing
  | cons x rest ih =>
    have bound : rest.length < fuel := by simp only [List.length_cons] at fueled; omega
    cases hit : p x with
    | false =>
      rw [searchLoop_congr_start (findFrom_skip before rest hit) fuel s]
      have tail := ih (before ++ [x]) fuel bound
      simp only [List.length_append, List.length_singleton, List.append_assoc,
        List.singleton_append] at tail
      rw [tail, List.filter_cons_of_pos (by simp [hit])]
    | true =>
      obtain ⟨fuel, rfl⟩ := Nat.exists_eq_succ_of_ne_zero (Nat.ne_zero_of_lt fueled)
      have found : findFrom p before.length (before ++ x :: rest) = some before.length :=
        findFrom_append (Nat.le_refl _) (by simp) hit
      rw [searchLoop_step found (step s before x rest hit), List.filter_cons_of_neg (by simp [hit])]
      exact ih before fuel (by simp only [List.length_cons] at fueled; omega)

/-- Deleting each hit and resuming where it stood removes every hit. -/
theorem searchLoop_delete
    (step : ∀ s before x rest, p x = true →
      body before.length s (before ++ x :: rest) = some (before.length, s, before ++ rest))
    (s : σ) (l : List α) {fuel : ℕ} (fueled : l.length < fuel) :
    searchLoop p body fuel 0 s l = some (s, l.filter fun x => !p x) := by
  simpa using searchLoop_delete_from step l [] fuel s fueled

end Delete

section TakeSkip

/-- Take each hit out and leave the element behind it unexamined: the taken elements and the ones
that are left. -/
def takeSkip (p : α → Bool) : List α → List α × List α
  | [] => ([], [])
  | [x] => if p x then ([x], []) else ([], [x])
  | x :: y :: rest =>
    if p x then (x :: (takeSkip p rest).1, y :: (takeSkip p rest).2)
    else ((takeSkip p (y :: rest)).1, x :: (takeSkip p (y :: rest)).2)

@[simp]
theorem takeSkip_nil (p : α → Bool) : takeSkip p [] = ([], []) := rfl

@[simp]
theorem takeSkip_singleton_of_pos {p : α → Bool} {x : α} (hit : p x = true) :
    takeSkip p [x] = ([x], []) := if_pos hit

@[simp]
theorem takeSkip_cons_cons_of_pos {p : α → Bool} {x : α} (hit : p x = true) (y : α)
    (rest : List α) :
    takeSkip p (x :: y :: rest) = (x :: (takeSkip p rest).1, y :: (takeSkip p rest).2) := if_pos hit

@[simp]
theorem takeSkip_cons_of_neg {p : α → Bool} {x : α} (miss : ¬p x = true) (rest : List α) :
    takeSkip p (x :: rest) = ((takeSkip p rest).1, x :: (takeSkip p rest).2) := by
  cases rest <;> exact if_neg miss

theorem takeSkip_append_of_clear {p : α → Bool} {front : List α}
    (clear : ∀ x ∈ front, p x = false) (rest : List α) :
    takeSkip p (front ++ rest) = ((takeSkip p rest).1, front ++ (takeSkip p rest).2) := by
  induction front with
  | nil => rfl
  | cons x front ih =>
    rw [List.cons_append, takeSkip_cons_of_neg (by simp [clear x List.mem_cons_self]),
      ih fun y member => clear y (List.mem_cons_of_mem _ member)]
    rfl

/-- A map that keeps the test keeps what is taken and what is left. -/
theorem takeSkip_map {p : α → Bool} {g : α → α} (l : List α) (same : ∀ x ∈ l, p (g x) = p x) :
    takeSkip p (l.map g) = ((takeSkip p l).1.map g, (takeSkip p l).2.map g) := by
  induction l using takeSkip.induct p with
  | case1 => rfl
  | case2 x hit => simp [same, hit]
  | case3 x miss => simp [same, miss]
  | case4 x y rest hit ih =>
    have tail := ih fun z member =>
      same z (List.mem_cons_of_mem _ (List.mem_cons_of_mem _ member))
    simp [same, hit, tail]
  | case5 x y rest miss ih =>
    have tail := ih fun z member => same z (List.mem_cons_of_mem _ member)
    rw [List.map_cons] at tail
    simp [same, miss, tail]

theorem takeSkip_fst_hit {p : α → Bool} (l : List α) :
    ∀ x ∈ (takeSkip p l).1, x ∈ l ∧ p x = true := by
  induction l using takeSkip.induct p with
  | case1 => simp
  | case2 x hit => simp [hit]
  | case3 x miss => simp [miss]
  | case4 x y rest hit ih =>
    intro z member
    rw [takeSkip_cons_cons_of_pos hit, List.mem_cons] at member
    rcases member with rfl | member
    · exact ⟨List.mem_cons_self, hit⟩
    · exact ⟨List.mem_cons_of_mem _ (List.mem_cons_of_mem _ (ih z member).1), (ih z member).2⟩
  | case5 x y rest miss ih =>
    intro z member
    rw [takeSkip_cons_of_neg miss] at member
    exact ⟨List.mem_cons_of_mem _ (ih z member).1, (ih z member).2⟩

/-- The first hit is always taken. -/
theorem takeSkip_fst_eq_nil_iff {p : α → Bool} (l : List α) :
    (takeSkip p l).1 = [] ↔ l.any p = false := by
  induction l using takeSkip.induct p with
  | case1 => simp
  | case2 x hit => simp [hit]
  | case3 x miss => simp [miss]
  | case4 x y rest hit ih => simp [hit]
  | case5 x y rest miss ih =>
    rw [takeSkip_cons_of_neg miss, ih]
    simp [miss]

/-- What no hit satisfies is left as it was. -/
theorem takeSkip_snd_any {p q : α → Bool} (apart : ∀ x, p x = true → q x = false) (l : List α) :
    (takeSkip p l).2.any q = l.any q := by
  induction l using takeSkip.induct p with
  | case1 => rfl
  | case2 x hit => simp [hit, apart x hit]
  | case3 x miss => simp [miss]
  | case4 x y rest hit ih => simp [hit, apart x hit, ih]
  | case5 x y rest miss ih =>
    have tail : ((takeSkip p (y :: rest)).2.any q) = (y :: rest).any q := ih
    rw [takeSkip_cons_of_neg miss, List.any_cons, List.any_cons, tail]

theorem takeSkip_fst_sublist {p : α → Bool} (l : List α) :
    (takeSkip p l).1.Sublist (l.filter p) := by
  induction l using takeSkip.induct p with
  | case1 => exact List.Sublist.refl _
  | case2 x hit => simp [hit]
  | case3 x miss => simp [miss]
  | case4 x y rest hit ih =>
    have behind : (rest.filter p).Sublist ((y :: rest).filter p) :=
      (List.sublist_cons_self y rest).filter p
    simp only [takeSkip_cons_cons_of_pos, hit, List.filter_cons_of_pos]
    exact (ih.trans behind).cons_cons x
  | case5 x y rest miss ih =>
    rw [takeSkip_cons_of_neg miss, List.filter_cons_of_neg miss]
    exact ih

theorem takeSkip_snd_sublist {p : α → Bool} (l : List α) : (takeSkip p l).2.Sublist l := by
  induction l using takeSkip.induct p with
  | case1 => exact List.Sublist.refl _
  | case2 x hit => simp [hit]
  | case3 x miss => simp [miss]
  | case4 x y rest hit ih =>
    rw [takeSkip_cons_cons_of_pos hit]
    exact (ih.cons_cons y).trans (List.sublist_cons_self x _)
  | case5 x y rest miss ih =>
    rw [takeSkip_cons_of_neg miss]
    exact ih.cons_cons x

/-- Every hit is taken exactly when no hit stands right behind another one. -/
theorem takeSkip_fst_eq_filter_iff {p : α → Bool} (l : List α) :
    (takeSkip p l).1 = l.filter p ↔ l.IsChain fun x y => ¬(p x = true ∧ p y = true) := by
  induction l using takeSkip.induct p with
  | case1 => simp
  | case2 x hit => simp [hit]
  | case3 x miss => simp [miss]
  | case4 x y rest hit ih =>
    simp only [takeSkip_cons_cons_of_pos, hit, List.filter_cons_of_pos, List.isChain_cons_cons,
      true_and, List.cons.injEq]
    cases follows : p y with
    | true =>
      have short := (takeSkip_fst_sublist (p := p) rest).length_le
      rw [List.filter_cons_of_pos follows]
      refine iff_of_false (fun same => ?_) (fun chain => chain.1 rfl)
      rw [same, List.length_cons] at short
      omega
    | false =>
      have start : (y :: rest).IsChain (fun x y => ¬(p x = true ∧ p y = true)) ↔
          rest.IsChain fun x y => ¬(p x = true ∧ p y = true) := by
        cases rest <;> simp [follows]
      rw [List.filter_cons_of_neg (by simp [follows]), start, ih]
      simp
  | case5 x y rest miss ih =>
    rw [takeSkip_cons_of_neg miss, List.filter_cons_of_neg miss, List.isChain_cons_cons, ih]
    simp [miss]

/-- What is no hit is kept, in its order. -/
theorem takeSkip_snd_filter {p q : α → Bool} {l : List α}
    (apart : ∀ x ∈ l, p x = true → q x = false) : (takeSkip p l).2.filter q = l.filter q := by
  induction l using takeSkip.induct p with
  | case1 => rfl
  | case2 x hit => simp [hit, apart x List.mem_cons_self hit]
  | case3 x miss => simp [miss]
  | case4 x y rest hit ih =>
    have tail := ih fun z member =>
      apart z (List.mem_cons_of_mem _ (List.mem_cons_of_mem _ member))
    have gone : (x :: y :: rest).filter q = (y :: rest).filter q :=
      List.filter_cons_of_neg (by simp [apart x List.mem_cons_self hit])
    rw [takeSkip_cons_cons_of_pos hit]
    rw [gone, List.filter_cons, tail, ← List.filter_cons]
  | case5 x y rest miss ih =>
    have tail := ih fun z member => apart z (List.mem_cons_of_mem _ member)
    rw [takeSkip_cons_of_neg miss, List.filter_cons, tail, ← List.filter_cons]

theorem takeSkip_countP {p : α → Bool} (l : List α) :
    (takeSkip p l).1.length + (takeSkip p l).2.countP p = l.countP p := by
  induction l using takeSkip.induct p with
  | case1 => rfl
  | case2 x hit => simp [hit]
  | case3 x miss => simp [miss]
  | case4 x y rest hit ih =>
    simp only [takeSkip_cons_cons_of_pos, hit, if_true, List.length_cons, List.countP_cons]
    omega
  | case5 x y rest miss ih =>
    rw [takeSkip_cons_of_neg miss, List.countP_cons_of_neg miss, List.countP_cons_of_neg miss]
    exact ih

/-- No hit is left exactly when no hit stands right behind another one. -/
theorem takeSkip_snd_clear_iff {p : α → Bool} (l : List α) :
    (∀ x ∈ (takeSkip p l).2, p x = false) ↔
      l.IsChain fun x y => ¬(p x = true ∧ p y = true) := by
  have total := takeSkip_countP (p := p) l
  have none : (∀ x ∈ (takeSkip p l).2, p x = false) ↔ (takeSkip p l).2.countP p = 0 := by
    rw [List.countP_eq_zero]
    exact forall₂_congr fun x _ => Bool.eq_false_iff
  rw [none, ← takeSkip_fst_eq_filter_iff, List.countP_eq_length_filter (l := l)] at *
  refine ⟨fun empty => (takeSkip_fst_sublist l).eq_of_length (by omega), fun same => ?_⟩
  rw [same] at total
  omega

/-- Where no hit stands right behind another one, exactly the hits are taken. -/
theorem takeSkip_snd_eq_filter {p : α → Bool} {l : List α}
    (chain : l.IsChain fun x y => ¬(p x = true ∧ p y = true)) :
    (takeSkip p l).2 = l.filter fun x => !p x := by
  have clear := (takeSkip_snd_clear_iff l).mpr chain
  rw [← takeSkip_snd_filter (q := fun x => !p x) (p := p) (by simp),
    List.filter_eq_self.mpr fun x member => by simp [clear x member]]

variable {p : α → Bool} {f : σ → α → σ} {I : List α → Prop}
  {body : ℕ → σ → List α → Option (ℕ × σ × List α)}

private theorem searchLoop_takeSkip_from
    (step : ∀ s before x rest, I (before ++ x :: rest) → p x = true →
      body before.length s (before ++ x :: rest) = some (before.length + 1, f s x, before ++ rest))
    (keep : ∀ before x rest, I (before ++ x :: rest) → p x = true → I (before ++ rest))
    (s : σ) (rest before : List α) (fuel : ℕ) (start : I (before ++ rest))
    (fueled : rest.length < fuel) :
    searchLoop p body fuel before.length s (before ++ rest) =
      some ((takeSkip p rest).1.foldl f s, before ++ (takeSkip p rest).2) := by
  induction rest using takeSkip.induct p generalizing before fuel s with
  | case1 =>
    have missing : findFrom p before.length (before ++ []) = none := by
      simp [findFrom_eq_none_iff]
    simpa using searchLoop_stop s fueled missing
  | case2 x hit =>
    obtain ⟨fuel, rfl⟩ := Nat.exists_eq_succ_of_ne_zero (Nat.ne_zero_of_lt fueled)
    have found : findFrom p before.length (before ++ [x]) = some before.length :=
      findFrom_append (Nat.le_refl _) (by simp) hit
    rw [searchLoop_step found (step s before x [] start hit)]
    have missing : findFrom p (before.length + 1) (before ++ []) = none := by
      simp [findFrom_eq_none_iff, List.drop_eq_nil_of_le]
    simpa [hit] using
      searchLoop_stop (f s x) (by simp only [List.length_singleton] at fueled; omega) missing
  | case3 x miss =>
    have missing : findFrom p before.length (before ++ [x]) = none := by
      simp [findFrom_eq_none_iff, Bool.eq_false_iff.mpr miss]
    simpa [miss] using searchLoop_stop s (Nat.zero_lt_of_lt fueled) missing
  | case4 x y rest hit ih =>
    obtain ⟨fuel, rfl⟩ := Nat.exists_eq_succ_of_ne_zero (Nat.ne_zero_of_lt fueled)
    have found : findFrom p before.length (before ++ x :: y :: rest) = some before.length :=
      findFrom_append (Nat.le_refl _) (by simp) hit
    rw [searchLoop_step found (step s before x (y :: rest) start hit)]
    -- The resume position is one past `y`, which now stands where the hit stood.
    have tail := ih (f s x) (before ++ [y]) fuel
      (by simpa using keep before x (y :: rest) start hit)
      (by simp only [List.length_cons] at fueled; omega)
    simp only [List.length_append, List.length_singleton, List.append_assoc,
      List.singleton_append] at tail
    rw [tail, takeSkip_cons_cons_of_pos hit]
    rfl
  | case5 x y rest miss ih =>
    have skip := findFrom_skip before (y :: rest) (Bool.eq_false_iff.mpr miss)
    rw [searchLoop_congr_start skip fuel s]
    have tail := ih s (before ++ [x]) fuel (by simpa using start)
      (by simp only [List.length_cons] at fueled ⊢; omega)
    simp only [List.length_append, List.length_singleton, List.append_assoc,
      List.singleton_append] at tail
    rw [tail, takeSkip_cons_of_neg miss]

/-- Deleting each hit and resuming one past it leaves the element behind each hit unexamined. -/
theorem searchLoop_takeSkip
    (step : ∀ s before x rest, I (before ++ x :: rest) → p x = true →
      body before.length s (before ++ x :: rest) = some (before.length + 1, f s x, before ++ rest))
    (keep : ∀ before x rest, I (before ++ x :: rest) → p x = true → I (before ++ rest))
    (s : σ) (l : List α) {fuel : ℕ} (start : I l) (fueled : l.length < fuel) :
    searchLoop p body fuel 0 s l = some ((takeSkip p l).1.foldl f s, (takeSkip p l).2) := by
  simpa using searchLoop_takeSkip_from step keep s l [] fuel start fueled

end TakeSkip

section Blocks

/-- A stretch of a separated list: elements to keep, or one separator and the hit behind it. -/
inductive Block (α : Type*) where
  | keep (items : List α)
  | drop (separator item : α)

namespace Block

def items : Block α → List α
  | keep items => items
  | drop separator item => [separator, item]

def kept : Block α → List α
  | keep items => items
  | drop _ _ => []

def dropped? : Block α → Option α
  | keep _ => none
  | drop _ item => some item

/-- Kept stretches hold no hit; a dropped stretch is a separator and a hit `ok` accepts. -/
def WellFormed (p : α → Bool) (separator ok : α → Prop) : Block α → Prop
  | keep items => ∀ x ∈ items, p x = false
  | drop sep item => separator sep ∧ p sep = false ∧ p item = true ∧ ok item

end Block

variable {p : α → Bool} {f : σ → α → σ} {separator ok : α → Prop}
  {body : ℕ → σ → List α → Option (ℕ × σ × List α)}

private theorem findFrom_separated {start : ℕ} {before : List α} (rest : List α) {sep item : α}
    (bound : start ≤ before.length + 1) (clear : ∀ x ∈ before, p x = false)
    (miss : p sep = false) (hit : p item = true) :
    findFrom p start (before ++ sep :: item :: rest) = some (before.length + 1) := by
  have clear' : ∀ x ∈ (before ++ [sep]).drop start, p x = false := by
    intro x member
    rcases List.mem_append.mp (List.mem_of_mem_drop member) with old | new
    · exact clear x old
    · rwa [List.mem_singleton.mp new]
  have found := findFrom_append (l := before ++ [sep]) (r := rest)
    (by simpa using bound) clear' hit
  simpa using found

private theorem searchLoop_blocks_from
    (step : ∀ s before sep item rest, before ≠ [] → separator sep → p item = true → ok item →
      ∃ next ≤ before.length + 1, body (before.length + 1) s (before ++ sep :: item :: rest) =
        some (next, f s item, before ++ rest))
    (blocks : List (Block α)) (before rest : List α) (fuel start : ℕ) (s : σ)
    (wellFormed : ∀ block ∈ blocks, block.WellFormed p separator ok)
    (nonempty : before ≠ []) (clear : ∀ x ∈ before, p x = false)
    (restClear : ∀ x ∈ rest, p x = false) (bound : start ≤ before.length + 1)
    (fueled : blocks.length < fuel) :
    searchLoop p body fuel start s (before ++ blocks.flatMap Block.items ++ rest) =
      some ((blocks.filterMap Block.dropped?).foldl f s,
        before ++ blocks.flatMap Block.kept ++ rest) := by
  induction blocks generalizing before fuel start s with
  | nil =>
    have allClear : ∀ x ∈ before ++ rest, p x = false := by
      intro x member
      exact (List.mem_append.mp member).elim (clear x) (restClear x)
    simpa using searchLoop_stop s fueled (findFrom_none start allClear)
  | cons block blocks ih =>
    have tailFormed : ∀ b ∈ blocks, b.WellFormed p separator ok :=
      fun b member => wellFormed b (List.mem_cons_of_mem _ member)
    have head := wellFormed block List.mem_cons_self
    simp only [List.length_cons] at fueled
    cases block with
    | keep items =>
      -- A kept stretch joins the clear prefix, which only moves the resume position back.
      have grown : ∀ x ∈ before ++ items, p x = false := by
        intro x member
        exact (List.mem_append.mp member).elim (clear x) (head x)
      have run := ih (before ++ items) fuel start s tailFormed (by simp [nonempty]) grown
        (by simp only [List.length_append]; omega) (by omega)
      simpa only [List.flatMap_cons, Block.items, Block.kept, Block.dropped?, List.append_assoc,
        List.filterMap_cons] using run
    | drop sep item =>
      obtain ⟨isSep, miss, hit, good⟩ := head
      obtain ⟨fuel, rfl⟩ := Nat.exists_eq_succ_of_ne_zero (Nat.ne_zero_of_lt fueled)
      obtain ⟨next, resumed, run⟩ :=
        step s before sep item (blocks.flatMap Block.items ++ rest) nonempty isSep hit good
      have found := findFrom_separated (blocks.flatMap Block.items ++ rest)
        bound clear miss hit
      have reshaped : before ++ (Block.drop sep item :: blocks).flatMap Block.items ++ rest =
          before ++ sep :: item :: (blocks.flatMap Block.items ++ rest) := by
        simp [Block.items]
      rw [reshaped, searchLoop_step found run, ← List.append_assoc,
        ih before fuel next (f s item) tailFormed nonempty clear resumed (by omega)]
      simp [Block.kept, Block.dropped?]

/-- Deleting each hit with the separator in front of it, resuming no later than one past where the
separator stood, keeps exactly the other stretches and handles the hits in order. -/
theorem searchLoop_blocks (separator ok : α → Prop)
    (body : ℕ → σ → List α → Option (ℕ × σ × List α)) (fuel : ℕ)
    (step : ∀ s before sep item rest, before ≠ [] → separator sep → p item = true → ok item →
      ∃ next ≤ before.length + 1, body (before.length + 1) s (before ++ sep :: item :: rest) =
        some (next, f s item, before ++ rest))
    (blocks : List (Block α)) (before rest : List α) (s : σ)
    (wellFormed : ∀ block ∈ blocks, block.WellFormed p separator ok)
    (nonempty : before ≠ []) (clear : ∀ x ∈ before, p x = false)
    (restClear : ∀ x ∈ rest, p x = false) (fueled : blocks.length < fuel) :
    searchLoop p body fuel 0 s (before ++ blocks.flatMap Block.items ++ rest) =
      some ((blocks.filterMap Block.dropped?).foldl f s,
        before ++ blocks.flatMap Block.kept ++ rest) :=
  searchLoop_blocks_from step blocks before rest fuel 0 s wellFormed nonempty clear restClear
    (Nat.zero_le _) fueled

end Blocks

end SearchLoop
