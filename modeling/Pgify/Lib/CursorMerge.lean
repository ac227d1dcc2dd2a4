import Mathlib.Data.List.Basic

/-! # Merging two sequences with a cursor

A stream of items is merged into a list of stops: before each stop the cursor passes items as long
as the stop lets them pass, and behind the last stop the rest of the stream is flushed. Whatever the
test is, nothing is lost, repeated or reordered. Which items precede a stop depends on the test
alone: `length_before_ge` bounds the cursor from below, and `never_ahead_iff` says exactly when the
cursor stays within the place that each stop has in the stream.
-/

namespace CursorMerge

variable {α β : Type*}

/-- The merged sequence: items on the left, stops on the right. -/
def merge (passes : β → α → Bool) : List α → List β → List (α ⊕ β)
  | items, [] => items.map .inl
  | items, stop :: stops =>
    (items.takeWhile (passes stop)).map .inl ++
      .inr stop :: merge passes (items.dropWhile (passes stop)) stops

def lefts (merged : List (α ⊕ β)) : List α := merged.filterMap Sum.getLeft?

def rights (merged : List (α ⊕ β)) : List β := merged.filterMap Sum.getRight?

/-- What is left of the stream behind some stops. -/
def remaining (passes : β → α → Bool) (items : List α) (stops : List β) : List α :=
  stops.foldl (fun items stop => items.dropWhile (passes stop)) items

@[simp] theorem lefts_append (first second : List (α ⊕ β)) :
    lefts (first ++ second) = lefts first ++ lefts second :=
  List.filterMap_append

@[simp] theorem rights_append (first second : List (α ⊕ β)) :
    rights (first ++ second) = rights first ++ rights second :=
  List.filterMap_append

@[simp] theorem lefts_map_inl (items : List α) : lefts (items.map (.inl : α → α ⊕ β)) = items := by
  simp [lefts, List.filterMap_map, Function.comp_def]

@[simp] theorem rights_map_inl (items : List α) : rights (items.map (.inl : α → α ⊕ β)) = [] := by
  simp [rights, List.filterMap_map, Function.comp_def]

@[simp] theorem lefts_cons_inl (item : α) (rest : List (α ⊕ β)) :
    lefts (.inl item :: rest) = item :: lefts rest := rfl

@[simp] theorem lefts_cons_inr (stop : β) (rest : List (α ⊕ β)) :
    lefts (.inr stop :: rest) = lefts rest := rfl

@[simp] theorem rights_cons_inr (stop : β) (rest : List (α ⊕ β)) :
    rights (.inr stop :: rest) = stop :: rights rest := rfl

variable {passes : β → α → Bool}

/-- Every item is emitted once, in stream order. -/
theorem lefts_merge (items : List α) (stops : List β) :
    lefts (merge passes items stops) = items := by
  induction stops generalizing items with
  | nil => exact lefts_map_inl items
  | cons stop stops ih => simp [merge, ih, List.takeWhile_append_dropWhile]

/-- Every stop is emitted once, in order. -/
theorem rights_merge (items : List α) (stops : List β) :
    rights (merge passes items stops) = stops := by
  induction stops generalizing items with
  | nil => exact rights_map_inl items
  | cons stop stops ih => simp [merge, ih]

theorem remaining_suffix (items : List α) (stops : List β) :
    remaining passes items stops <:+ items := by
  induction stops generalizing items with
  | nil => exact List.suffix_rfl
  | cons stop stops ih => exact (ih _).trans (List.dropWhile_suffix _)

/-- The merged sequence up to its last stop. -/
def front (passes : β → α → Bool) : List α → List β → List (α ⊕ β)
  | _, [] => []
  | items, stop :: stops =>
    (items.takeWhile (passes stop)).map .inl ++
      .inr stop :: front passes (items.dropWhile (passes stop)) stops

theorem merge_append (items : List α) (stops more : List β) :
    merge passes items (stops ++ more) =
      front passes items stops ++ merge passes (remaining passes items stops) more := by
  induction stops generalizing items with
  | nil => rfl
  | cons stop stops ih =>
    rw [List.cons_append, merge, front, ih]
    simp [remaining]

theorem rights_front (items : List α) (stops : List β) :
    rights (front passes items stops) = stops := by
  induction stops generalizing items with
  | nil => rfl
  | cons stop stops ih => simp [front, ih]

theorem lefts_front_append_remaining (items : List α) (stops : List β) :
    lefts (front passes items stops) ++ remaining passes items stops = items := by
  induction stops generalizing items with
  | nil => rfl
  | cons stop stops ih =>
    have rest := ih (items.dropWhile (passes stop))
    simp only [front, lefts_append, lefts_map_inl, lefts_cons_inr, List.append_assoc]
    change _ ++ (_ ++ remaining passes (items.dropWhile (passes stop)) stops) = _
    rw [rest, List.takeWhile_append_dropWhile]

/-- The sequence up to a last stop ends in that stop. -/
theorem front_concat (items : List α) (stops : List β) (stop : β) :
    ∃ before, front passes items (stops ++ [stop]) = before ++ [.inr stop] := by
  induction stops generalizing items with
  | nil => exact ⟨_, rfl⟩
  | cons next stops ih =>
    obtain ⟨before, rest⟩ := ih (items.dropWhile (passes next))
    refine ⟨(items.takeWhile (passes next)).map .inl ++ .inr next :: before, ?_⟩
    rw [List.cons_append, front, rest]
    simp

private theorem inr_notMem_map_inl (items : List α) (stop : β) :
    (.inr stop : α ⊕ β) ∉ items.map .inl := by simp

/-- One occurrence of a stop cuts the sequence into what is merged up to it and the merge of the
rest. -/
theorem split_merge {items : List α} {stops : List β} {before after : List (α ⊕ β)} {stop : β}
    (split : merge passes items stops = before ++ .inr stop :: after) :
    ∃ earlier later, stops = earlier ++ stop :: later ∧
      before ++ [.inr stop] = front passes items (earlier ++ [stop]) ∧
      after = merge passes (remaining passes items (earlier ++ [stop])) later := by
  induction stops generalizing items before with
  | nil =>
    have member : (.inr stop : α ⊕ β) ∈ items.map .inl := by
      rw [merge] at split
      simp [split]
    exact absurd member (inr_notMem_map_inl items stop)
  | cons next stops ih =>
    rw [merge, List.append_eq_append_iff] at split
    have here (same : next = stop) (passed : before =
        (items.takeWhile (passes next)).map Sum.inl)
        (rest : merge passes (items.dropWhile (passes next)) stops = after) :
        ∃ earlier later, next :: stops = earlier ++ stop :: later ∧
          before ++ [.inr stop] = front passes items (earlier ++ [stop]) ∧
          after = merge passes (remaining passes items (earlier ++ [stop])) later := by
      subst same passed
      exact ⟨[], stops, rfl, rfl, rest.symm⟩
    rcases split with ⟨between, rfl, tail⟩ | ⟨between, passed, tail⟩
    · cases between with
      | nil =>
        obtain ⟨head, rest⟩ := List.cons.inj tail
        exact here (Sum.inr.inj head) (List.append_nil _) rest
      | cons piece between =>
        obtain ⟨rfl, rest⟩ := List.cons.inj tail
        obtain ⟨earlier, later, rfl, upTo, behind⟩ := ih rest
        refine ⟨next :: earlier, later, rfl, ?_, behind⟩
        rw [List.append_assoc, List.cons_append, upTo]
        rfl
    · cases between with
      | nil =>
        obtain ⟨head, rest⟩ := List.cons.inj tail
        exact here (Sum.inr.inj head).symm ((List.append_nil _).symm.trans passed.symm) rest.symm
      | cons piece between =>
        obtain ⟨rfl, -⟩ := List.cons.inj tail
        have member : (.inr stop : α ⊕ β) ∈ (items.takeWhile (passes next)).map .inl := by
          rw [passed]
          simp
        exact absurd member (inr_notMem_map_inl _ stop)

/-- The items in front of one occurrence of a stop are those the cursor has passed by then. -/
theorem split_remaining {items : List α} {stops : List β} {before after : List (α ⊕ β)} {stop : β}
    (split : merge passes items stops = before ++ .inr stop :: after) :
    ∃ earlier later, stops = earlier ++ stop :: later ∧
      lefts before ++ remaining passes items (earlier ++ [stop]) = items := by
  obtain ⟨earlier, later, place, upTo, -⟩ := split_merge split
  refine ⟨earlier, later, place, ?_⟩
  have passed : lefts before = lefts (before ++ [.inr stop]) := by simp [lefts]
  rw [passed, upTo]
  exact lefts_front_append_remaining items _

/-- What stands in front of a stop is an initial part of the stream. -/
theorem prefix_lefts_before {items : List α} {stops : List β} {before after : List (α ⊕ β)}
    {stop : β} (split : merge passes items stops = before ++ .inr stop :: after) :
    lefts before <+: items := by
  obtain ⟨earlier, later, -, conserved⟩ := split_remaining split
  exact ⟨_, conserved⟩

/-- Every stop of the list occurs in the merged sequence. -/
theorem exists_split (items : List α) {stops : List β} {stop : β} (member : stop ∈ stops) :
    ∃ before after, merge passes items stops = before ++ .inr stop :: after := by
  have emitted : stop ∈ rights (merge passes items stops) := by rwa [rights_merge]
  obtain ⟨piece, pieceMember, same⟩ := List.mem_filterMap.mp emitted
  obtain ⟨before, after, split⟩ := List.append_of_mem pieceMember
  exact ⟨before, after, by rw [split, Sum.getRight?_eq_some_iff.mp same]⟩

private theorem dropWhile_length_le {p : α → Bool} {early : List α} (late rest : List α)
    (pass : ∀ a ∈ early, p a = true) (suffix : rest <:+ early ++ late) :
    (rest.dropWhile p).length ≤ late.length := by
  obtain ⟨front, conserved⟩ := suffix
  rcases List.append_eq_append_iff.mp conserved with ⟨middle, rfl, rfl⟩ | ⟨middle, rfl, rfl⟩
  · rw [List.dropWhile_append_of_pos fun a member => pass a (List.mem_append_right _ member)]
    exact (List.dropWhile_suffix p).length_le
  · calc (rest.dropWhile p).length ≤ rest.length := (List.dropWhile_suffix p).length_le
      _ ≤ (middle ++ rest).length := by simp

/-- A stop that lets the first `home` items pass has them all in front of it. -/
theorem length_before_ge {items : List α} {stops : List β} {before after : List (α ⊕ β)} {stop : β}
    (split : merge passes items stops = before ++ .inr stop :: after) (home : ℕ)
    (pass : ∀ a ∈ items.take home, passes stop a = true) :
    min home items.length ≤ (lefts before).length := by
  obtain ⟨earlier, later, -, conserved⟩ := split_remaining split
  have rest := dropWhile_length_le (items.drop home) (remaining passes items earlier) pass
    (by rw [List.take_append_drop]; exact remaining_suffix items earlier)
  have total := congrArg List.length conserved
  simp only [remaining, List.foldl_append, List.foldl_cons, List.foldl_nil,
    List.length_append] at total
  simp only [remaining, List.length_drop] at rest
  omega

private theorem takeWhile_length_le {p : α → Bool} (l : List α) (n : ℕ)
    (blocked : ∀ a, l[n]? = some a → p a = false) : (l.takeWhile p).length ≤ n := by
  induction l generalizing n with
  | nil => exact Nat.zero_le n
  | cons x rest ih =>
    cases n with
    | zero => simp [blocked x rfl]
    | succ n =>
      cases hit : p x with
      | false => simp [hit]
      | true =>
        have tail := ih n fun a present => blocked a (by simpa using present)
        simpa [hit] using tail

/-- Where the cursor stands in `items` after one stop. -/
private def advance (p : α → Bool) (items : List α) (cursor : ℕ) : ℕ :=
  cursor + ((items.drop cursor).takeWhile p).length

private theorem dropWhile_drop (p : α → Bool) (items : List α) (cursor : ℕ) :
    (items.drop cursor).dropWhile p = items.drop (advance p items cursor) := by
  rw [advance, ← List.drop_drop]
  generalize items.drop cursor = rest
  calc rest.dropWhile p
      = (rest.takeWhile p ++ rest.dropWhile p).drop (rest.takeWhile p).length :=
        (List.drop_left).symm
    _ = rest.drop (rest.takeWhile p).length := by rw [List.takeWhile_append_dropWhile]

/-- A blocked item stops the cursor. -/
private theorem advance_le {p : α → Bool} {items : List α} {cursor home : ℕ}
    (notPast : cursor ≤ home) (blocked : ∀ a, items[home]? = some a → p a = false) :
    advance p items cursor ≤ home := by
  have bound := takeWhile_length_le (p := p) (items.drop cursor) (home - cursor) (by
    intro a present
    rw [List.getElem?_drop, Nat.add_sub_cancel' notPast] at present
    exact blocked a present)
  rw [advance]
  omega

/-- The place each stop has in the stream, as a number of items before it; a stop may have none. -/
structure Homes (passes : β → α → Bool) (items : List α) (stops : List β) (home : β → Option ℕ) :
    Prop where
  ordered : stops.Pairwise fun first second =>
    ∀ m n, home first = some m → home second = some n → m ≤ n
  early : ∀ stop ∈ stops, ∀ m, home stop = some m → ∀ a ∈ items.take m, passes stop a = true
  homeless : ∀ first ∈ stops, home first = none → ∀ second ∈ stops, (home second).isSome →
    ∀ a, passes first a = true → passes second a = true

variable {home : β → Option ℕ} {items : List α} {stops : List β}

theorem Homes.tail {stop : β} (homes : Homes passes items (stop :: stops) home) :
    Homes passes items stops home where
  ordered := (List.pairwise_cons.mp homes.ordered).2
  early other member := homes.early other (List.mem_cons_of_mem _ member)
  homeless first firstMem own second secondMem :=
    homes.homeless first (List.mem_cons_of_mem _ firstMem) own second
      (List.mem_cons_of_mem _ secondMem)

/-- Each stop with a place has the item at that place, if there is one, blocked. -/
def Blocked (passes : β → α → Bool) (items : List α) (stops : List β) (home : β → Option ℕ) :
    Prop :=
  ∀ stop ∈ stops, ∀ m, home stop = some m → ∀ a, items[m]? = some a → passes stop a = false

private theorem remaining_within {earlier later : List β} {stop : β} (cursor : ℕ) {place : ℕ}
    (homes : Homes passes items (earlier ++ stop :: later) home)
    (blocked : Blocked passes items (earlier ++ stop :: later) home)
    (behind : ∀ other ∈ earlier ++ stop :: later, ∀ m, home other = some m → cursor ≤ m)
    (own : home stop = some place) :
    ∃ next ≤ place, remaining passes (items.drop cursor) (earlier ++ [stop]) = items.drop next := by
  induction earlier generalizing cursor with
  | nil =>
    refine ⟨advance (passes stop) items cursor, ?_, dropWhile_drop (passes stop) items cursor⟩
    exact advance_le (behind stop List.mem_cons_self place own)
      (blocked stop List.mem_cons_self place own)
  | cons first earlier ih =>
    have firstMem : first ∈ first :: (earlier ++ stop :: later) := List.mem_cons_self
    have within : ∀ other ∈ earlier ++ stop :: later, ∀ m, home other = some m →
        advance (passes first) items cursor ≤ m := by
      intro other member m homeOther
      have otherMem : other ∈ first :: (earlier ++ stop :: later) := List.mem_cons_of_mem _ member
      cases homeFirst : home first with
      | some n =>
        -- A placed stop holds the cursor at its own place, which is no later than the next one.
        have held : advance (passes first) items cursor ≤ n :=
          advance_le (behind first firstMem n homeFirst) (blocked first firstMem n homeFirst)
        have order := (List.pairwise_cons.mp homes.ordered).1 other member n m homeFirst homeOther
        omega
      | none =>
        -- What an unplaced stop lets pass, the later stop lets pass too; so its own block holds.
        refine advance_le (behind other otherMem m homeOther) fun a present => ?_
        have closed := blocked other otherMem m homeOther a present
        by_contra opened
        have passed := homes.homeless first firstMem homeFirst other otherMem
          (by simp [homeOther]) a (by simpa using opened)
        rw [closed] at passed
        contradiction
    have tail := ih _ homes.tail (fun other member => blocked other (List.mem_cons_of_mem _ member))
      within
    simpa [remaining, dropWhile_drop] using tail

/-- The cursor stays within the place of every stop exactly when the item at each stop's place is
blocked by that stop. -/
theorem never_ahead_iff (homes : Homes passes items stops home) :
    (∀ before stop after m, merge passes items stops = before ++ .inr stop :: after →
        home stop = some m → (lefts before).length ≤ m) ↔
      Blocked passes items stops home := by
  constructor
  · intro within stop member m own a present
    by_contra opened
    obtain ⟨before, after, split⟩ := @exists_split _ _ passes items _ _ member
    have inside : m < items.length := (List.getElem?_eq_some_iff.mp present).1
    have passAll : ∀ b ∈ items.take (m + 1), passes stop b = true := by
      intro b taken
      rw [List.take_add_one, present] at taken
      rcases List.mem_append.mp taken with early | last
      · exact homes.early stop member m own b early
      · rw [List.mem_singleton.mp last]
        simpa using opened
    have passed := length_before_ge split (m + 1) passAll
    have bound := within before stop after m split own
    omega
  · intro blocked before stop after m split own
    obtain ⟨earlier, later, rfl, conserved⟩ := split_remaining split
    obtain ⟨next, bound, rest⟩ := remaining_within 0 homes blocked
      (fun _ _ _ _ => Nat.zero_le _) own
    rw [List.drop_zero] at rest
    rw [rest] at conserved
    have total := congrArg List.length conserved
    simp only [List.length_append, List.length_drop] at total
    omega

/-! ## Items between two stops -/

/-- No item stands in front of some stops exactly when each of them blocks the next item. -/
theorem lefts_front_eq_nil_iff (items : List α) (stops : List β) :
    lefts (front passes items stops) = [] ↔
      ∀ item, items.head? = some item → ∀ stop ∈ stops, passes stop item = false := by
  induction stops generalizing items with
  | nil => simp [front, lefts]
  | cons stop stops ih =>
    cases items with
    | nil =>
      have rest := (ih []).mpr (by simp)
      simpa [front] using rest
    | cons item items =>
      cases pass : passes stop item with
      | true => simp [front, pass]
      | false =>
        have rest := ih (item :: items)
        simpa [front, pass] using rest

/-- Two stops of a kind have an item between them wherever they occur exactly when the next item
behind the first is one that the second, or a stop between the two, lets pass. -/
theorem parted_iff (kind : β → List β → β → Prop) (items : List α) (stops : List β) :
    (∀ before first between second after,
        merge passes items stops = before ++ .inr first :: (between ++ .inr second :: after) →
          kind first (rights between) second → lefts between ≠ []) ↔
      ∀ earlier first middle second later,
        stops = earlier ++ first :: (middle ++ second :: later) → kind first middle second →
          ∃ item, (remaining passes items (earlier ++ [first])).head? = some item ∧
            ∃ stop ∈ middle ++ [second], passes stop item = true := by
  constructor
  · intro parted earlier first middle second later place meets
    obtain ⟨before, upToFirst⟩ := @front_concat _ _ passes items earlier first
    obtain ⟨between, upToSecond⟩ :=
      @front_concat _ _ passes (remaining passes items (earlier ++ [first])) middle second
    have same : rights between = middle := by
      have stops := congrArg rights upToSecond
      rw [rights_front] at stops
      simpa [rights] using stops.symm
    have apart := parted before first between second
      (merge passes (remaining passes (remaining passes items (earlier ++ [first]))
        (middle ++ [second])) later) (by
        calc merge passes items stops
            = merge passes items ((earlier ++ [first]) ++ ((middle ++ [second]) ++ later)) := by
              simp [place]
          _ = _ := by
              rw [merge_append, merge_append, upToFirst, upToSecond]
              simp) (by rwa [same])
    have passed : lefts between = lefts (between ++ [.inr second]) := by simp [lefts]
    by_contra blocked
    push Not at blocked
    refine apart ?_
    rw [passed, ← upToSecond, lefts_front_eq_nil_iff]
    intro item next stop member
    simpa using blocked item next stop member
  · intro parted before first between second after split meets empty
    obtain ⟨earlier, rest, place, -, behind⟩ := split_merge split
    obtain ⟨middle, later, rfl, upToSecond, -⟩ := split_merge behind.symm
    have same : rights between = middle := by
      have stops := congrArg rights upToSecond
      rw [rights_front] at stops
      simpa [rights] using stops
    obtain ⟨item, next, stop, member, pass⟩ :=
      parted earlier first middle second later place (by rwa [← same])
    have passed : lefts between = lefts (between ++ [.inr second]) := by simp [lefts]
    rw [passed, upToSecond, lefts_front_eq_nil_iff] at empty
    rw [empty item next stop member] at pass
    contradiction

/-- A stop that holds the cursor leaves the stream at its own place. -/
theorem remaining_eq_drop {earlier later : List β} {stop : β} {place : ℕ}
    (homes : Homes passes items stops home) (blocked : Blocked passes items stops home)
    (cut : stops = earlier ++ stop :: later) (own : home stop = some place)
    (inside : place ≤ items.length) :
    remaining passes items (earlier ++ [stop]) = items.drop place := by
  subst cut
  obtain ⟨next, bound, rest⟩ := remaining_within 0 homes blocked (fun _ _ _ _ => Nat.zero_le _) own
  rw [List.drop_zero] at rest
  have passed := dropWhile_length_le (items.drop place) (remaining passes items earlier)
    (homes.early stop (by simp) place own)
    (by rw [List.take_append_drop]; exact remaining_suffix items earlier)
  have step : remaining passes items (earlier ++ [stop]) =
      (remaining passes items earlier).dropWhile (passes stop) := by simp [remaining]
  rw [← step, rest] at passed
  simp only [List.length_drop] at passed
  have same : next = place := by omega
  rw [rest, same]

private theorem mem_of_between {earlier middle later : List β} {first second stop : β}
    (cut : stops = earlier ++ first :: (middle ++ second :: later))
    (between : stop ∈ middle ++ [second]) : stop ∈ stops := by
  rw [cut]
  rcases List.mem_append.mp between with inMiddle | last
  · simp [inMiddle]
  · simp [List.mem_singleton.mp last]

/-- The place of a stop behind the first and no later than the second lies between theirs. -/
private theorem place_between {earlier middle later : List β} {first second stop : β} {m k n : ℕ}
    (homes : Homes passes items stops home)
    (cut : stops = earlier ++ first :: (middle ++ second :: later))
    (homeFirst : home first = some m) (homeSecond : home second = some n)
    (between : stop ∈ middle ++ [second]) (own : home stop = some k) : m ≤ k ∧ k ≤ n := by
  have apart := homes.ordered
  rw [cut] at apart
  obtain ⟨fromFirst, behind⟩ := List.pairwise_cons.mp (List.pairwise_append.mp apart).2.1
  rcases List.mem_append.mp between with inMiddle | last
  · refine ⟨fromFirst stop (by simp [inMiddle]) m k homeFirst own, ?_⟩
    exact (List.pairwise_append.mp behind).2.2 stop inMiddle second List.mem_cons_self k n own
      homeSecond
  · obtain rfl := List.mem_singleton.mp last
    rw [homeSecond] at own
    obtain rfl := Option.some.inj own
    exact ⟨fromFirst stop (by simp) m n homeFirst homeSecond, Nat.le_refl n⟩

/-- Between two stops with one place every stop blocks the item at that place. -/
private theorem blocked_between {earlier middle later : List β} {first second stop : β} {m : ℕ}
    {item : α} (homes : Homes passes items stops home) (blocked : Blocked passes items stops home)
    (cut : stops = earlier ++ first :: (middle ++ second :: later))
    (homeFirst : home first = some m) (homeSecond : home second = some m)
    (between : stop ∈ middle ++ [second]) (next : items[m]? = some item) :
    passes stop item = false := by
  have member := mem_of_between cut between
  have secondMem : second ∈ stops := mem_of_between cut (by simp)
  cases own : home stop with
  | some k =>
    obtain ⟨fromBelow, fromAbove⟩ := place_between homes cut homeFirst homeSecond between own
    obtain rfl : k = m := by omega
    exact blocked stop member k own item next
  | none =>
    -- What a stop without a place lets pass, the second one lets pass too.
    by_contra opened
    have passed := homes.homeless stop member own second secondMem (by simp [homeSecond]) item
      (by simpa using opened)
    rw [blocked second secondMem m homeSecond item next] at passed
    contradiction

/-- Where the stops hold the cursor, the next item behind one stop passes before another exactly
when the places of the two differ. -/
theorem next_passes_iff {earlier middle later : List β} {first second : β} {m n : ℕ}
    (homes : Homes passes items stops home) (blocked : Blocked passes items stops home)
    (cut : stops = earlier ++ first :: (middle ++ second :: later))
    (homeFirst : home first = some m) (homeSecond : home second = some n)
    (inside : n ≤ items.length) :
    (∃ item, (remaining passes items (earlier ++ [first])).head? = some item ∧
        ∃ stop ∈ middle ++ [second], passes stop item = true) ↔ m < n := by
  have order := (place_between homes cut homeFirst homeSecond (by simp) homeSecond).1
  rw [remaining_eq_drop homes blocked cut homeFirst (by omega), List.head?_drop]
  constructor
  · rintro ⟨item, next, stop, between, pass⟩
    by_contra notBelow
    obtain rfl : n = m := by omega
    rw [blocked_between homes blocked cut homeFirst homeSecond between next] at pass
    contradiction
  · intro below
    have present : items[m]? = some items[m] := List.getElem?_eq_getElem (by omega)
    refine ⟨_, present, second, by simp, ?_⟩
    apply homes.early second (mem_of_between cut (by simp)) n homeSecond
    rw [List.mem_take_iff_getElem]
    exact ⟨m, by omega, rfl⟩

/-! ## Merging what was taken apart -/

@[simp] theorem rights_cons_inl (item : α) (rest : List (α ⊕ β)) :
    rights (.inl item :: rest) = rights rest := rfl

/-- The items and the stops of a sequence in which every stop lets the items in front of it pass are
merged back into the sequence exactly when no stop lets the next item behind it pass. -/
theorem merge_eq_self_iff {whole : List (α ⊕ β)}
    (early : ∀ before stop after, whole = before ++ .inr stop :: after →
      ∀ item ∈ lefts before, passes stop item = true) :
    merge passes (lefts whole) (rights whole) = whole ↔
      ∀ before stop after, whole = before ++ .inr stop :: after →
        ∀ item ∈ (lefts after).head?, passes stop item = false := by
  induction whole with
  | nil => simp [lefts, rights, merge]
  | cons first rest ih =>
    have earlyRest : ∀ before stop after, rest = before ++ .inr stop :: after →
        ∀ item ∈ lefts before, passes stop item = true := by
      intro before stop after split item member
      refine early (first :: before) stop after (by rw [split, List.cons_append]) item ?_
      cases first with
      | inl item => exact List.mem_cons_of_mem _ member
      | inr stop => exact member
    have ih := ih earlyRest
    cases first with
    | inl item =>
      have head : merge passes (item :: lefts rest) (rights rest) =
          .inl item :: merge passes (lefts rest) (rights rest) := by
        cases stops : rights rest with
        | nil => rfl
        | cons stop stops =>
          -- The first stop lets the item pass.
          obtain ⟨before, after, split⟩ : ∃ before after, rest = before ++ .inr stop :: after := by
            have member : stop ∈ rights rest := by simp [stops]
            obtain ⟨piece, inRest, own⟩ := List.mem_filterMap.mp member
            obtain ⟨before, after, split⟩ := List.append_of_mem inRest
            cases piece with
            | inl item => cases own
            | inr other =>
              rw [← Option.some.inj own]
              exact ⟨before, after, split⟩
          have passed : passes stop item = true :=
            early (.inl item :: before) stop after (by rw [split, List.cons_append]) item
              (by simp)
          simp [merge, passed]
      rw [lefts_cons_inl, rights_cons_inl, head, List.cons_inj_right, ih]
      constructor
      · intro blocked before stop after split
        cases before with
        | nil => cases (List.cons.inj split).1
        | cons other before =>
          rw [List.cons_append] at split
          exact blocked before stop after (List.cons.inj split).2
      · intro blocked before stop after split
        exact blocked (.inl item :: before) stop after (by rw [split, List.cons_append])
    | inr stop =>
      rw [lefts_cons_inr, rights_cons_inr, merge]
      by_cases blocked : ∀ item ∈ (lefts rest).head?, passes stop item = false
      · have kept : (lefts rest).takeWhile (passes stop) = [] ∧
            (lefts rest).dropWhile (passes stop) = lefts rest := by
          cases next : lefts rest with
          | nil => exact ⟨rfl, rfl⟩
          | cons item items =>
            have held := blocked item (by rw [next]; rfl)
            simp [held]
        rw [kept.1, kept.2, List.map_nil, List.nil_append, List.cons_inj_right, ih]
        constructor
        · intro held before other after split
          cases before with
          | nil =>
            rw [List.nil_append] at split
            obtain ⟨same, rfl⟩ := List.cons.inj split
            rw [← Sum.inr.inj same]
            exact blocked
          | cons piece before =>
            rw [List.cons_append] at split
            exact held before other after (List.cons.inj split).2
        · intro held before other after split
          exact held (.inr stop :: before) other after (by rw [split, List.cons_append])
      · refine iff_of_false (fun merged => ?_) fun held => blocked (held [] stop rest rfl)
        simp only [not_forall, Bool.not_eq_false] at blocked
        obtain ⟨item, next, passed⟩ := blocked
        cases items : lefts rest with
        | nil => rw [items] at next; cases next
        | cons first others =>
          rw [items, List.head?_cons, Option.mem_def] at next
          obtain rfl := Option.some.inj next
          rw [items, List.takeWhile_cons, if_pos passed] at merged
          cases (List.cons.inj merged).1

end CursorMerge
