import Mathlib.Data.List.Nodup

/-! # Postorder of ordered trees

A node of an ordered tree has an address, the child indices on the way to it. The postorder below a
node lists every node below it once, and a node behind all nodes below it.
-/

/-- A tree whose nodes have labels and ordered children. -/
inductive OrderedTree (α : Type*) where
  | node (label : α) (children : List (OrderedTree α))

namespace OrderedTree

variable {α : Type*}

def label : OrderedTree α → α
  | node label _ => label

def children : OrderedTree α → List (OrderedTree α)
  | node _ children => children

/-- The label at an address. -/
def labelAt : List ℕ → OrderedTree α → Option α
  | [], t => some t.label
  | i :: address, t => t.children[i]?.bind (labelAt address)

mutual

/-- The addresses and labels strictly below a node, in postorder. -/
def postorder : OrderedTree α → List (List ℕ × α)
  | node _ children => postorderFrom 0 children

/-- The same for siblings, of which the first has the given index. -/
def postorderFrom : ℕ → List (OrderedTree α) → List (List ℕ × α)
  | _, [] => []
  | i, child :: rest =>
    ((postorder child).map fun entry => (i :: entry.1, entry.2)) ++
      ([i], child.label) :: postorderFrom (i + 1) rest

end

/-! ## Every node once -/

mutual

/-- The postorder has the nodes below and no others. -/
theorem mem_postorder {t : OrderedTree α} {address : List ℕ} {label : α} :
    (address, label) ∈ t.postorder ↔ address ≠ [] ∧ labelAt address t = some label := by
  cases t with
  | node own children =>
    rw [postorder, mem_postorderFrom]
    constructor
    · rintro ⟨j, rest, rfl, found⟩
      rw [Nat.zero_add]
      exact ⟨List.cons_ne_nil _ _, found⟩
    · rintro ⟨nonempty, found⟩
      cases address with
      | nil => exact absurd rfl nonempty
      | cons j rest => exact ⟨j, rest, by rw [Nat.zero_add], found⟩

theorem mem_postorderFrom {i : ℕ} {trees : List (OrderedTree α)} {address : List ℕ} {label : α} :
    (address, label) ∈ postorderFrom i trees ↔
      ∃ j rest, address = (i + j) :: rest ∧ trees[j]?.bind (labelAt rest) = some label := by
  cases trees with
  | nil => simp [postorderFrom]
  | cons child others =>
    simp only [postorderFrom, List.mem_append, List.mem_map, List.mem_cons, Prod.mk.injEq, Prod.exists]
    rw [mem_postorderFrom]
    constructor
    · rintro (⟨inner, _, member, rfl, rfl⟩ | ⟨rfl, rfl⟩ | ⟨j, rest, rfl, found⟩)
      · exact ⟨0, inner, rfl, (mem_postorder.mp member).2⟩
      · exact ⟨0, [], rfl, rfl⟩
      · exact ⟨j + 1, rest, by rw [Nat.add_right_comm, Nat.add_assoc], by simpa using found⟩
    · rintro ⟨j, rest, rfl, found⟩
      cases j with
      | zero =>
        cases rest with
        | nil => exact .inr (.inl ⟨rfl, (Option.some.inj found).symm⟩)
        | cons k rest =>
          exact .inl ⟨k :: rest, label, mem_postorder.mpr ⟨List.cons_ne_nil _ _, found⟩, rfl, rfl⟩
      | succ j =>
        exact .inr (.inr ⟨j, rest, by rw [Nat.add_right_comm, Nat.add_assoc], by simpa using found⟩)

end

mutual

/-- No node is listed behind itself or behind a node that it lies below. -/
theorem pairwise_postorder (t : OrderedTree α) :
    (t.postorder.map Prod.fst).Pairwise fun first second => ¬ first <+: second := by
  cases t with
  | node own children => exact pairwise_postorderFrom 0 children

theorem pairwise_postorderFrom (i : ℕ) (trees : List (OrderedTree α)) :
    ((postorderFrom i trees).map Prod.fst).Pairwise fun first second => ¬ first <+: second := by
  cases trees with
  | nil => exact List.Pairwise.nil
  | cons child rest =>
    have behind {address : List ℕ} (member : address ∈ (postorderFrom (i + 1) rest).map Prod.fst) :
        ∃ j tail, i < j ∧ address = j :: tail := by
      obtain ⟨entry, own, rfl⟩ := List.mem_map.mp member
      obtain ⟨j, tail, same, -⟩ := mem_postorderFrom.mp (show (entry.1, entry.2) ∈ _ from own)
      exact ⟨i + 1 + j, tail, by omega, same⟩
    have inner : (((postorder child).map fun entry => (i :: entry.1, entry.2)).map Prod.fst).Pairwise
        fun first second => ¬ first <+: second := by
      rw [List.map_map, List.pairwise_map]
      refine (List.pairwise_map.mp (pairwise_postorder child)).imp fun apart isPrefix => ?_
      exact apart (List.cons_prefix_cons.mp isPrefix).2
    rw [postorderFrom, List.map_append, List.map_cons, List.pairwise_append]
    refine ⟨inner, List.pairwise_cons.mpr ⟨?_, pairwise_postorderFrom (i + 1) rest⟩, ?_⟩
    · intro address member isPrefix
      obtain ⟨j, tail, later, rfl⟩ := behind member
      have same := (List.cons_prefix_cons.mp isPrefix).1
      omega
    · intro first firstMember second secondMember isPrefix
      simp only [List.map_map, List.mem_map] at firstMember
      obtain ⟨entry, own, rfl⟩ := firstMember
      have nonempty := (mem_postorder.mp (show (entry.1, entry.2) ∈ _ from own)).1
      rcases List.mem_cons.mp secondMember with rfl | member
      · exact nonempty (List.prefix_nil.mp (List.cons_prefix_cons.mp isPrefix).2)
      · obtain ⟨j, tail, later, rfl⟩ := behind member
        have same := (List.cons_prefix_cons.mp isPrefix).1
        omega

end

/-- A node is listed once. -/
theorem count_postorder {t : OrderedTree α} {address : List ℕ} {label : α}
    (nonempty : address ≠ []) (found : labelAt address t = some label) :
    (t.postorder.map Prod.fst).count address = 1 := by
  have nodup : (t.postorder.map Prod.fst).Nodup := by
    refine (pairwise_postorder t).imp ?_
    intro first second apart same
    exact apart (same ▸ List.prefix_rfl)
  have listed := mem_postorder.mpr ⟨nonempty, found⟩
  exact List.count_eq_one_of_mem nodup (List.mem_map.mpr ⟨_, listed, rfl⟩)

/-- A node is listed behind the nodes below it. -/
theorem mem_before {t : OrderedTree α} {address deeper : List ℕ} {label label' : α}
    {before after : List (List ℕ × α)} (split : t.postorder = before ++ (address, label) :: after)
    (nonempty : deeper ≠ []) (found : labelAt (address ++ deeper) t = some label') :
    (address ++ deeper, label') ∈ before := by
  have member : (address ++ deeper, label') ∈ t.postorder :=
    mem_postorder.mpr ⟨List.append_ne_nil_of_right_ne_nil _ nonempty, found⟩
  have apart := pairwise_postorder t
  rw [split, List.map_append, List.map_cons, List.pairwise_append] at apart
  rw [split] at member
  rcases List.mem_append.mp member with first | rest
  · exact first
  · rcases List.mem_cons.mp rest with same | later
    · have lengths := congrArg (fun entry : List ℕ × α => entry.1.length) same
      have positive := List.length_pos_iff.mpr nonempty
      simp only [List.length_append] at lengths
      omega
    · have behind := (List.pairwise_cons.mp apart.2.1).1 _ (List.mem_map_of_mem later)
      exact absurd (List.prefix_append address deeper) behind

end OrderedTree
