import Mathlib.Data.List.Induction
import Mathlib.Data.List.TakeWhile

/-! # Reading operators by precedence

A left-to-right reader of operands and operators. It keeps a stack of operators whose right operand
is not complete; an operator that comes first completes those of at least its own rank. The text in
front of an operator that stands behind its operand is that operand as a whole exactly when nothing
is left on the stack.
-/

namespace OperatorPrecedence

variable {α ω : Type*}

inductive Fixity where
  | before
  | between
  | behind
deriving DecidableEq

inductive Item (α ω : Type*) where
  | operand (a : α)
  | operator (o : ω)

inductive Expr (α ω : Type*) where
  | operand (a : α)
  | before (o : ω) (operand : Expr α ω)
  | between (left : Expr α ω) (o : ω) (right : Expr α ω)
  | behind (operand : Expr α ω) (o : ω)

/-- The items of an expression, from left to right. -/
def Expr.items : Expr α ω → List (Item α ω)
  | operand a => [.operand a]
  | before o e => .operator o :: e.items
  | between left o right => left.items ++ .operator o :: right.items
  | behind e o => e.items ++ [.operator o]

/-- An operator whose right operand is not complete, with its left operand if it has one. -/
structure Frame (α ω : Type*) where
  rank : ℕ
  left : Option (Expr α ω)
  operator : ω

namespace Frame

def fill (frame : Frame α ω) (right : Expr α ω) : Expr α ω :=
  match frame.left with
  | none => .before frame.operator right
  | some left => .between left frame.operator right

def items (frame : Frame α ω) : List (Item α ω) :=
  frame.left.elim [] Expr.items ++ [.operator frame.operator]

theorem fill_items (frame : Frame α ω) (right : Expr α ω) :
    (frame.fill right).items = frame.items ++ right.items := by
  obtain ⟨rank, left, operator⟩ := frame
  cases left with
  | none => rfl
  | some left => simp [fill, items, Expr.items]

/-- What a frame makes does not end in its operator. -/
theorem fill_ne_behind (frame : Frame α ω) (right e : Expr α ω) (o : ω) :
    frame.fill right ≠ .behind e o := by
  obtain ⟨rank, left, operator⟩ := frame
  cases left <;> simp [fill]

end Frame

/-- The stack, innermost first, and the operand behind it when that has been read. -/
structure State (α ω : Type*) where
  frames : List (Frame α ω)
  current : Option (Expr α ω)

/-- Complete the operators of at least some rank. -/
def reduce (rank : ℕ) : List (Frame α ω) → Expr α ω → List (Frame α ω) × Expr α ω
  | [], e => ([], e)
  | frame :: frames, e =>
    if rank ≤ frame.rank then reduce rank frames (frame.fill e) else (frame :: frames, e)

section Reader

variable (table : ω → Option (Fixity × ℕ))

/-- One item; an operator has to stand where its fixity says. -/
def step (state : State α ω) : Item α ω → Option (State α ω)
  | .operand a =>
    match state.current with
    | none => some ⟨state.frames, some (.operand a)⟩
    | some _ => none
  | .operator o =>
    match state.current, table o with
    | none, some (.before, rank) => some ⟨⟨rank, none, o⟩ :: state.frames, none⟩
    | some e, some (.between, rank) =>
      let (frames, left) := reduce rank state.frames e
      some ⟨⟨rank, some left, o⟩ :: frames, none⟩
    | some e, some (.behind, rank) =>
      let (frames, operand) := reduce rank state.frames e
      some ⟨frames, some (.behind operand o)⟩
    | _, _ => none

def run (state : State α ω) (items : List (Item α ω)) : Option (State α ω) :=
  items.foldlM (step table) state

def parse (items : List (Item α ω)) : Option (Expr α ω) :=
  (run table ⟨[], none⟩ items).bind fun state =>
    state.current.map fun e => (reduce 0 state.frames e).2

end Reader

variable {table : ω → Option (Fixity × ℕ)}

/-! ## The items are kept -/

def framesItems (frames : List (Frame α ω)) : List (Item α ω) :=
  frames.reverse.flatMap Frame.items

def State.items (state : State α ω) : List (Item α ω) :=
  framesItems state.frames ++ state.current.elim [] Expr.items

theorem framesItems_cons (frame : Frame α ω) (frames : List (Frame α ω)) :
    framesItems (frame :: frames) = framesItems frames ++ frame.items := by
  simp [framesItems]

theorem reduce_items (rank : ℕ) (frames : List (Frame α ω)) (e : Expr α ω) :
    framesItems (reduce rank frames e).1 ++ (reduce rank frames e).2.items =
      framesItems frames ++ e.items := by
  induction frames generalizing e with
  | nil => rfl
  | cons frame frames ih =>
    rw [reduce]
    by_cases complete : rank ≤ frame.rank
    · rw [if_pos complete, ih, framesItems_cons, frame.fill_items, List.append_assoc]
    · rw [if_neg complete]

theorem reduce_frames (rank : ℕ) (frames : List (Frame α ω)) (e : Expr α ω) :
    (reduce rank frames e).1 = frames.dropWhile fun frame => decide (rank ≤ frame.rank) := by
  induction frames generalizing e with
  | nil => rfl
  | cons frame frames ih =>
    rw [reduce]
    by_cases complete : rank ≤ frame.rank
    · rw [if_pos complete, ih, List.dropWhile_cons_of_pos (by simpa using complete)]
    · rw [if_neg complete, List.dropWhile_cons_of_neg (by simpa using complete)]

/-- An operator that binds tighter than the stack completes nothing. -/
theorem reduce_of_looser {rank : ℕ} {frames : List (Frame α ω)} (e : Expr α ω)
    (looser : ∀ frame ∈ frames, frame.rank < rank) : reduce rank frames e = (frames, e) := by
  cases frames with
  | nil => rfl
  | cons frame frames =>
    rw [reduce, if_neg (by have := looser frame List.mem_cons_self; omega)]

/-- The whole stack is completed at the end; what comes out ends in an operator behind its operand
only if there was none. -/
theorem reduce_zero_ne_behind {frame : Frame α ω} {frames : List (Frame α ω)} {e e' : Expr α ω}
    {o : ω} : (reduce 0 (frame :: frames) e).2 ≠ .behind e' o := by
  induction frames generalizing frame e with
  | nil => exact frame.fill_ne_behind e e' o
  | cons next frames ih => exact ih

/-! ## What one item does -/

/-- Every way in which an item can be read. -/
theorem step_cases {state state' : State α ω} {item : Item α ω}
    (read : step table state item = some state') :
    (∃ a, item = .operand a ∧ state.current = none ∧
      state' = ⟨state.frames, some (.operand a)⟩) ∨
    (∃ o rank, item = .operator o ∧ state.current = none ∧ table o = some (.before, rank) ∧
      state' = ⟨⟨rank, none, o⟩ :: state.frames, none⟩) ∨
    (∃ o rank e, item = .operator o ∧ state.current = some e ∧ table o = some (.between, rank) ∧
      state' = ⟨⟨rank, some (reduce rank state.frames e).2, o⟩ :: (reduce rank state.frames e).1,
        none⟩) ∨
    (∃ o rank e, item = .operator o ∧ state.current = some e ∧ table o = some (.behind, rank) ∧
      state' = ⟨(reduce rank state.frames e).1,
        some (.behind (reduce rank state.frames e).2 o)⟩) := by
  obtain ⟨frames, current⟩ := state
  cases item with
  | operand a =>
    cases current with
    | none => exact .inl ⟨a, rfl, rfl, (Option.some.inj read).symm⟩
    | some e => cases read
  | operator o =>
    rcases known : table o with - | ⟨fixity, rank⟩
    · cases current <;> simp [step, known] at read
    · cases current with
      | none =>
        cases fixity with
        | before =>
          simp only [step, known, Option.some.injEq] at read
          exact .inr (.inl ⟨o, rank, rfl, rfl, known, read.symm⟩)
        | between => simp [step, known] at read
        | behind => simp [step, known] at read
      | some e =>
        cases fixity with
        | before => simp [step, known] at read
        | between =>
          simp only [step, known, Option.some.injEq] at read
          exact .inr (.inr (.inl ⟨o, rank, e, rfl, rfl, known, read.symm⟩))
        | behind =>
          simp only [step, known, Option.some.injEq] at read
          exact .inr (.inr (.inr ⟨o, rank, e, rfl, rfl, known, read.symm⟩))

theorem step_items {state state' : State α ω} {item : Item α ω}
    (read : step table state item = some state') : state'.items = state.items ++ [item] := by
  obtain ⟨frames, current⟩ := state
  rcases step_cases read with ⟨a, rfl, rfl, rfl⟩ | ⟨o, rank, rfl, rfl, -, rfl⟩ |
    ⟨o, rank, e, rfl, rfl, -, rfl⟩ | ⟨o, rank, e, rfl, rfl, -, rfl⟩
  · simp [State.items, Expr.items]
  · simp [State.items, framesItems_cons, Frame.items]
  · have kept := reduce_items rank frames e
    simp only [State.items, framesItems_cons, Frame.items, Option.elim, List.append_nil,
      ← List.append_assoc, kept]
  · have kept := reduce_items rank frames e
    simp only [State.items, Expr.items, Option.elim, ← List.append_assoc, kept]

theorem run_snoc (state : State α ω) (items : List (Item α ω)) (item : Item α ω) :
    run table state (items ++ [item]) = (run table state items).bind (step table · item) := by
  simp [run, List.foldlM_append, Option.bind_eq_bind]

theorem run_append (state : State α ω) (first second : List (Item α ω)) :
    run table state (first ++ second) =
      (run table state first).bind (run table · second) := by
  simp [run, List.foldlM_append, Option.bind_eq_bind]

theorem run_items {state state' : State α ω} {items : List (Item α ω)}
    (read : run table state items = some state') : state'.items = state.items ++ items := by
  induction items using List.reverseRecOn generalizing state' with
  | nil =>
    cases read
    rw [List.append_nil]
  | append_singleton items item ih =>
    rw [run_snoc, Option.bind_eq_some_iff] at read
    obtain ⟨between, front, last⟩ := read
    rw [step_items last, ih front, List.append_assoc]

/-- An expression has the items it was read from. -/
theorem parse_items {items : List (Item α ω)} {e : Expr α ω} (read : parse table items = some e) :
    e.items = items := by
  obtain ⟨⟨frames, current⟩, front, complete⟩ := Option.bind_eq_some_iff.mp read
  obtain ⟨operand, rfl, rfl⟩ := Option.map_eq_some_iff.mp complete
  have nothing : (reduce 0 frames operand).1 = [] := by
    rw [reduce_frames, List.dropWhile_eq_nil_iff]
    simp
  have kept := reduce_items 0 frames operand
  rw [nothing] at kept
  exact kept.trans (run_items front)

/-! ## Items that are read -/

/-- The items are read where an operand is expected, and an expression is complete behind them. -/
def Readable (table : ω → Option (Fixity × ℕ)) (items : List (Item α ω)) : Prop :=
  ∀ frames, ∃ frames' e, run table ⟨frames, none⟩ items = some ⟨frames', some e⟩

theorem readable_operand (a : α) : Readable table [.operand a] :=
  fun frames => ⟨frames, .operand a, rfl⟩

theorem Readable.before {items : List (Item α ω)} (readable : Readable table items) {o : ω}
    {rank : ℕ} (known : table o = some (.before, rank)) :
    Readable table (.operator o :: items) := by
  intro frames
  obtain ⟨frames', e, read⟩ := readable (⟨rank, none, o⟩ :: frames)
  refine ⟨frames', e, ?_⟩
  rw [← List.singleton_append, run_append]
  simpa [run, step, known] using read

theorem Readable.between {left right : List (Item α ω)} (readLeft : Readable table left)
    (readRight : Readable table right) {o : ω} {rank : ℕ}
    (known : table o = some (.between, rank)) :
    Readable table (left ++ .operator o :: right) := by
  intro frames
  obtain ⟨frames', e, read⟩ := readLeft frames
  obtain ⟨frames'', e', read'⟩ :=
    readRight (⟨rank, some (reduce rank frames' e).2, o⟩ :: (reduce rank frames' e).1)
  refine ⟨frames'', e', ?_⟩
  rw [run_append, read, Option.bind_some, ← List.singleton_append, run_append]
  simpa [run, step, known] using read'

theorem Readable.behind {items : List (Item α ω)} (readable : Readable table items) {o : ω}
    {rank : ℕ} (known : table o = some (.behind, rank)) :
    Readable table (items ++ [.operator o]) := by
  intro frames
  obtain ⟨frames', e, read⟩ := readable frames
  refine ⟨(reduce rank frames' e).1, .behind (reduce rank frames' e).2 o, ?_⟩
  rw [run_append, read, Option.bind_some]
  simp [run, step, known]

/-! ## What is left on the stack -/

def Item.operator? : Item α ω → Option ω
  | operand _ => none
  | operator o => some o

def operators (items : List (Item α ω)) : List ω :=
  items.filterMap Item.operator?

@[simp] theorem operators_append (first second : List (Item α ω)) :
    operators (first ++ second) = operators first ++ operators second :=
  List.filterMap_append

@[simp] theorem operators_nil : operators ([] : List (Item α ω)) = [] := rfl

@[simp] theorem operators_operand (a : α) (rest : List (Item α ω)) :
    operators (.operand a :: rest) = operators rest := rfl

@[simp] theorem operators_operator (o : ω) (rest : List (Item α ω)) :
    operators (.operator o :: rest) = o :: operators rest := rfl

/-- Only operators of the table are read. -/
theorem known_of_run {items : List (Item α ω)} {state : State α ω}
    (read : run table ⟨[], none⟩ items = some state) :
    ∀ o ∈ operators items, ∃ fixity rank, table o = some (fixity, rank) := by
  induction items using List.reverseRecOn generalizing state with
  | nil => simp
  | append_singleton items item ih =>
    rw [run_snoc, Option.bind_eq_some_iff] at read
    obtain ⟨between, front, last⟩ := read
    rw [operators_append, List.forall_mem_append]
    refine ⟨ih front, ?_⟩
    rcases step_cases last with ⟨a, rfl, -, -⟩ | ⟨o, rank, rfl, -, known, -⟩ |
      ⟨o, rank, e, rfl, -, known, -⟩ | ⟨o, rank, e, rfl, -, known, -⟩
    · simp
    · simp [known]
    · simp [known]
    · simp [known]

/-- A frame has the rank of an operator that has been read. -/
theorem rank_of_mem_frames {items : List (Item α ω)} {state : State α ω}
    (read : run table ⟨[], none⟩ items = some state) {frame : Frame α ω}
    (member : frame ∈ state.frames) :
    ∃ o ∈ operators items, ∃ fixity, table o = some (fixity, frame.rank) := by
  induction items using List.reverseRecOn generalizing state with
  | nil =>
    cases read
    cases member
  | append_singleton items item ih =>
    rw [run_snoc, Option.bind_eq_some_iff] at read
    obtain ⟨⟨frames, current⟩, front, last⟩ := read
    have older (present : frame ∈ frames) :
        ∃ o ∈ operators (items ++ [item]), ∃ fixity, table o = some (fixity, frame.rank) := by
      obtain ⟨o, own, known⟩ := ih front present
      exact ⟨o, by simp [own], known⟩
    have kept {rank : ℕ} {e : Expr α ω} (present : frame ∈ (reduce rank frames e).1) :
        frame ∈ frames := by
      rw [reduce_frames] at present
      exact (List.dropWhile_sublist _).subset present
    rcases step_cases last with ⟨a, rfl, rfl, rfl⟩ | ⟨o, rank, rfl, rfl, known, rfl⟩ |
      ⟨o, rank, e, rfl, rfl, known, rfl⟩ | ⟨o, rank, e, rfl, rfl, known, rfl⟩
    · exact older member
    · rcases List.mem_cons.mp member with rfl | present
      · exact ⟨o, by simp, .before, known⟩
      · exact older present
    · rcases List.mem_cons.mp member with rfl | present
      · exact ⟨o, by simp, .between, known⟩
      · exact older (kept present)
    · exact older (kept member)

section OneRank

variable {rank : ℕ}

/-- Some operator on the stack is looser than `rank`. -/
def Loose (rank : ℕ) (frames : List (Frame α ω)) : Prop :=
  ∃ frame ∈ frames, frame.rank < rank

theorem loose_cons {frame : Frame α ω} {frames : List (Frame α ω)} :
    Loose rank (frame :: frames) ↔ frame.rank < rank ∨ Loose rank frames := by
  simp [Loose]

/-- An operator that is no looser than the rest completes no loose one. -/
theorem loose_reduce {own : ℕ} {frames : List (Frame α ω)} {e : Expr α ω} :
    own < rank ∨ Loose rank (reduce own frames e).1 ↔ own < rank ∨ Loose rank frames := by
  induction frames generalizing e with
  | nil => rfl
  | cons frame frames ih =>
    rw [reduce]
    by_cases complete : own ≤ frame.rank
    · rw [if_pos complete, ih, loose_cons]
      constructor
      · rintro (loose | loose)
        · exact .inl loose
        · exact .inr (.inr loose)
      · rintro (loose | loose | loose)
        · exact .inl loose
        · exact .inl (by omega)
        · exact .inr loose
    · rw [if_neg complete]

/-- Something looser than the operators behind their operand is never completed by them, and
otherwise only by something that is as loose. -/
theorem loose_iff {items : List (Item α ω)} {state : State α ω}
    (read : run table ⟨[], none⟩ items = some state)
    (behind : ∀ o ∈ operators items, ∀ own, table o = some (.behind, own) → own = rank) :
    Loose rank state.frames ↔
      ∃ o ∈ operators items, ∃ fixity own, table o = some (fixity, own) ∧ own < rank := by
  induction items using List.reverseRecOn generalizing state with
  | nil =>
    cases read
    simp [Loose, operators]
  | append_singleton items item ih =>
    rw [run_snoc, Option.bind_eq_some_iff] at read
    obtain ⟨⟨frames, current⟩, front, last⟩ := read
    have before := ih front fun o own => behind o (by simp [own])
    rcases step_cases last with ⟨a, rfl, rfl, rfl⟩ | ⟨o, own, rfl, rfl, known, rfl⟩ |
      ⟨o, own, e, rfl, rfl, known, rfl⟩ | ⟨o, own, e, rfl, rfl, known, rfl⟩
    · simpa using before
    · rw [loose_cons, before]
      simp [or_and_right, exists_or, known, or_comm]
    · rw [loose_cons, loose_reduce, before]
      simp [or_and_right, exists_or, known, or_comm]
    · have same := behind o (by simp) own known
      subst same
      have kept := @loose_reduce _ _ own own frames e
      simp only [Nat.lt_irrefl, false_or] at kept
      rw [kept, before]
      simp [or_and_right, exists_or, known]

/-- When nothing is looser, an operator behind its operand completes everything. -/
theorem frames_eq_nil_of_tight {items : List (Item α ω)} {state : State α ω}
    (read : run table ⟨[], none⟩ items = some state)
    (behind : ∀ o ∈ operators items, ∀ own, table o = some (.behind, own) → own = rank)
    (tight : ∀ o ∈ operators items, ∀ fixity own, table o = some (fixity, own) → rank ≤ own) :
    state.frames = [] ↔
      ∀ o ∈ (operators items).getLast?, ∃ own, table o = some (.behind, own) := by
  induction items using List.reverseRecOn generalizing state with
  | nil =>
    cases read
    simp [operators]
  | append_singleton items item ih =>
    rw [run_snoc, Option.bind_eq_some_iff] at read
    obtain ⟨⟨frames, current⟩, front, last⟩ := read
    have before := ih front (fun o own => behind o (by simp [own]))
      fun o own => tight o (by simp [own])
    rcases step_cases last with ⟨a, rfl, rfl, rfl⟩ | ⟨o, own, rfl, rfl, known, rfl⟩ |
      ⟨o, own, e, rfl, rfl, known, rfl⟩ | ⟨o, own, e, rfl, rfl, known, rfl⟩
    · simpa using before
    · simp [known]
    · simp [known]
    · have all : ∀ frame ∈ frames, own ≤ frame.rank := by
        intro frame member
        obtain ⟨o', present, fixity, known'⟩ := rank_of_mem_frames front member
        have same := behind o (by simp) own known
        have above := tight o' (by simp [present]) fixity _ known'
        omega
      have nothing : (reduce own frames e).1 = [] := by
        rw [reduce_frames, List.dropWhile_eq_nil_iff]
        simpa using all
      simp [nothing, known]

/-- Nothing is left on the stack exactly when no operator is looser than those behind their operand
and the last one is one of these. -/
theorem frames_eq_nil_iff {items : List (Item α ω)} {state : State α ω}
    (read : run table ⟨[], none⟩ items = some state)
    (behind : ∀ o ∈ operators items, ∀ own, table o = some (.behind, own) → own = rank) :
    state.frames = [] ↔
      (∀ o ∈ operators items, ∀ fixity own, table o = some (fixity, own) → rank ≤ own) ∧
      ∀ o ∈ (operators items).getLast?, ∃ own, table o = some (.behind, own) := by
  constructor
  · intro nothing
    have tight : ∀ o ∈ operators items, ∀ fixity own, table o = some (fixity, own) →
        rank ≤ own := by
      intro o member fixity own known
      by_contra loose
      obtain ⟨frame, left, -⟩ :=
        (loose_iff read behind).mpr ⟨o, member, fixity, own, known, by omega⟩
      rw [nothing] at left
      cases left
    exact ⟨tight, (frames_eq_nil_of_tight read behind tight).mp nothing⟩
  · rintro ⟨tight, last⟩
    exact (frames_eq_nil_of_tight read behind tight).mpr last

end OneRank

/-- An operator that binds tightest takes all that stands in front of it as its operand exactly when
nothing is left on the stack there. -/
theorem parse_behind_iff {items : List (Item α ω)} {o : ω} {rank : ℕ}
    (known : table o = some (.behind, rank))
    (tightest : ∀ o' ∈ operators items, ∀ fixity own, table o' = some (fixity, own) → own < rank) :
    (∃ e, parse table (items ++ [.operator o]) = some (.behind e o)) ↔
      ∃ e, run table ⟨[], none⟩ items = some ⟨[], some e⟩ := by
  rw [parse, run_snoc]
  rcases front : run table ⟨[], none⟩ items with - | ⟨frames, current⟩
  · simp
  · cases current with
    | none => simp [step, known]
    | some e =>
      have looser : ∀ frame ∈ frames, frame.rank < rank := by
        intro frame member
        obtain ⟨o', present, fixity, known'⟩ := rank_of_mem_frames front member
        exact tightest o' present fixity _ known'
      simp only [Option.bind_some, step, known, reduce_of_looser e looser, Option.map_some,
        Option.some.injEq]
      cases frames with
      | nil => simp [reduce]
      | cons frame frames =>
        constructor
        · rintro ⟨e', own⟩
          exact absurd own reduce_zero_ne_behind
        · rintro ⟨e', own⟩
          simp at own

end OperatorPrecedence
