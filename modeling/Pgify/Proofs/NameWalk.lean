import Pgify.Model.CreateTableTree
import Pgify.Model.Names
import Pgify.Model.Printer

/-! # One token on its way through the walk

A leaf of the AST stands at its place in the input. What the walk does to a leaf below a node that
holds names is said by its type: FOUND_ROWS is rewritten on its own turn, and DOUBLE in front of a
dot below CREATE TABLE by the pass over its parent. Everything else the workers do leaves the leaf
as it is or deletes it.
-/

namespace Pgify.NameWalk

open Model

/-- The node types below which the grammar has a `sql_identifier`. -/
def holdsNames : TokenType → Bool
  | .invalid | .tSelectStatement | .tWhere | .tCreateTable | .tCreateTableColumnDefault
  | .tCreateTableOnupdate | .tCreateTableFkey | .tShowFrom | .tLockTable | .other _ => true
  | _ => false

def place (token : Token) : ℕ × ℤ :=
  (token.line, token.charPositionInLine)

/-- What the workers keep of every node. -/
def mark (t : Tree) : TokenType × Option (ℕ × ℤ) :=
  (t.getType, t.token.map place)

/-- A node at the place of the leaf is a good leaf below the parent. -/
def Spot (good : Token → Prop) (x : Token) (parent type : TokenType) (t : Tree) : Prop :=
  ∀ own, t.token = some own → place own = place x → type = parent ∧ good own ∧ t.children = []

mutual

/-- Below the node nothing but good leaves stands at the place of the leaf `x`, and only below nodes
of the type `parent`. -/
def Stands (good : Token → Prop) (x : Token) (parent : TokenType) : Tree → Prop
  | .node token children =>
    StandsAll good x parent (Model.Tree.node token children).getType children

def StandsAll (good : Token → Prop) (x : Token) (parent type : TokenType) : List Tree → Prop
  | [] => True
  | child :: rest =>
    (Spot good x parent type child ∧ Stands good x parent child) ∧ StandsAll good x parent type rest

end

/-- Behind the leaf stands a dot. -/
def Dotted (x : Token) (children : List Tree) : Prop :=
  ∀ i child, children[i]? = some child → (mark child).2 = some (place x) →
    ∃ dot, children[i + 1]? = some dot ∧ dot.getType = .dot

mutual

/-- As a child of a CREATE TABLE the leaf is a schema, with its dot. -/
def DottedBelow (x : Token) : Tree → Prop
  | .node token children =>
    ((Model.Tree.node token children).getType = .tCreateTable → Dotted x children) ∧
      DottedAll x children

def DottedAll (x : Token) : List Tree → Prop
  | [] => True
  | child :: rest => DottedBelow x child ∧ DottedAll x rest

end

/-- What the leaf is behind its own turn. -/
def Turned (x z : Token) : Prop :=
  z.type = x.type ∧ (x.type ≠ .kFoundRows → z = x) ∧
    (x.type = .kFoundRows → ∃ rows : ℤ, z.text = s!"{rows} AS \"found_rows()\"")

/-- What the leaf is behind the turn of its parent. -/
def Final (x : Token) (parent : TokenType) (z : Token) : Prop :=
  if x.type = .kDouble ∧ parent = .tCreateTable then
    z.type = x.type ∧ z.text = x.text ++ " PRECISION "
  else Turned x z

variable {good : Token → Prop} {x : Token} {parent type : TokenType}

theorem standsAll_iff {l : List Tree} :
    StandsAll good x parent type l ↔
      ∀ c ∈ l, Spot good x parent type c ∧ Stands good x parent c := by
  induction l with
  | nil => simp [StandsAll]
  | cons child rest ih => simp [StandsAll, ih]

theorem stands_iff {t : Tree} :
    Stands good x parent t ↔
      ∀ c ∈ t.children, Spot good x parent t.getType c ∧ Stands good x parent c := by
  cases t with
  | node token children => rw [Stands, standsAll_iff]; rfl

/-! ## Nodes elsewhere -/

/-- The node does not stand at the place of the leaf. -/
def Away (x : Token) (t : Tree) : Prop :=
  ∀ own, t.token = some own → ¬ place own = place x

theorem Away.spot {t : Tree} (away : Away x t) : Spot good x parent type t :=
  fun own here same => absurd same (away own here)

theorem Away.setText {t : Tree} (away : Away x t) (text : String) : Away x (t.setText text) := by
  cases t with
  | node token children =>
    cases token with
    | none => exact fun own here => by cases here
    | some token =>
      intro own here
      obtain rfl := Option.some.inj here
      exact away token rfl

theorem Away.withChildren {t : Tree} (away : Away x t) (children : List Tree) :
    Away x (t.withChildren children) := away

theorem Spot.away_of_parent {t : Tree} (spot : Spot good x parent type t)
    (other : type ≠ parent) : Away x t :=
  fun own here same => other (spot own here same).1

theorem Spot.away_of_type {t : Tree} (spot : Spot good x parent type t)
    (keeps : ∀ z, good z → z.type = x.type) (other : t.getType ≠ x.type) : Away x t := by
  intro own here same
  have isGood := keeps own (spot own here same).2.1
  exact other (by rw [← isGood, Tree.getType, here]; rfl)

theorem Turned.sameType {z : Token} (turned : Turned x z) : z.type = x.type := turned.1

theorem Final.sameType {z : Token} (final : Final x parent z) : z.type = x.type := by
  rw [Final] at final
  split at final
  · exact final.1
  · exact final.1

/-- The children of a node: what stands among them and what below them. -/
def Row (good : Token → Prop) (x : Token) (parent type : TokenType) (l : List Tree) : Prop :=
  ∀ c ∈ l, Spot good x parent type c ∧ Stands (Final x parent) x parent c

theorem Row.subset {l l' : List Tree} (row : Row good x parent type l) (sub : l' ⊆ l) :
    Row good x parent type l' :=
  fun c member => row c (sub member)

theorem Row.set {l : List Tree} (row : Row good x parent type l) {c : Tree}
    (own : Spot good x parent type c ∧ Stands (Final x parent) x parent c) (pos : ℕ) :
    Row good x parent type (l.set pos c) := by
  intro d member
  rcases List.mem_or_eq_of_mem_set member with old | rfl
  · exact row d old
  · exact own

theorem Row.eraseIdx {l : List Tree} (row : Row good x parent type l) (pos : ℕ) :
    Row good x parent type (l.eraseIdx pos) :=
  row.subset List.eraseIdx_subset

theorem stands_setText {t : Tree} {text : String} :
    Stands good x parent (t.setText text) ↔ Stands good x parent t := by
  rw [stands_iff, stands_iff, Tree.children_setText, Tree.getType_setText]

theorem Row.withChildren {t : Tree} {l : List Tree}
    (row : Row (Final x parent) x parent t.getType l) :
    Stands (Final x parent) x parent (t.withChildren l) :=
  stands_iff.mpr row

/-- A child away from the place may get another text. -/
theorem Row.setText {l : List Tree} (row : Row good x parent type l) {pos : ℕ} {c : Tree}
    (here : l[pos]? = some c) (away : Away x c) (text : String) :
    Row good x parent type (l.set pos (c.setText text)) :=
  row.set ⟨(away.setText text).spot, stands_setText.mpr (row c (List.mem_of_getElem? here)).2⟩ pos

/-- Below a node that holds no names a child may get another text. -/
theorem Row.setText_elsewhere {l : List Tree} (row : Row good x parent type l)
    (other : type ≠ parent) {pos : ℕ} {c : Tree} (here : l[pos]? = some c) (text : String) :
    Row good x parent type (l.set pos (c.setText text)) :=
  row.setText here ((row c (List.mem_of_getElem? here)).1.away_of_parent other) text

/-- A child of another type may get other children. -/
theorem Row.setChildren {l : List Tree} (row : Row good x parent type l)
    (keeps : ∀ z, good z → z.type = x.type) {pos : ℕ} {c : Tree} (here : l[pos]? = some c)
    (other : c.getType ≠ x.type) {children : List Tree}
    (below : Row (Final x parent) x parent c.getType children) :
    Row good x parent type (l.set pos (c.withChildren children)) :=
  row.set ⟨(((row c (List.mem_of_getElem? here)).1.away_of_type keeps other).withChildren _).spot,
    below.withChildren⟩ pos

/-! ## The passes over CREATE TABLE -/

theorem whileFound_row {k : TokenType}
    {body : ℕ → WalkerState → List Tree → Option (ℕ × WalkerState × List Tree)}
    (keep : ∀ pos ws l c next ws' l', Row good x parent type l → l[pos]? = some c →
      c.getType = k → body pos ws l = some (next, ws', l') → Row good x parent type l')
    {ws ws' : WalkerState} {base out : List Tree} (row : Row good x parent type base)
    (run : whileFound k body ws base = some (ws', out)) : Row good x parent type out :=
  SearchLoop.searchLoop_invariant
    (fun pos ws l c next ws' l' row here hit turn =>
      keep pos ws l c next ws' l' row here (by simpa [hasType] using hit) turn) row run

theorem Row.below {base : List Tree} (row : Row good x parent type base) {pos : ℕ} {c : Tree}
    (here : base[pos]? = some c) : Row (Final x parent) x parent c.getType c.children :=
  stands_iff.mp (row c (List.mem_of_getElem? here)).2

theorem ne_of_imaginary (plain : x.type.isImaginary = false) {k : TokenType}
    (imaginary : k.isImaginary = true) : k ≠ x.type := by
  intro same
  rw [← same, imaginary] at plain
  contradiction

section Passes

variable {ws ws' : WalkerState} {base out : List Tree}

/-- A found child of an imaginary type may get other children. -/
theorem Row.found (plain : x.type.isImaginary = false)
    (keeps : ∀ z, good z → z.type = x.type) (row : Row good x parent type base) {pos : ℕ}
    {c : Tree} {k : TokenType} (here : base[pos]? = some c) (own : c.getType = k)
    (imaginary : k.isImaginary = true) {children : List Tree}
    (below : Row (Final x parent) x parent c.getType children) :
    Row good x parent type (base.set pos (c.withChildren children)) :=
  row.setChildren keeps here (own ▸ ne_of_imaginary plain imaginary) below

theorem rewriteEnumNode_row (holds : holdsNames parent = true) {name : String} {t t' : Tree}
    (own : t.getType = .tCreateTableEnum)
    (row : Row (Final x parent) x parent t.getType t.children)
    (run : rewriteEnumNode name t = some t') :
    ∃ children, t' = t.withChildren children ∧
      Row (Final x parent) x parent t.getType children := by
  have other : t.getType ≠ parent := by
    rw [own]
    rintro rfl
    cases holds
  simp only [rewriteEnumNode, Option.bind_eq_bind, Option.bind_eq_some_iff] at run
  obtain ⟨enumpos, -, enumtree, here, rparen, -, rtree, found, done⟩ := run
  cases done
  have retexted := row.setText_elsewhere other here s!"text CHECK ( {name} IN "
  refine ⟨_, rfl, fun c member => ?_⟩
  rcases List.mem_append.mp member with old | last
  · exact retexted c old
  · rw [List.mem_singleton.mp last]
    exact retexted rtree (List.mem_of_getElem? found)

theorem createRewriteEnum_row (plain : x.type.isImaginary = false)
    (keeps : ∀ z, good z → z.type = x.type) (holds : holdsNames parent = true)
    (row : Row good x parent type base) (run : createRewriteEnum ws base = some (ws', out)) :
    Row good x parent type out := by
  refine whileFound_row (fun defpos ws base columnDef next ws' base' row here own turn => ?_) row run
  simp only [Option.bind_eq_bind, Option.bind_eq_some_iff] at turn
  obtain ⟨_, same, ⟨inner, children⟩, loop, done⟩ := turn
  obtain rfl := Option.some.inj (here.symm.trans same)
  cases done
  refine row.found plain keeps here own rfl (whileFound_row ?_ (row.below here) loop)
  intro pos ws children enumNode next ws' children' row here own turn
  simp only [Option.bind_eq_some_iff] at turn
  obtain ⟨ntree, -, _, same, tree, rewritten, done⟩ := turn
  obtain rfl := Option.some.inj (here.symm.trans same)
  cases done
  obtain ⟨_, rfl, below⟩ := rewriteEnumNode_row holds own (row.below here) rewritten
  exact row.found plain (fun z => Final.sameType) here own rfl below

theorem createTableRewriteOnupdate_row (plain : x.type.isImaginary = false)
    (keeps : ∀ z, good z → z.type = x.type) (row : Row good x parent type base)
    (run : createTableRewriteOnupdate ws base = some (ws', out)) : Row good x parent type out := by
  simp only [createTableRewriteOnupdate, Option.bind_eq_bind, Option.bind_eq_some_iff] at run
  obtain ⟨tablename, -, run⟩ := run
  refine whileFound_row (fun defpos ws base columnDef next ws' base' row here own turn => ?_) row run
  simp only [Option.bind_eq_some_iff] at turn
  obtain ⟨_, same, ⟨inner, children⟩, loop, done⟩ := turn
  obtain rfl := Option.some.inj (here.symm.trans same)
  cases done
  refine row.found plain keeps here own rfl (whileFound_row ?_ (row.below here) loop)
  intro pos ws children clause next ws' children' row here own turn
  simp only [Option.bind_eq_some_iff] at turn
  obtain ⟨ntree, -, tree, -, done⟩ := turn
  cases done
  exact row.eraseIdx pos

theorem deleteNotNull_subset (l : List Tree) : deleteNotNull l ⊆ l := by
  induction l using deleteNotNull.induct with
  | case1 child next rest hit =>
    rw [deleteNotNull, if_pos hit]
    exact fun c member => List.mem_cons_of_mem _ (List.mem_cons_of_mem _ member)
  | case2 child next rest miss ih =>
    rw [deleteNotNull, if_neg miss]
    exact List.cons_subset_cons child ih
  | case3 l short =>
    rw [deleteNotNull.eq_2 l short]
    exact List.Subset.refl l

theorem createRewriteStupidDate_row (plain : x.type.isImaginary = false)
    (keeps : ∀ z, good z → z.type = x.type) (row : Row good x parent type base)
    (run : createRewriteStupidDate ws base = some (ws', out)) : Row good x parent type out := by
  refine whileFound_row (fun defpos ws base columnDef next ws' base' row here own turn => ?_) row run
  simp only [Option.bind_eq_bind, Option.bind_eq_some_iff] at turn
  obtain ⟨_, same, done⟩ := turn
  obtain rfl := Option.some.inj (here.symm.trans same)
  split at done
  · cases done
    exact row
  · cases done
    exact row.found plain keeps here own rfl
      ((row.below here).subset (deleteNotNull_subset columnDef.children))

theorem Row.eraseComma (row : Row good x parent type base) (pos : ℕ) (comma : Tree) :
    Row good x parent type
      (if comma.getType = .comma then base.eraseIdx pos else base) := by
  split
  · exact row.eraseIdx pos
  · exact row

theorem createTableIndex_row (row : Row good x parent type base)
    (run : createTableIndex ws base = some (ws', out)) : Row good x parent type out := by
  simp only [createTableIndex, Option.bind_eq_bind, Option.bind_eq_some_iff] at run
  obtain ⟨tablename, -, run⟩ := run
  refine whileFound_row (fun pos ws base index next ws' base' row here own turn => ?_) row run
  simp only [Option.bind_eq_some_iff] at turn
  obtain ⟨child, -, indexType, -, name, -, done⟩ := turn
  split at done
  · cases done
  · simp only [Option.bind_eq_some_iff] at done
    obtain ⟨comma, -, done⟩ := done
    cases done
    exact (row.eraseIdx pos).eraseComma (pos - 1) comma

theorem createTableRewriteAutoInc_row (plain : x.type.isImaginary = false)
    (keeps : ∀ z, good z → z.type = x.type) (row : Row good x parent type base)
    (run : createTableRewriteAutoInc ws base = some (ws', out)) : Row good x parent type out := by
  simp only [createTableRewriteAutoInc, Option.bind_eq_bind, Option.bind_eq_some_iff] at run
  obtain ⟨tablename, -, run⟩ := run
  refine whileFound_row (fun pos ws base columnDef next ws' base' row here own turn => ?_) row run
  simp only [Option.bind_eq_some_iff] at turn
  obtain ⟨_, same, done⟩ := turn
  obtain rfl := Option.some.inj (here.symm.trans same)
  split at done
  · cases done
    exact row
  · simp only [Option.bind_eq_some_iff] at done
    obtain ⟨id, -, start, -, done⟩ := done
    cases done
    exact row.found plain keeps here own rfl ((row.below here).eraseIdx _)

theorem createTableFulltextIndex_row (row : Row good x parent type base)
    (run : createTableFulltextIndex ws base = some (ws', out)) : Row good x parent type out := by
  refine whileFound_row (fun pos ws base index next ws' base' row here own turn => ?_) row run
  dsimp only at turn
  split at turn
  · simp only [Option.bind_eq_bind, Option.bind_eq_some_iff] at turn
    obtain ⟨comma, -, done⟩ := turn
    cases done
    exact (row.eraseIdx pos).eraseComma (pos - 1) comma
  · cases turn
    exact row.eraseIdx pos

theorem createTableRewriteFkey_row (row : Row good x parent type base)
    (run : createTableRewriteFkey ws base = some (ws', out)) : Row good x parent type out := by
  refine whileFound_row (fun pos ws base fkey next ws' base' row here own turn => ?_) row run
  simp only [Option.bind_eq_bind, Option.bind_eq_some_iff] at turn
  obtain ⟨_, -, tokens, -, done⟩ := turn
  split at done
  · cases done
  · simp only [Option.bind_eq_some_iff] at done
    obtain ⟨comma, -, done⟩ := done
    cases done
    exact (row.eraseIdx pos).eraseComma (pos - 1) comma

theorem createTableRemoveTableOptions_row (row : Row good x parent type base)
    (run : createTableRemoveTableOptions ws base = some (ws', out)) :
    Row good x parent type out := by
  refine whileFound_row (fun pos ws base option next ws' base' row here own turn => ?_) row run
  cases turn
  exact row.eraseIdx pos

/-! ### DOUBLE in front of a dot -/

theorem mark_setText (t : Tree) (text : String) : mark (t.setText text) = mark t := by
  cases t with
  | node token children => cases token <;> rfl

theorem mark_withChildren (t : Tree) (children : List Tree) :
    mark (t.withChildren children) = mark t := rfl

/-- Whether a dot stands behind the leaf is said by the marks. -/
theorem Dotted.congr {l l' : List Tree} (dotted : Dotted x l) (same : l'.map mark = l.map mark) :
    Dotted x l' := by
  have marks (i : ℕ) : l'[i]?.map mark = l[i]?.map mark := by
    rw [← List.getElem?_map, ← List.getElem?_map, same]
  intro i child here own
  have mine := marks i
  rw [here, Option.map_some] at mine
  obtain ⟨child', here', same'⟩ := Option.map_eq_some_iff.mp mine.symm
  obtain ⟨dot, behind, isDot⟩ := dotted i child' here' (by rw [same']; exact own)
  have next := marks (i + 1)
  rw [behind, Option.map_some] at next
  obtain ⟨dot', behind', sameDot⟩ := Option.map_eq_some_iff.mp next
  exact ⟨dot', behind', (congrArg Prod.fst sameDot).trans isDot⟩

theorem map_mark_set {l : List Tree} {pos : ℕ} {c d : Tree} (here : l[pos]? = some c)
    (same : mark d = mark c) : (l.set pos d).map mark = l.map mark := by
  obtain ⟨bound, rfl⟩ := List.getElem?_eq_some_iff.mp here
  have inside : pos < (l.map mark).length := by rwa [List.length_map]
  have own : (l.map mark)[pos] = mark l[pos] := List.getElem_map mark
  rw [List.map_set, same, ← own, List.set_getElem_self]

theorem createRewriteEnum_marks (run : createRewriteEnum ws base = some (ws', out)) :
    out.map mark = base.map mark := by
  refine SearchLoop.searchLoop_invariant
    (I := fun l => l.map mark = base.map mark) (fun pos ws l c next ws' l' kept here _ turn => ?_)
    rfl run
  simp only [Option.bind_eq_bind, Option.bind_eq_some_iff] at turn
  obtain ⟨_, same, ⟨inner, children⟩, -, done⟩ := turn
  obtain rfl := Option.some.inj (here.symm.trans same)
  cases done
  rw [map_mark_set here (mark_withChildren c children), kept]

theorem spot_setText {t : Tree} {good' : Token → Prop} (spot : Spot good x parent type t)
    {text : String} (better : ∀ z, good z → good' { z with text := text }) :
    Spot good' x parent type (t.setText text) := by
  cases t with
  | node token children =>
    cases token with
    | none => exact fun own here => by cases here
    | some token =>
      intro own here same
      obtain rfl := Option.some.inj here
      obtain ⟨below, isGood, leaf⟩ := spot token rfl same
      exact ⟨below, better token isGood, leaf⟩

theorem Spot.mono {t : Tree} {good' : Token → Prop} (spot : Spot good x parent type t)
    (better : ∀ z, good z → type = parent → good' z) : Spot good' x parent type t := by
  intro own here same
  obtain ⟨below, isGood, leaf⟩ := spot own here same
  exact ⟨below, better own isGood below, leaf⟩

theorem mark_of_spot {t : Tree} {own : Token} (here : t.token = some own)
    (same : place own = place x) : (mark t).2 = some (place x) := by
  rw [mark, here, Option.map_some, same]

/-- Below CREATE TABLE, DOUBLE with a node behind it that is not PRECISION gets the missing word. -/
theorem spot_datatypes {child next : Tree} {rest : List Tree}
    (dotted : Dotted x (child :: next :: rest))
    (spot : Spot (Turned x) x parent .tCreateTable child) :
    Spot (Final x parent) x parent .tCreateTable
      (if child.getType = .kDouble ∧ next.getType ≠ .kPrecision then
        child.setText (child.getText ++ " PRECISION ") else child) := by
  by_cases away : Away x child
  · split
    · exact (away.setText _).spot
    · exact away.spot
  · -- The child is the leaf, and the dot stands behind it.
    simp only [Away, not_forall, not_not] at away
    obtain ⟨own, here, same⟩ := away
    obtain ⟨rfl, turned, leaf⟩ := spot own here same
    have typed : child.getType = x.type := by rw [Tree.getType, here]; exact turned.1
    have text : child.getText = own.text := by rw [Tree.getText, here]; rfl
    by_cases double : x.type = .kDouble
    · obtain ⟨dot, behind, isDot⟩ := dotted 0 child rfl (mark_of_spot here same)
      obtain rfl : next = dot := Option.some.inj behind
      rw [if_pos ⟨typed.trans double, by rw [isDot]; decide⟩]
      have only : Spot (fun z => z = own) x .tCreateTable .tCreateTable child := by
        intro z found _
        exact ⟨rfl, Option.some.inj (found.symm.trans here), leaf⟩
      refine spot_setText only ?_
      · rintro z rfl
        have unchanged := turned.2.1 (by rw [double]; decide)
        rw [Final, if_pos ⟨double, rfl⟩, text, unchanged]
        exact ⟨rfl, rfl⟩
    · rw [if_neg fun both => double (typed.symm.trans both.1)]
      exact spot.mono fun z isGood _ => by rwa [Final, if_neg fun both => double both.1]

/-- The pass turns the leaf into what it is in the end. -/
theorem createRewriteDatatypes_row {l : List Tree} (dotted : Dotted x l)
    (row : Row (Turned x) x parent .tCreateTable l) :
    Row (Final x parent) x parent .tCreateTable (createRewriteDatatypes l) := by
  induction l using createRewriteDatatypes.induct with
  | case1 child next rest ih =>
    have behind := ih (fun i c here own => dotted (i + 1) c here own)
      fun c member => row c (List.mem_cons_of_mem _ member)
    obtain ⟨spot, stands⟩ := row child List.mem_cons_self
    rw [createRewriteDatatypes]
    intro c member
    rcases List.mem_cons.mp member with rfl | later
    · refine ⟨spot_datatypes dotted spot, ?_⟩
      split
      · exact stands_setText.mpr stands
      · exact stands
    · exact behind c later
  | case2 l short =>
    rw [createRewriteDatatypes.eq_2 l short]
    intro c member
    obtain ⟨spot, stands⟩ := row c member
    refine ⟨fun own here same => ?_, stands⟩
    -- The last child is not the leaf: no dot stands behind it.
    obtain ⟨i, bound, rfl⟩ := List.getElem_of_mem member
    obtain ⟨dot, behind, -⟩ := dotted i l[i] (List.getElem?_eq_getElem bound)
      (mark_of_spot here same)
    have inside := (List.getElem?_eq_some_iff.mp behind).1
    cases l with
    | nil => simp at bound
    | cons first rest =>
      cases rest with
      | nil => simp at inside
      | cons second rest => exact (short first second rest rfl).elim

/-! ### All passes -/

theorem createTableWorker_stands (plain : x.type.isImaginary = false)
    (holds : holdsNames parent = true) {t t' : Tree} (own : t.getType = .tCreateTable)
    (dotted : Dotted x t.children) (row : Row (Turned x) x parent t.getType t.children)
    (run : createTableWorker ws t = some (ws', t')) :
    Stands (Final x parent) x parent t' ∧ mark t' = mark t := by
  simp only [createTableWorker, Option.bind_eq_bind, Option.bind_eq_some_iff] at run
  obtain ⟨⟨ws₁, base₁⟩, enum, ⟨ws₂, base₂⟩, onupdate, ⟨ws₃, base₃⟩, dates, ⟨ws₄, base₄⟩, index,
    ⟨ws₅, base₅⟩, autoInc, ⟨ws₆, base₆⟩, fulltext, ⟨ws₇, base₇⟩, fkey, ⟨ws₈, base₈⟩, options,
    done⟩ := run
  cases done
  rw [own] at row
  have keeps : ∀ z, Final x parent z → z.type = x.type := fun z => Final.sameType
  have row₁ := createRewriteEnum_row plain (fun z => Turned.sameType) holds row enum
  have retyped := createRewriteDatatypes_row
    (dotted.congr (createRewriteEnum_marks enum)) row₁
  have row₂ := createTableRewriteOnupdate_row plain keeps retyped onupdate
  have row₃ := createRewriteStupidDate_row plain keeps row₂ dates
  have row₄ := createTableIndex_row row₃ index
  have row₅ := createTableRewriteAutoInc_row plain keeps row₄ autoInc
  have row₆ := createTableFulltextIndex_row row₅ fulltext
  have row₇ := createTableRewriteFkey_row row₆ fkey
  have row₈ := createTableRemoveTableOptions_row row₇ options
  exact ⟨(own.symm ▸ row₈ : Row _ x parent t.getType base₈).withChildren, rfl⟩

end Passes

/-! ## The other workers -/

/-- Below a node that is no CREATE TABLE the leaf is in the end what it is behind its own turn. -/
theorem Row.final {l : List Tree} (row : Row (Turned x) x parent type l)
    (other : type ≠ .tCreateTable) : Row (Final x parent) x parent type l := by
  intro c member
  refine ⟨(row c member).1.mono fun z isGood below => ?_, (row c member).2⟩
  rwa [Final, if_neg fun both => other (below.trans both.2)]

section Workers

variable {l l' : List Tree} (row : Row good x parent type l)

include row

theorem Row.deleteFirst (lookfor : TokenType) :
    Row good x parent type (deleteFirst lookfor l) := by
  rw [Model.deleteFirst]
  split
  · exact row.eraseIdx _
  · exact row

theorem Row.retextFirst (other : type ≠ parent) {lookfor : TokenType} {text : String}
    (run : retextFirst lookfor text l = some l') : Row good x parent type l' := by
  simp only [Model.retextFirst, Option.bind_eq_bind, Option.bind_eq_some_iff] at run
  obtain ⟨pos, -, child, here, done⟩ := run
  cases done
  exact row.setText_elsewhere other here text

theorem Row.takeShowFrom {rt : Runtime} {name : Option String}
    (run : takeShowFrom rt l = some (name, l')) : Row good x parent type l' := by
  rw [Model.takeShowFrom] at run
  split at run
  · cases run
    exact row
  · simp only [Option.bind_eq_bind, Option.bind_eq_some_iff] at run
    obtain ⟨fromchild, -, child, -, done⟩ := run
    cases done
    exact row.eraseIdx _

theorem showTablesRewrite_row (other : type ≠ parent) {rt : Runtime}
    (run : showTablesRewrite rt l = some l') : Row good x parent type l' := by
  simp only [showTablesRewrite, Option.bind_eq_bind, Option.bind_eq_some_iff] at run
  obtain ⟨⟨name, taken⟩, took, retexted, retext, done⟩ := run
  cases done
  exact (((row.takeShowFrom took).deleteFirst .kFull).retextFirst other retext).deleteFirst .kTables

theorem showColumnsRewrite_row (other : type ≠ parent) {rt : Runtime}
    (run : showColumnsRewrite rt l = some l') : Row good x parent type l' := by
  simp only [showColumnsRewrite, Option.bind_eq_bind, Option.bind_eq_some_iff] at run
  obtain ⟨⟨table, first⟩, tookTable, ⟨schema, second⟩, tookSchema, done⟩ := run
  have rest := ((row.deleteFirst .kFull).takeShowFrom tookTable).takeShowFrom tookSchema
  cases done
  cases retext : retextFirst .kShow (showColumnsText _ (table.getD "") _ _) second with
  | none => exact rest
  | some retexted => exact rest.retextFirst other retext

theorem useDatabaseWorker_row (other : type ≠ parent) (ws : WalkerState) :
    Row good x parent type (useDatabaseWorker ws l).2 := by
  rw [useDatabaseWorker]
  split
  · exact row
  · next retexted retext =>
    have keyword := row.retextFirst other retext
    split
    · exact keyword
    · split
      · exact keyword
      · next here => exact keyword.setText_elsewhere other here _

theorem rewriteServerVariables_row (other : type ≠ parent) {rt : Runtime}
    (run : rewriteServerVariables rt l = some l') : Row good x parent type l' := by
  rw [rewriteServerVariables] at run
  split at run
  · cases run
    exact row
  · simp only [Option.bind_eq_bind, Option.bind_eq_some_iff] at run
    obtain ⟨child, here, run⟩ := run
    split at run
    · obtain ⟨_, -, done⟩ := Option.bind_eq_some_iff.mp run
      cases done
      exact row.setText_elsewhere other here _
    · cases run
      exact row

theorem rewriteIfFunction_row (other : type ≠ parent)
    (run : rewriteIfFunction l = some l') : Row good x parent type l' := by
  simp only [rewriteIfFunction, Option.bind_eq_bind, Option.bind_eq_some_iff] at run
  obtain ⟨expr1, here, expr2, -, expr3, -, _, -, done⟩ := run
  cases done
  exact ((row.setText_elsewhere other here _).eraseIdx 1).eraseIdx 1

end Workers

/-! ## The turn of a node -/

/-- A node of a type that holds no names is not the parent of the leaf. -/
private theorem ne_parent {t : Tree} {k : TokenType} (holds : holdsNames parent = true)
    (own : t.getType = k) (none : holdsNames k = false) : t.getType ≠ parent := by
  rw [own]
  rintro rfl
  rw [holds] at none
  cases none

/-- A worker that only rewrites the children of its node keeps the leaf where its rewrite does. -/
private theorem stands_of_rewrite {t t' : Tree} {rewrite : Option (List Tree)}
    {ws ws' : WalkerState}
    (run : (rewrite.map fun children => (ws, t.withChildren children)) = some (ws', t'))
    (below : ∀ l', rewrite = some l' → Row (Final x parent) x parent t.getType l') :
    Stands (Final x parent) x parent t' ∧ mark t' = mark t := by
  obtain ⟨children, found, done⟩ := Option.map_eq_some_iff.mp run
  cases done
  exact ⟨(below children found).withChildren, mark_withChildren t children⟩

theorem dispatch_stands {rt : Runtime} {ws ws' : WalkerState} {t t' : Tree}
    (plain : x.type.isImaginary = false) (holds : holdsNames parent = true)
    (dotted : t.getType = .tCreateTable → Dotted x t.children)
    (row : Row (Turned x) x parent t.getType t.children)
    (run : dispatch rt ws t = some (ws', t')) :
    Stands (Final x parent) x parent t' ∧ mark t' = mark t := by
  rw [dispatch] at run
  split at run
  · next own => exact createTableWorker_stands plain holds own (dotted own) row run
  · next own =>
    cases run
    have below := row.final (own ▸ by decide)
    exact ⟨(useDatabaseWorker_row below (ne_parent holds own rfl) ws).withChildren,
      mark_withChildren t _⟩
  · next own =>
    cases run
    have none : Row (Final x parent) x parent (t.setText "").getType [] :=
      fun c member => by cases member
    exact ⟨none.withChildren, (mark_withChildren _ []).trans (mark_setText t "")⟩
  · next own =>
    exact stands_of_rewrite run fun l' found =>
      rewriteServerVariables_row (row.final (own ▸ by decide)) (ne_parent holds own rfl) found
  · next own =>
    exact stands_of_rewrite run fun l' found =>
      showTablesRewrite_row (row.final (own ▸ by decide)) (ne_parent holds own rfl) found
  · next own =>
    exact stands_of_rewrite run fun l' found =>
      showColumnsRewrite_row (row.final (own ▸ by decide)) (ne_parent holds own rfl) found
  · next own =>
    exact stands_of_rewrite run fun l' found =>
      rewriteIfFunction_row (row.final (own ▸ by decide)) (ne_parent holds own rfl) found
  · next own =>
    cases run
    exact ⟨stands_setText.mpr (stands_iff.mpr (row.final (own ▸ by decide))), mark_setText t _⟩
  · next notTable _ _ _ _ _ _ _ =>
    cases run
    exact ⟨stands_iff.mpr (row.final notTable), rfl⟩

theorem away_of_mark {t t' : Tree} (away : Away x t) (same : mark t' = mark t) : Away x t' := by
  intro own here samePlace
  have places : t'.token.map place = t.token.map place := congrArg Prod.snd same
  rw [here, Option.map_some, samePlace] at places
  obtain ⟨other, there, atPlace⟩ := Option.map_eq_some_iff.mp places.symm
  exact away other there atPlace

/-- The leaf's own turn. -/
theorem dispatch_spot {rt : Runtime} {ws ws' : WalkerState} {t t' : Tree}
    (plain : x.type.isImaginary = false) (spot : Spot (fun z => z = x) x parent type t)
    (same : mark t' = mark t) (run : dispatch rt ws t = some (ws', t')) :
    Spot (Turned x) x parent type t' := by
  by_cases away : Away x t
  · exact (away_of_mark away same).spot
  · simp only [Away, not_forall, not_not] at away
    obtain ⟨own, here, samePlace⟩ := away
    obtain ⟨below, rfl, leaf⟩ := spot own here samePlace
    have typed : t.getType = own.type := by rw [Tree.getType, here]; rfl
    have worker {k : TokenType} (isK : t.getType = k) (imaginary : k.isImaginary = true) :
        False := ne_of_imaginary plain imaginary (isK.symm.trans typed)
    rw [dispatch] at run
    split at run
    · next isK => exact (worker isK rfl).elim
    · next isK => exact (worker isK rfl).elim
    · next isK => exact (worker isK rfl).elim
    · next isK => exact (worker isK rfl).elim
    · next isK => exact (worker isK rfl).elim
    · next isK => exact (worker isK rfl).elim
    · next isK => exact (worker isK rfl).elim
    · next isRows =>
      cases run
      refine spot_setText spot ?_
      rintro z rfl
      exact ⟨rfl, fun other => absurd (typed.symm.trans isRows) other, fun _ => ⟨_, rfl⟩⟩
    · next notRows =>
      cases run
      refine spot.mono ?_
      rintro z rfl -
      exact ⟨rfl, fun _ => rfl, fun isRows => absurd (typed.trans isRows) notRows⟩

/-! ## The walk -/

section Walk

variable {rt : Runtime}

mutual

theorem treeWalkWorker_row (plain : x.type.isImaginary = false) (holds : holdsNames parent = true)
    {ws ws' : WalkerState} {t t' : Tree} (stands : Stands (fun z => z = x) x parent t)
    (dotted : DottedBelow x t)
    (run : treeWalkWorker rt ws t = some (ws', t')) :
    Row (Turned x) x parent t'.getType t'.children ∧
      (t'.getType = .tCreateTable → Dotted x t'.children) ∧ t'.token = t.token ∧
        (t.children = [] → t'.children = []) := by
  cases t with
  | node token children =>
    simp only [treeWalkWorker, Option.bind_eq_bind, Option.bind_eq_some_iff] at run
    obtain ⟨⟨inner, walked⟩, walk, done⟩ := run
    cases done
    rw [Stands] at stands
    rw [DottedBelow] at dotted
    obtain ⟨row, marks⟩ := walkChildren_row plain holds stands dotted.2 walk
    refine ⟨row, fun own => (dotted.1 own).congr marks, rfl, fun empty => ?_⟩
    have lengths := congrArg List.length marks
    simp only [List.length_map] at lengths
    exact List.length_eq_zero_iff.mp (lengths.trans (List.length_eq_zero_iff.mpr empty))

theorem walkChildren_row (plain : x.type.isImaginary = false) (holds : holdsNames parent = true)
    {ws ws' : WalkerState} {type : TokenType} {l l' : List Tree}
    (stands : StandsAll (fun z => z = x) x parent type l) (dotted : DottedAll x l)
    (run : walkChildren rt ws l = some (ws', l')) :
    Row (Turned x) x parent type l' ∧ l'.map mark = l.map mark := by
  cases l with
  | nil =>
    rw [walkChildren_nil] at run
    cases run
    exact ⟨fun c member => absurd member List.not_mem_nil, rfl⟩
  | cons child rest =>
    rw [walkChildren_cons] at run
    obtain ⟨⟨ws₂, handed⟩, first, run⟩ := Option.bind_eq_some_iff.mp run
    obtain ⟨⟨ws₁, walked⟩, walk, turn⟩ := Option.bind_eq_some_iff.mp first
    obtain ⟨⟨ws₃, rest'⟩, behind, done⟩ := Option.map_eq_some_iff.mp run
    cases done
    rw [StandsAll] at stands
    rw [DottedAll] at dotted
    obtain ⟨⟨spot, below⟩, later⟩ := stands
    obtain ⟨row, dots, token, leaf⟩ := treeWalkWorker_row plain holds below dotted.1 walk
    have spotWalked : Spot (fun z => z = x) x parent type walked := by
      intro own here samePlace
      rw [token] at here
      obtain ⟨isType, isGood, empty⟩ := spot own here samePlace
      exact ⟨isType, isGood, leaf empty⟩
    have marked : mark walked = mark child := by simp only [mark, Tree.getType, token]
    obtain ⟨handedStands, handedMark⟩ := dispatch_stands plain holds dots row turn
    obtain ⟨restRow, restMarks⟩ := walkChildren_row plain holds later dotted.2 behind
    refine ⟨fun c member => ?_, ?_⟩
    · rcases List.mem_cons.mp member with rfl | tail
      · exact ⟨dispatch_spot plain spotWalked handedMark turn, handedStands⟩
      · exact restRow c tail
    · rw [List.map_cons, List.map_cons, restMarks, handedMark, marked]

end

/-- The trees that the walk of some siblings hands to workers. -/
inductive Handed (rt : Runtime) : WalkerState → List Tree → Tree → Prop
  | here {ws ws' : WalkerState} {child walked : Tree} {rest : List Tree}
      (walk : treeWalkWorker rt ws child = some (ws', walked)) :
      Handed rt ws (child :: rest) walked
  | inside {ws : WalkerState} {child handed : Tree} {rest : List Tree}
      (inner : Handed rt ws child.children handed) : Handed rt ws (child :: rest) handed
  | behind {ws ws' : WalkerState} {child walked handed : Tree} {rest : List Tree}
      (turn : walkChild rt ws child = some (ws', walked)) (later : Handed rt ws' rest handed) :
      Handed rt ws (child :: rest) handed

theorem Handed.row (plain : x.type.isImaginary = false) (holds : holdsNames parent = true)
    {ws : WalkerState} {type : TokenType} {l : List Tree} {handed : Tree}
    (isHanded : Handed rt ws l handed) (stands : StandsAll (fun z => z = x) x parent type l)
    (dotted : DottedAll x l) : Row (Turned x) x parent handed.getType handed.children := by
  induction isHanded generalizing type with
  | here walk =>
    rw [StandsAll] at stands
    rw [DottedAll] at dotted
    exact (treeWalkWorker_row plain holds stands.1.2 dotted.1 walk).1
  | @inside ws child handed rest inner ih =>
    rw [StandsAll] at stands
    rw [DottedAll] at dotted
    cases child with
    | node token children =>
      have below := stands.1.2
      have dots := dotted.1
      rw [Stands] at below
      rw [DottedBelow] at dots
      exact ih below dots.2
  | behind turn later ih =>
    rw [StandsAll] at stands
    rw [DottedAll] at dotted
    exact ih stands.2 dotted.2

end Walk

/-! ## What is printed -/

mutual

theorem leavesBelow_spot {t : Tree} (row : Row (Final x parent) x parent t.getType t.children)
    {leaf : Tree} (member : leaf ∈ leavesBelow t) {z : Token} (own : leaf.token = some z)
    (same : place z = place x) : Final x parent z := by
  cases t with
  | node token children =>
    rw [leavesBelow] at member
    exact leavesOf_spot row member own same

/-- A printed leaf at the place of the name is the name behind all turns. -/
theorem leavesOf_spot {l : List Tree} {type : TokenType}
    (row : Row (Final x parent) x parent type l) {leaf : Tree} (member : leaf ∈ leavesOf l)
    {z : Token} (own : leaf.token = some z) (same : place z = place x) : Final x parent z := by
  cases l with
  | nil => cases member
  | cons child rest =>
    rw [leavesOf] at member
    rcases List.mem_append.mp member with first | later
    · obtain ⟨spot, stands⟩ := row child List.mem_cons_self
      split at first
      · exact leavesBelow_spot (stands_iff.mp stands) first own same
      · split at first
        · obtain rfl := List.mem_singleton.mp first
          exact (spot z own same).2.1
        · cases first
    · exact leavesOf_spot (fun c tail => row c (List.mem_cons_of_mem _ tail)) later own same

end

end Pgify.NameWalk
