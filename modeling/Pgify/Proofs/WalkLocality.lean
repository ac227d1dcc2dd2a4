import Pgify.Lib.Recorder
import Pgify.Proofs.CreateTableWalk

/-! # What the walk reads of its state

Of the walker state the workers read the schema name and the number of found rows, they append to
the postbuf, and USE sets the schema name. One lemma for each pass says so, and the walk of any tree
is put together from them by induction over the tree.
-/

namespace Pgify.Model

open Recorder

/-- The walker state as a recorder: the schema name is the register and the postbuf the record. -/
def walker : Recorder WalkerState ℤ String String where
  context := WalkerState.foundRows
  register := WalkerState.schemaName
  record schemaName text ws := ⟨schemaName, ws.postbuf ++ text, ws.options, ws.foundRows⟩
  empty := ""
  append first second := first ++ second
  context_record _ _ _ := rfl
  register_record _ _ _ := rfl
  record_record _ _ _ _ _ := by simp [String.append_assoc]
  record_register _ := by simp

/-- The identifier that a USE names: its first ID. -/
def useOf (children : List Tree) : Option String :=
  if children.any (hasType .kUse) then (children.find? (hasType .id)).map Tree.getText else none

mutual

/-- The identifiers that the USE statements below a node name, in the order of the walk. -/
def usesBelow : Tree → List String
  | .node _ children => usesOf children

/-- The same of some siblings and what is below them. -/
def usesOf : List Tree → List String
  | [] => []
  | child :: rest =>
    usesBelow child ++
      (if child.getType = .tUseDatabase then (useOf child.children).toList else []) ++ usesOf rest

end

/-- The schema name behind some USE statements. -/
def schemaNameAfter (schemaName : String) (uses : List String) : String :=
  uses.getLast?.elim schemaName fun name => s!"{name}."

theorem schemaNameAfter_append (schemaName : String) (first second : List String) :
    schemaNameAfter schemaName (first ++ second) =
      schemaNameAfter (schemaNameAfter schemaName first) second := by
  rw [schemaNameAfter, List.getLast?_append]
  cases last : second.getLast? <;> simp [schemaNameAfter, last]

namespace WalkLocality

/-! ## The passes over CREATE TABLE -/

theorem whileFound_quiet {lookfor : TokenType}
    {body : ℕ → WalkerState → List Tree → Option (ℕ × WalkerState × List Tree)}
    (quiet : ∀ pos l, walker.Quiet fun ws => (body pos ws l).map fun r => (r.2.1, r.1, r.2.2))
    (base : List Tree) : walker.Quiet fun ws => whileFound lookfor body ws base :=
  Quiet.searchLoop quiet _ _ base

/-- A turn that only changes the children. -/
theorem turn_quiet (next : ℕ) (base : List Tree) :
    walker.Quiet fun ws => some (ws, next, base) :=
  Quiet.pure (next, base)

theorem createRewriteEnum_quiet (base : List Tree) :
    walker.Quiet fun ws => createRewriteEnum ws base := by
  refine whileFound_quiet (fun defpos base => ?_) base
  simp only [Option.bind_eq_bind, Option.map_bind, Function.comp_def, Option.map_some]
  refine Quiet.guard _ fun columnDef => ?_
  refine Quiet.bind (whileFound_quiet (fun pos children => ?_) columnDef.children) fun children =>
    Quiet.pure (defpos + 1, base.set defpos (columnDef.withChildren children))
  simp only [Option.map_bind, Function.comp_def, Option.map_some]
  refine Quiet.guard _ fun ntree => Quiet.guard _ fun tree => Quiet.guard _ fun tree => ?_
  exact Quiet.pure (pos + 1, children.set pos tree)

theorem createTableRewriteOnupdate_quiet (base : List Tree) :
    walker.Quiet fun ws => createTableRewriteOnupdate ws base := by
  simp only [createTableRewriteOnupdate, Option.bind_eq_bind]
  refine Quiet.guard _ fun tablename => whileFound_quiet (fun defpos base => ?_) base
  simp only [Option.map_bind, Function.comp_def, Option.map_some]
  refine Quiet.guard _ fun columnDef => ?_
  refine Quiet.bind (whileFound_quiet (fun pos children => ?_) columnDef.children) fun children =>
    Quiet.pure (defpos + 1, base.set defpos (columnDef.withChildren children))
  simp only [Option.map_bind, Function.comp_def, Option.map_some]
  refine Quiet.guard _ fun ntree => Quiet.guard _ fun tree => ?_
  exact Quiet.emit (fun _ schemaName =>
    onupdateText schemaName tablename ntree.getText tree.children) (pos + 1, children.eraseIdx pos)

theorem createRewriteStupidDate_quiet (base : List Tree) :
    walker.Quiet fun ws => createRewriteStupidDate ws base := by
  refine whileFound_quiet (fun defpos base => ?_) base
  simp only [Option.bind_eq_bind, Option.map_bind, Function.comp_def]
  refine Quiet.guard _ fun columnDef => ?_
  split
  · exact turn_quiet (defpos + 1) base
  · exact turn_quiet (defpos + 1)
      (base.set defpos (columnDef.withChildren (deleteNotNull columnDef.children)))

theorem createTableIndex_quiet (base : List Tree) :
    walker.Quiet fun ws => createTableIndex ws base := by
  simp only [createTableIndex, Option.bind_eq_bind]
  refine Quiet.guard _ fun tablename => whileFound_quiet (fun pos base => ?_) base
  simp only [Option.map_bind, Function.comp_def]
  refine Quiet.guard _ fun child => Quiet.guard _ fun indexType => Quiet.guard _ fun name => ?_
  split
  · exact Quiet.fail
  · simp only [Option.map_bind, Function.comp_def, Option.map_some]
    refine Quiet.guard _ fun comma => ?_
    exact Quiet.emit (fun _ schemaName =>
      indexText schemaName tablename name indexType (indexScan child.children).columns) (0, _)

theorem createTableRewriteAutoInc_quiet (base : List Tree) :
    walker.Quiet fun ws => createTableRewriteAutoInc ws base := by
  simp only [createTableRewriteAutoInc, Option.bind_eq_bind]
  refine Quiet.guard _ fun tablename => whileFound_quiet (fun pos base => ?_) base
  simp only [Option.map_bind, Function.comp_def]
  refine Quiet.guard _ fun child => ?_
  cases lookAheadIndex child.children 0 .kAutoIncrement with
  | none => exact turn_quiet (pos + 1) base
  | some incpos =>
    simp only [Option.map_bind, Function.comp_def, Option.map_some]
    refine Quiet.guard _ fun id => Quiet.guard _ fun start => ?_
    exact Quiet.emit (fun _ schemaName => autoIncText schemaName tablename id.getText start)
      (pos + 1, base.set pos (child.withChildren (child.children.eraseIdx incpos)))

theorem createTableFulltextIndex_quiet (base : List Tree) :
    walker.Quiet fun ws => createTableFulltextIndex ws base := by
  refine whileFound_quiet (fun pos base => ?_) base
  dsimp only
  split
  · simp only [Option.bind_eq_bind, Option.map_bind, Function.comp_def, Option.map_some]
    exact Quiet.guard _ fun comma => Quiet.pure (pos, _)
  · exact turn_quiet pos (base.eraseIdx pos)

theorem createTableRewriteFkey_quiet (base : List Tree) :
    walker.Quiet fun ws => createTableRewriteFkey ws base := by
  refine whileFound_quiet (fun pos base => ?_) base
  simp only [Option.bind_eq_bind, Option.map_bind, Function.comp_def]
  refine Quiet.guard _ fun fkey => Quiet.guard _ fun tokens => ?_
  split
  · exact Quiet.fail
  · simp only [Option.map_bind, Function.comp_def, Option.map_some]
    exact Quiet.guard _ fun comma => Quiet.emit (fun _ _ => fkeyText _ tokens) (0, _)

theorem createTableRemoveTableOptions_quiet (base : List Tree) :
    walker.Quiet fun ws => createTableRemoveTableOptions ws base := by
  refine whileFound_quiet (fun pos base => ?_) base
  exact turn_quiet pos (base.eraseIdx pos)

theorem createTableWorker_quiet (tree : Tree) :
    walker.Quiet fun ws => createTableWorker ws tree := by
  have passes := Quiet.bind (createRewriteEnum_quiet tree.children) fun base =>
    Quiet.bind (createTableRewriteOnupdate_quiet (createRewriteDatatypes base)) fun base =>
    Quiet.bind (createRewriteStupidDate_quiet base) fun base =>
    Quiet.bind (createTableIndex_quiet base) fun base =>
    Quiet.bind (createTableRewriteAutoInc_quiet base) fun base =>
    Quiet.bind (createTableFulltextIndex_quiet base) fun base =>
    Quiet.bind (createTableRewriteFkey_quiet base) fun base =>
    Quiet.bind (createTableRemoveTableOptions_quiet base) fun base =>
    Quiet.pure (tree.withChildren base)
  exact passes

/-! ## The workers and the walk -/

/-- The first tree of a type is the one whose index the search returns. -/
theorem find?_eq_lookAheadIndex (l : List Tree) (lookfor : TokenType) :
    l.find? (hasType lookfor) = (lookAheadIndex l 0 lookfor).bind fun pos => l[pos]? := by
  rw [List.find?_eq_bind_findIdx?_getElem?, lookAheadIndex, SearchLoop.findFrom, List.drop_zero]
  simp

/-- A new text does not change which tree of a type is the first, unless it is that tree. -/
theorem find?_set_setText {l : List Tree} {pos : ℕ} {x : Tree} {lookfor : TokenType}
    (present : l[pos]? = some x) (miss : hasType lookfor x = false) (text : String) :
    (l.set pos (x.setText text)).find? (hasType lookfor) = l.find? (hasType lookfor) := by
  obtain ⟨bound, own⟩ := List.getElem?_eq_some_iff.mp present
  have missNew : hasType lookfor (x.setText text) = false := by simpa [hasType] using miss
  have split : l = l.take pos ++ x :: l.drop (pos + 1) := by
    rw [← own, List.getElem_cons_drop, List.take_append_drop]
  rw [List.set_eq_take_append_cons_drop, if_pos bound]
  conv_rhs => rw [split]
  simp only [List.find?_append, List.find?_cons, miss, missNew]

/-- The worker sets the schema to the identifier that the node names, and what it makes of the
children does not depend on the state. -/
theorem useDatabaseWorker_eq (children : List Tree) :
    ∃ rewritten, ∀ ws, useDatabaseWorker ws children =
      ((useOf children).elim ws fun name => { ws with schemaName := s!"{name}." }, rewritten) := by
  cases names : children.any (hasType .kUse) with
  | false =>
    have missing : lookAheadIndex children 0 .kUse = none := by
      rw [← Option.not_isSome_iff_eq_none, lookAheadIndex_isSome, names]
      exact Bool.false_ne_true
    exact ⟨children, fun ws => by simp [useDatabaseWorker, retextFirst, missing, useOf, names]⟩
  | true =>
    obtain ⟨pos, x, found, present, hit⟩ := lookAheadIndex_eq_some (List.any_eq_true.mp names)
    have noId : hasType .id x = false := by
      simp only [hasType, beq_iff_eq] at hit
      simp [hasType, hit]
    have same := find?_set_setText present noId "SET search_path TO"
    rw [find?_eq_lookAheadIndex] at same
    simp only [useDatabaseWorker, retextFirst, found, present, useOf, names, ← same,
      Option.bind_eq_bind, Option.bind_some, if_true]
    generalize children.set pos (x.setText "SET search_path TO") = children
    cases lookAheadIndex children 0 .id with
    | none => exact ⟨children, fun ws => rfl⟩
    | some pos =>
      cases schema : children[pos]? with
      | none => exact ⟨children, fun ws => by simp [schema]⟩
      | some schema => exact ⟨_, fun ws => by simp [schema]; rfl⟩

theorem useDatabaseWorker_local (children : List Tree) :
    walker.Local fun ws => some (useDatabaseWorker ws children) := by
  obtain ⟨rewritten, worker⟩ := useDatabaseWorker_eq children
  simp only [worker]
  cases useOf children with
  | none => exact (Quiet.pure rewritten).toLocal
  | some name =>
    refine ⟨fun _ _ => some (s!"{name}.", "", rewritten), fun ws => ?_⟩
    simp [walker]

/-- A worker that only changes its tree. -/
theorem rewrite_local (rewrite : Option Tree) :
    walker.Local fun ws => rewrite.map fun child => (ws, child) := by
  cases rewrite with
  | none => exact Quiet.fail.toLocal
  | some child => exact (Quiet.pure child).toLocal

theorem dispatch_local (rt : Runtime) (child : Tree) :
    walker.Local fun ws => dispatch rt ws child := by
  have inert : walker.Local fun ws => some (ws, child) := (Quiet.pure child).toLocal
  simp only [dispatch]
  cases child.getType with
  | tCreateTable => exact (createTableWorker_quiet child).toLocal
  | tUseDatabase => exact (useDatabaseWorker_local child.children).map child.withChildren
  | tLockTable => exact (Quiet.pure (lockTablesWorker child)).toLocal
  | tServerVariable =>
    have rewritten := rewrite_local
      ((rewriteServerVariables rt child.children).map child.withChildren)
    simpa only [Option.map_map, Function.comp_def] using rewritten
  | tShowTables =>
    have rewritten := rewrite_local ((showTablesRewrite rt child.children).map child.withChildren)
    simpa only [Option.map_map, Function.comp_def] using rewritten
  | tShowColumns =>
    have rewritten := rewrite_local ((showColumnsRewrite rt child.children).map child.withChildren)
    simpa only [Option.map_map, Function.comp_def] using rewritten
  | tFunctionIf =>
    have rewritten := rewrite_local ((rewriteIfFunction child.children).map child.withChildren)
    simpa only [Option.map_map, Function.comp_def] using rewritten
  | kFoundRows =>
    exact ⟨fun foundRows schemaName => some (schemaName, "",
      child.setText s!"{foundRows} AS \"found_rows()\""), fun ws => by
        simp [rewriteFoundRows, walker]⟩
  | _ => exact inert

mutual

theorem treeWalkWorker_local (rt : Runtime) (x : Tree) :
    walker.Local fun ws => treeWalkWorker rt ws x := by
  cases x with
  | node token children =>
    have below := (walkChildren_local rt children).map (Tree.node token)
    simpa only [treeWalkWorker, Option.bind_eq_bind, Option.map_eq_bind, Function.comp_def]
      using below

theorem walkChildren_local (rt : Runtime) (children : List Tree) :
    walker.Local fun ws => walkChildren rt ws children := by
  cases children with
  | nil =>
    simp only [walkChildren_nil]
    exact (Quiet.pure []).toLocal
  | cons child rest =>
    have turns := Local.bind (treeWalkWorker_local rt child) fun child =>
      Local.bind (dispatch_local rt child) fun child =>
      (walkChildren_local rt rest).map (List.cons child)
    simpa only [walkChildren, Option.bind_eq_bind, Option.map_eq_bind, Function.comp_def]
      using turns

end

theorem walkChild_local (rt : Runtime) (x : Tree) :
    walker.Local fun ws => walkChild rt ws x :=
  Local.bind (treeWalkWorker_local rt x) fun child => dispatch_local rt child

theorem pgify_local (rt : Runtime) (langAST : Option Tree) :
    walker.Local fun ws => pgify rt ws langAST := by
  cases langAST with
  | none => exact (Quiet.pure none).toLocal
  | some tree => exact (treeWalkWorker_local rt tree).map some

/-! ## What a walk leaves -/

/-- A local run from a state is the run from any state with the same schema name and found rows and
an empty postbuf, behind what the postbuf holds. -/
theorem resume {α : Type*} {run : WalkerState → Option (WalkerState × α)}
    (isLocal : walker.Local run) (ws fresh : WalkerState)
    (schemaName : fresh.schemaName = ws.schemaName) (foundRows : fresh.foundRows = ws.foundRows)
    (empty : fresh.postbuf = "") :
    run ws = (run fresh).map fun r =>
      (⟨r.1.schemaName, ws.postbuf ++ r.1.postbuf, ws.options, ws.foundRows⟩, r.2) := by
  obtain ⟨g, run_eq⟩ := isLocal
  have context : walker.context fresh = walker.context ws := foundRows
  have register : walker.register fresh = walker.register ws := schemaName
  rw [run_eq, run_eq, context, register]
  cases g (walker.context ws) (walker.register ws) with
  | none => rfl
  | some r => simp [walker, empty]

/-- A local run keeps options and found rows, and appends to the postbuf. -/
theorem kept {α : Type*} {run : WalkerState → Option (WalkerState × α)}
    (isLocal : walker.Local run) {ws ws' : WalkerState} {x : α} (ran : run ws = some (ws', x)) :
    ws'.options = ws.options ∧ ws'.foundRows = ws.foundRows ∧
      ∃ text, ws'.postbuf = ws.postbuf ++ text := by
  obtain ⟨g, run_eq⟩ := isLocal
  rw [run_eq] at ran
  obtain ⟨r, -, result⟩ := Option.map_eq_some_iff.mp ran
  obtain ⟨rfl, -⟩ := Prod.mk.inj result
  exact ⟨rfl, rfl, r.2.1, rfl⟩

theorem dispatch_schemaName {rt : Runtime} {ws ws' : WalkerState} {x y : Tree}
    (run : dispatch rt ws x = some (ws', y)) :
    ws'.schemaName = schemaNameAfter ws.schemaName
      (if x.getType = .tUseDatabase then (useOf x.children).toList else []) := by
  have mapped {f : Option (List Tree)} {g : List Tree → WalkerState × Tree}
      (same : ∀ l, (g l).1 = ws) (run : f.map g = some (ws', y)) : ws' = ws := by
    obtain ⟨l, -, result⟩ := Option.map_eq_some_iff.mp run
    rw [← same l, result]
  rw [dispatch] at run
  split at run
  · next type =>
    rw [type]
    exact (createTableWorker_quiet x).register_eq run
  · next type =>
    obtain ⟨rewritten, worker⟩ := useDatabaseWorker_eq x.children
    rw [worker] at run
    obtain ⟨rfl, -⟩ := Prod.mk.inj (Option.some.inj run)
    rw [if_pos type]
    cases useOf x.children <;> rfl
  · next type => cases run; rw [type]; rfl
  · next type => rw [type, mapped (fun _ => rfl) run]; rfl
  · next type => rw [type, mapped (fun _ => rfl) run]; rfl
  · next type => rw [type, mapped (fun _ => rfl) run]; rfl
  · next type => rw [type, mapped (fun _ => rfl) run]; rfl
  · next type => cases run; rw [type]; rfl
  · next noTable noUse noLock noVariable noTables noColumns noIf noRows =>
    cases run
    rw [if_neg noUse]
    rfl

/-- The walk of an identifier keeps its token. -/
theorem walkChild_id {rt : Runtime} {ws ws' : WalkerState} {x y : Tree}
    (run : walkChild rt ws x = some (ws', y)) (isId : x.getType = .id) :
    y.getText = x.getText := by
  cases x with
  | node token children =>
    rw [walkChild_inert rt ws (by rw [isId]; rfl)] at run
    obtain ⟨_, -, result⟩ := Option.map_eq_some_iff.mp run
    rw [← (Prod.mk.inj result).2]
    rfl

theorem find?_id_walked {rt : Runtime} {ws ws' : WalkerState} {l l' : List Tree}
    (run : walkChildren rt ws l = some (ws', l')) :
    (l'.find? (hasType .id)).map Tree.getText = (l.find? (hasType .id)).map Tree.getText := by
  induction l generalizing ws ws' l' with
  | nil =>
    rw [walkChildren_nil] at run
    cases run
    rfl
  | cons child rest ih =>
    rw [walkChildren_cons] at run
    obtain ⟨⟨ws₁, child'⟩, walked, run⟩ := Option.bind_eq_some_iff.mp run
    obtain ⟨⟨ws₂, rest'⟩, walkedRest, result⟩ := Option.map_eq_some_iff.mp run
    cases result
    have type : hasType .id child' = hasType .id child := by
      rw [hasType, walkChild_type walked, hasType]
    rw [List.find?_cons, List.find?_cons, type]
    cases hit : hasType .id child with
    | true => simp [walkChild_id walked (by simpa [hasType] using hit)]
    | false => exact ih walkedRest

theorem useOf_walked {rt : Runtime} {ws ws' : WalkerState} {l l' : List Tree}
    (run : walkChildren rt ws l = some (ws', l')) : useOf l' = useOf l := by
  have any (l : List Tree) :
      l.any (hasType .kUse) = (l.map Tree.getType).any fun type => type == .kUse := by
    rw [List.any_map]
    rfl
  rw [useOf, useOf, any, any, walkChildren_types run, find?_id_walked run]

mutual

/-- The schema name behind a walk is that of the last USE that it met. -/
theorem treeWalkWorker_schemaName {rt : Runtime} {ws ws' : WalkerState} {x y : Tree}
    (run : treeWalkWorker rt ws x = some (ws', y)) :
    ws'.schemaName = schemaNameAfter ws.schemaName (usesBelow x) := by
  cases x with
  | node token children =>
    simp only [treeWalkWorker, Option.bind_eq_bind] at run
    obtain ⟨⟨ws₁, children'⟩, walked, result⟩ := Option.bind_eq_some_iff.mp run
    cases result
    exact walkChildren_schemaName walked

theorem walkChildren_schemaName {rt : Runtime} {ws ws' : WalkerState} {l l' : List Tree}
    (run : walkChildren rt ws l = some (ws', l')) :
    ws'.schemaName = schemaNameAfter ws.schemaName (usesOf l) := by
  cases l with
  | nil =>
    rw [walkChildren_nil] at run
    cases run
    rfl
  | cons child rest =>
    simp only [walkChildren, Option.bind_eq_bind] at run
    obtain ⟨⟨ws₁, child₁⟩, walked, run⟩ := Option.bind_eq_some_iff.mp run
    obtain ⟨⟨ws₂, child₂⟩, handed, run⟩ := Option.bind_eq_some_iff.mp run
    obtain ⟨⟨ws₃, rest'⟩, walkedRest, result⟩ := Option.bind_eq_some_iff.mp run
    cases result
    have use : (if child₁.getType = .tUseDatabase then (useOf child₁.children).toList else []) =
        if child.getType = .tUseDatabase then (useOf child.children).toList else [] := by
      cases child with
      | node token children =>
        simp only [treeWalkWorker, Option.bind_eq_bind] at walked
        obtain ⟨⟨ws₀, children'⟩, walkedBelow, same⟩ := Option.bind_eq_some_iff.mp walked
        cases same
        rw [Tree.children_node, Tree.children_node, useOf_walked walkedBelow]
        rfl
    rw [usesOf, schemaNameAfter_append, schemaNameAfter_append,
      ← treeWalkWorker_schemaName walked, ← use, ← dispatch_schemaName handed]
    exact walkChildren_schemaName walkedRest

end

end WalkLocality

end Pgify.Model
