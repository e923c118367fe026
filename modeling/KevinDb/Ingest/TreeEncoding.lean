import KevinDb.Ingest.TreeIndex
import KevinDb.Lib.NestedSet
import KevinDb.Lib.Ranking

namespace KevinDb
set_option autoImplicit true

variable {runs sorted : List RunTreeInput} {run : RunTreeInput} {span parent : String}
  {forest : OrderedForest String} {place : ForestPlace String} {roots : List String} {fuel : Nat}
  {walk : TreeWalk}

instance : Std.Total RunTreeInput.before := by
  constructor
  intro a b
  have hspan := le_total a.spanId b.spanId
  rw [RunTreeInput.before, RunTreeInput.before]
  grind

instance : IsTrans RunTreeInput RunTreeInput.before := by
  constructor
  intro a b c hab hbc
  have hspan := @le_trans _ _ a.spanId b.spanId c.spanId
  rw [RunTreeInput.before] at hab hbc ⊢
  grind

/-- The spans under a span, in the order of the index. -/
abbrev childrenOf (sorted : List RunTreeInput) (span : String) : List String :=
  childSpans sorted (some span)

theorem childSpans_sublist (sorted : List RunTreeInput) (kept : Option String) :
    (childSpans sorted kept).Sublist (sorted.map RunTreeInput.spanId) := by
  rw [childSpans, show sorted.map RunTreeInput.spanId =
    (sorted.map (indexRunInput (parentTable sorted))).map fun input => input.run.spanId by
      rw [List.map_map]
      rfl]
  exact List.filter_sublist.map _

theorem mem_childSpans_iff (hnodup : (sorted.map RunTreeInput.spanId).Nodup)
    {kept : Option String} : span ∈ childSpans sorted kept ↔
      span ∈ sorted.map RunTreeInput.spanId ∧ keptParent sorted span = kept := by
  rw [mem_childSpans, List.mem_map]
  constructor
  · rintro ⟨run, hrun, hparent, rfl⟩
    exact ⟨⟨run, hrun, rfl⟩, (keptParent_run hnodup hrun).trans hparent⟩
  · rintro ⟨⟨run, hrun, rfl⟩, hparent⟩
    exact ⟨run, hrun, (keptParent_run hnodup hrun).symm.trans hparent, rfl⟩

theorem keptParent_of_mem (hnodup : (sorted.map RunTreeInput.spanId).Nodup) :
    ∀ span parent, span ∈ childrenOf sorted parent → keptParent sorted span = some parent :=
  fun _ _ hspan => ((mem_childSpans_iff hnodup).1 hspan).2

theorem mem_childrenOf (hnodup : (sorted.map RunTreeInput.spanId).Nodup) :
    ∀ span parent, keptParent sorted span = some parent → span ∈ childrenOf sorted parent := by
  intro span parent hparent
  refine (mem_childSpans_iff hnodup).2 ⟨?_, hparent⟩
  obtain ⟨run, hrun, rfl, -⟩ := (keptParent_eq_some hnodup).1 hparent
  exact List.mem_map_of_mem hrun

/-- The forest of the parents that the index keeps. -/
theorem exists_keptForest (hnodup : (sorted.map RunTreeInput.spanId).Nodup) :
    ∃ forest, OrderedForest.Grows (childrenOf sorted) (childSpans sorted none) forest ∧
      forest.height ≤ sorted.length := by
  have hbound : ∀ span ∈ sorted.map RunTreeInput.spanId, ∀ path,
      (keptParent sorted).Path span path → path.length ≤ sorted.length := by
    intro span hspan path hpath
    obtain ⟨run, hrun, rfl⟩ := List.mem_map.1 hspan
    obtain ⟨path', hpath', hlength⟩ := exists_keptPath hnodup hrun
    rwa [hpath.unique hpath']
  have hdepth : ∀ root ∈ childSpans sorted none, ∃ path,
      (keptParent sorted).Path root path ∧ path.length = 1 :=
    fun root hroot => ⟨[root], .root ((mem_childSpans_iff hnodup).1 hroot).2, rfl⟩
  exact OrderedForest.exists_grows (keptParent_of_mem hnodup)
    (fun span => (childSpans_sublist sorted (some span)).subset) hbound rfl
    (childSpans_sublist sorted none).subset hdepth

/-- Every run is in the forest once. -/
theorem keptForest_perm (hnodup : (sorted.map RunTreeInput.spanId).Nodup)
    (hforest : OrderedForest.Grows (childrenOf sorted) (childSpans sorted none) forest) :
    forest.values.Perm (sorted.map RunTreeInput.spanId) := by
  have hsub : ∀ span ∈ forest.values, span ∈ sorted.map RunTreeInput.spanId := by
    intro span hspan
    obtain ⟨root, hroot, hreach⟩ := hforest.reaches (keptParent_of_mem hnodup) hspan
    rcases Relation.ReflTransGen.cases_head hreach with rfl | ⟨parent, hparent, -⟩
    · exact (childSpans_sublist sorted none).subset hroot
    · exact (childSpans_sublist sorted _).subset (mem_childrenOf hnodup _ _ hparent)
  have hpaths : ∀ span ∈ forest.values, ∃ path, (keptParent sorted).Path span path := by
    intro span hspan
    obtain ⟨run, hrun, rfl⟩ := List.mem_map.1 (hsub span hspan)
    obtain ⟨path, hpath, -⟩ := exists_keptPath hnodup hrun
    exact ⟨path, hpath⟩
  have hdistinct : forest.values.Nodup := by
    apply hforest.values_nodup (keptParent_of_mem hnodup)
    · exact hnodup.sublist (childSpans_sublist sorted none)
    · exact fun span => hnodup.sublist (childSpans_sublist sorted (some span))
    · intro root hroot
      exact ⟨[root], .root ((mem_childSpans_iff hnodup).1 hroot).2, rfl⟩
    · exact hpaths
  rw [List.perm_ext_iff_of_nodup hdistinct hnodup]
  refine fun span => ⟨hsub span, fun hspan => ?_⟩
  obtain ⟨run, hrun, rfl⟩ := List.mem_map.1 hspan
  obtain ⟨path, hpath, -⟩ := exists_keptPath hnodup hrun
  apply hforest.mem_values hpath _ (mem_childrenOf hnodup)
  intro other hother hnone
  refine (mem_childSpans_iff hnodup).2 ⟨?_, hnone⟩
  exact hpath.subset (fun _ _ _ hparent => ((keptParent_eq_some hnodup).1 hparent).elim
    fun _ h => h.2.2.2.1) hspan hother

/-- The input of a span. -/
def treeInputOf (sorted : List RunTreeInput) (span : String) : IndexedRunInput :=
  (inputTable sorted)[span]?.getD (indexRunInput ∅ ⟨span, none, "", "", 0⟩)

/-- The node of an entry of the nested set. -/
def treeNode (sorted : List RunTreeInput) (entry : NestedSetEntry String) : RunTreeIndexNode :=
  let input := treeInputOf sorted entry.value
  { spanId := input.run.spanId
    runId := input.run.runId
    generatedRunId := input.run.generatedRunId
    parentSpanId := input.effectiveParent
    rootSpanId := entry.root
    rootRunId := rootRunIdOf sorted entry.root
    depth := entry.depth
    siblingOrder := entry.position
    subtreeStart := entry.left
    subtreeEnd := entry.right
    descendantCount := entry.below
    unresolvedParent := input.unresolvedParent
    cycleDetected := input.cycleDetected }

theorem get_treeInputOf (hnodup : (sorted.map RunTreeInput.spanId).Nodup)
    (hspan : span ∈ sorted.map RunTreeInput.spanId) :
    (inputTable sorted)[span]? = some (treeInputOf sorted span) := by
  obtain ⟨run, hrun, rfl⟩ := List.mem_map.1 hspan
  have hinput := (get_inputTable hnodup).2 ⟨run, hrun, rfl, rfl⟩
  rw [treeInputOf, hinput]
  rfl

/-- The visits of the children of a node. -/
def visitChildren (sorted : List RunTreeInput) (root : String) (fuel : Nat) (depth : Int)
    (children : List (String × Nat)) (acc : TreeWalk × Int) : TreeWalk × Int :=
  children.foldl (fun acc child =>
    let (next, count) := visitTreeNode (inputTable sorted) (childSpans sorted) root
      (rootRunIdOf sorted root) fuel child.1 depth child.2 acc.1
    (next, acc.2 + (1 + count))) acc

/-- A visit adds the nodes of the forest, and counts them. -/
def VisitAdds (sorted : List RunTreeInput) (place : ForestPlace String)
    (forest : OrderedForest String) (walk : TreeWalk) (count : Int) (after : TreeWalk × Int) :
    Prop :=
  after.1.nextOrder = place.left + 2 * forest.size ∧ after.2 = count + forest.size ∧
    after.1.nodes.Perm (walk.nodes ++ (forest.entries place).map (treeNode sorted))

/-- A node is visited with those below it. -/
theorem visitTreeNode_adds {below : OrderedForest String} {root : String}
    (hinput : (inputTable sorted)[span]? = some (treeInputOf sorted span))
    (hroot : root = place.root.getD span)
    (hbelow : VisitAdds sorted (place.down span) below ⟨place.left + 1, walk.nodes⟩ 0
      (visitChildren sorted root fuel (place.depth + 1) (childrenOf sorted span).zipIdx
        (⟨place.left + 1, walk.nodes⟩, 0)))
    (hwalk : walk.nextOrder = place.left) :
    let after := visitTreeNode (inputTable sorted) (childSpans sorted) root
      (rootRunIdOf sorted root) (fuel + 1) span place.depth place.position walk
    after.1.nextOrder = place.left + 2 * (below.size + 1) ∧ after.2 = below.size ∧
      after.1.nodes.Perm (walk.nodes ++ treeNode sorted (place.entry span below.size) ::
        (below.entries (place.down span)).map (treeNode sorted)) := by
  intro after
  obtain ⟨hnext, hcount, hperm⟩ := hbelow
  have hafter : after = visitTreeNode (inputTable sorted) (childSpans sorted) root
    (rootRunIdOf sorted root) (fuel + 1) span place.depth place.position walk := rfl
  rw [visitTreeNode, hinput] at hafter
  dsimp only at hafter
  rw [hwalk] at hafter
  rw [visitChildren] at hnext hcount hperm
  simp only [childrenOf] at hnext hcount hperm
  generalize (childSpans sorted (some span)).zipIdx.foldl _ _ = done at hnext hcount hperm hafter
  have hleft : (place.down span).left = place.left + 1 := rfl
  rw [hleft] at hnext
  rw [hafter]
  refine ⟨?_, ?_, ?_⟩
  · rw [hnext]
    push_cast
    ring
  · rw [hcount, zero_add]
  · refine (hperm.append_right _).trans ?_
    rw [List.append_assoc]
    refine List.Perm.append_left _ ?_
    have hend : done.1.nextOrder = ((place.left + 2 * below.size + 1 : ℕ) : ℤ) := by
      rw [hnext]
      push_cast
      ring
    have hnode : treeNode sorted (place.entry span below.size) =
        { spanId := (treeInputOf sorted span).run.spanId
          runId := (treeInputOf sorted span).run.runId
          generatedRunId := (treeInputOf sorted span).run.generatedRunId
          parentSpanId := (treeInputOf sorted span).effectiveParent
          rootSpanId := root
          rootRunId := rootRunIdOf sorted root
          depth := place.depth
          siblingOrder := place.position
          subtreeStart := place.left
          subtreeEnd := done.1.nextOrder
          descendantCount := done.2
          unresolvedParent := (treeInputOf sorted span).unresolvedParent
          cycleDetected := (treeInputOf sorted span).cycleDetected } := by
      rw [hend, hcount, zero_add, hroot]
      rfl
    rw [hnode]
    exact List.perm_append_singleton _ _

/-- The nodes of a list of children are visited with those below them. -/
theorem visitChildren_adds {root : String} (hnodup : (sorted.map RunTreeInput.spanId).Nodup)
    (h : OrderedForest.Grows (childrenOf sorted) roots forest)
    (hspans : ∀ span ∈ forest.values, span ∈ sorted.map RunTreeInput.spanId)
    (hheight : forest.height ≤ fuel) (hroot : place.root = some root)
    (hwalk : walk.nextOrder = place.left) (count : Int) :
    VisitAdds sorted place forest walk count
      (visitChildren sorted root fuel place.depth (roots.zipIdx place.position) (walk, count)) := by
  induction h generalizing fuel place walk count with
  | nil =>
    refine ⟨?_, ?_, ?_⟩
    · rw [OrderedForest.size]
      simpa [visitChildren] using hwalk
    · simp [visitChildren, OrderedForest.size]
    · simp [visitChildren, OrderedForest.entries]
  | @cons value below roots rest hbelow hrest ihBelow ihRest =>
    rw [OrderedForest.values, List.forall_mem_cons, List.forall_mem_append] at hspans
    rw [OrderedForest.height, max_le_iff] at hheight
    obtain ⟨fuel, rfl⟩ := Nat.exists_eq_succ_of_ne_zero
      (Nat.ne_of_gt (Nat.lt_of_lt_of_le (Nat.zero_lt_succ _) hheight.1))
    have hdown : VisitAdds sorted (place.down value) below ⟨place.left + 1, walk.nodes⟩ 0
        (visitChildren sorted root fuel (place.down value).depth
          (childrenOf sorted value).zipIdx (⟨place.left + 1, walk.nodes⟩, 0)) :=
      ihBelow hspans.2.1 (Nat.le_of_succ_le_succ hheight.1)
        (by rw [ForestPlace.down, hroot]; rfl) rfl 0
    have hone := visitTreeNode_adds (get_treeInputOf hnodup hspans.1)
      (by rw [hroot]; rfl) hdown hwalk
    generalize hafter : visitTreeNode (inputTable sorted) (childSpans sorted) root
      (rootRunIdOf sorted root) (fuel + 1) value place.depth place.position walk = after at hone
    obtain ⟨hnext, hcount, hperm⟩ := hone
    have hleft : after.1.nextOrder = (place.next below.size).left := by
      rw [hnext, ForestPlace.next]
      push_cast
      rfl
    have hrest : VisitAdds sorted (place.next below.size) rest after.1 (count + (1 + after.2))
        (visitChildren sorted root (fuel + 1) place.depth (roots.zipIdx (place.position + 1))
          (after.1, count + (1 + after.2))) :=
      @ihRest (place.next below.size) _ after.1 hspans.2.2 hheight.2 hroot hleft _
    obtain ⟨hnext', hcount', hperm'⟩ := hrest
    have hfold : visitChildren sorted root (fuel + 1) place.depth
        ((value :: roots).zipIdx place.position) (walk, count) =
          visitChildren sorted root (fuel + 1) place.depth (roots.zipIdx (place.position + 1))
            (after.1, count + (1 + after.2)) := by
      rw [visitChildren, List.zipIdx_cons, List.foldl_cons, ← hafter]
      rfl
    rw [hfold]
    refine ⟨?_, ?_, ?_⟩
    · refine hnext'.trans ?_
      rw [ForestPlace.next, OrderedForest.size]
      push_cast
      ring
    · refine hcount'.trans ?_
      rw [hcount, OrderedForest.size]
      push_cast
      ring
    · refine (hperm'.trans (hperm.append_right _)).trans (.of_eq ?_)
      rw [OrderedForest.entries, List.map_cons, List.map_append, List.append_assoc,
        List.cons_append]

/-- The roots are visited with those below them. -/
theorem visitRoots_adds (place : ForestPlace String) (walk : TreeWalk) (hnodup : (sorted.map RunTreeInput.spanId).Nodup)
    (h : OrderedForest.Grows (childrenOf sorted) roots forest)
    (hspans : ∀ span ∈ forest.values, span ∈ sorted.map RunTreeInput.spanId)
    (hheight : forest.height ≤ fuel) (hroot : place.root = none) (hdepth : place.depth = 0)
    (hwalk : walk.nextOrder = place.left) :
    ((roots.zipIdx place.position).foldl (fun walk root =>
      (visitTreeNode (inputTable sorted) (childSpans sorted) root.1 (rootRunIdOf sorted root.1)
        fuel root.1 0 root.2 walk).1) walk).nodes.Perm
          (walk.nodes ++ (forest.entries place).map (treeNode sorted)) := by
  induction h generalizing place walk with
  | nil => rw [OrderedForest.entries, List.map_nil, List.append_nil]; rfl
  | @cons value below roots rest hbelow hrest _ ihRest =>
    rw [OrderedForest.values, List.forall_mem_cons, List.forall_mem_append] at hspans
    rw [OrderedForest.height, max_le_iff] at hheight
    have hpos : fuel ≠ 0 := Nat.ne_of_gt (Nat.lt_of_lt_of_le (Nat.zero_lt_succ _) hheight.1)
    have hdown : VisitAdds sorted (place.down value) below ⟨place.left + 1, walk.nodes⟩ 0
        (visitChildren sorted value (fuel - 1) (place.down value).depth
          (childrenOf sorted value).zipIdx (⟨place.left + 1, walk.nodes⟩, 0)) :=
      visitChildren_adds hnodup hbelow hspans.2.1 (by omega)
        (by rw [ForestPlace.down, hroot]; rfl) rfl 0
    have hone := visitTreeNode_adds (get_treeInputOf hnodup hspans.1)
      (by rw [hroot]; rfl) hdown hwalk
    rw [Nat.sub_one_add_one hpos, hdepth] at hone
    rw [List.zipIdx_cons, List.foldl_cons]
    change (List.foldl _ (visitTreeNode (inputTable sorted) (childSpans sorted) value
      (rootRunIdOf sorted value) fuel value (0 : ℕ) place.position walk).1 _).nodes.Perm _
    generalize visitTreeNode (inputTable sorted) (childSpans sorted) value
      (rootRunIdOf sorted value) fuel value (0 : ℕ) place.position walk = after at hone ⊢
    obtain ⟨hnext, -, hperm⟩ := hone
    have hleft : after.1.nextOrder = (place.next below.size).left := by
      rw [hnext, ForestPlace.next]
      push_cast
      rfl
    have hrest := ihRest (place.next below.size) after.1 hspans.2.2 hheight.2 hroot hdepth hleft
    refine hrest.trans ((hperm.append_right _).trans (.of_eq ?_))
    rw [OrderedForest.entries, List.map_cons, List.map_append, List.append_assoc,
      List.cons_append]

/-- The index of runs is the nested set of the forest of the parents that it keeps. -/
theorem buildTraceTreeIndex_eq (hnodup : (runs.map RunTreeInput.spanId).Nodup) :
    ∃ forest, OrderedForest.Grows (childrenOf (runs.insertionSort RunTreeInput.before))
        (childSpans (runs.insertionSort RunTreeInput.before) none) forest ∧
      buildTraceTreeIndex runs =
        (forest.entries .start).map (treeNode (runs.insertionSort RunTreeInput.before)) := by
  have hsorted : ((runs.insertionSort RunTreeInput.before).map RunTreeInput.spanId).Nodup :=
    ((List.perm_insertionSort _ runs).map _).nodup_iff.2 hnodup
  generalize hruns : runs.insertionSort RunTreeInput.before = sorted at hsorted
  obtain ⟨forest, hforest, hheight⟩ := exists_keptForest hsorted
  refine ⟨forest, hforest, ?_⟩
  have hperm : (treeWalk sorted).nodes.Perm
      ((forest.entries .start).map (treeNode sorted)) := by
    refine visitRoots_adds .start ⟨0, []⟩ hsorted hforest (fun span hspan => ?_)
      (Nat.le_succ_of_le hheight) rfl rfl rfl
    exact (keptForest_perm hsorted hforest).subset hspan
  have hindex : buildTraceTreeIndex runs = (treeWalk sorted).nodes.insertionSort
      fun left right => left.subtreeStart ≤ right.subtreeStart := by
    rw [← hruns]
    rfl
  rw [hindex]
  apply insertionSort_key hperm
  rw [List.pairwise_map]
  apply (OrderedForest.entries_pairwise_left forest .start).imp
  exact fun hleft => Int.ofNat_lt.2 hleft

/-- The effective parent of a span, as the nodes of an index record it. -/
def nodeParent (nodes : List RunTreeIndexNode) : Parents String :=
  fun span => (nodes.find? fun node => node.spanId = span).bind RunTreeIndexNode.parentSpanId

/-- The interval of the first node has that of the second one strictly within it. -/
def RunTreeIndexNode.Encloses (outer inner : RunTreeIndexNode) : Prop :=
  outer.subtreeStart < inner.subtreeStart ∧ inner.subtreeEnd < outer.subtreeEnd

/-- The siblings of a node, among the runs. -/
def siblings (runs : List RunTreeInput) (nodes : List RunTreeIndexNode) (node : RunTreeIndexNode) :
    List RunTreeInput :=
  runs.filter fun run => nodeParent nodes run.spanId = node.parentSpanId

/-- The nodes encode the forest of the effective parents of runs as a nested set. -/
structure IsNestedSet (runs : List RunTreeInput) (nodes : List RunTreeIndexNode) : Prop where
  spans : (nodes.map RunTreeIndexNode.spanId).Perm (runs.map RunTreeInput.spanId)
  parents : ∀ node ∈ nodes, ∀ run ∈ runs, run.spanId = node.spanId → ∀ parent,
    node.parentSpanId = some parent ↔ run.parentSpanId = some parent ∧ run.keepsParent runs parent
  acyclic : ∀ span, ¬ Relation.TransGen (nodeParent nodes).Up span span
  ends : (nodes.flatMap fun node => [node.subtreeStart, node.subtreeEnd]).Nodup
  proper : ∀ node ∈ nodes, node.subtreeStart < node.subtreeEnd
  nested : ∀ a ∈ nodes, ∀ b ∈ nodes, a = b ∨ a.Encloses b ∨ b.Encloses a ∨
    a.subtreeEnd < b.subtreeStart ∨ b.subtreeEnd < a.subtreeStart
  encloses : ∀ a ∈ nodes, ∀ b ∈ nodes, a.Encloses b ↔
    Relation.TransGen (nodeParent nodes).Up b.spanId a.spanId
  path : ∀ node ∈ nodes, ∃ path, (nodeParent nodes).Path node.spanId path ∧
    (path.length : ℤ) = node.depth + 1 ∧ path.getLast? = some node.rootSpanId
  descendants : ∀ node ∈ nodes, node.descendantCount =
    Set.ncard {span | Relation.TransGen (nodeParent nodes).Up span node.spanId}
  siblingOrder : ∀ node ∈ nodes, ∀ run ∈ runs, run.spanId = node.spanId →
    node.siblingOrder = rank RunTreeInput.before (siblings runs nodes node) run

/-- What is known of the forest that an index encodes. -/
structure KeptForest (sorted : List RunTreeInput) (forest : OrderedForest String) : Prop where
  nodup : (sorted.map RunTreeInput.spanId).Nodup
  grows : OrderedForest.Grows (childrenOf sorted) (childSpans sorted none) forest

namespace KeptForest

variable {entry a b : NestedSetEntry String}

theorem mem_spans (h : KeptForest sorted forest) (hentry : entry ∈ forest.entries .start) :
    entry.value ∈ sorted.map RunTreeInput.spanId := by
  apply (keptForest_perm h.nodup h.grows).subset
  rw [← OrderedForest.values_entries forest .start]
  exact List.mem_map_of_mem hentry

theorem values_nodup (h : KeptForest sorted forest) : forest.values.Nodup :=
  (keptForest_perm h.nodup h.grows).nodup_iff.2 h.nodup

theorem roots_eq_none (h : KeptForest sorted forest) :
    ∀ root ∈ childSpans sorted none, keptParent sorted root = none :=
  fun _ hroot => ((mem_childSpans_iff h.nodup).1 hroot).2

theorem spanId_treeNode (h : KeptForest sorted forest) (hentry : entry ∈ forest.entries .start) :
    (treeNode sorted entry).spanId = entry.value := by
  obtain ⟨run, -, hspan, hinput⟩ :=
    (get_inputTable h.nodup).1 (get_treeInputOf h.nodup (h.mem_spans hentry))
  rw [treeNode, ← hinput]
  exact hspan

theorem parentSpanId_treeNode (h : KeptForest sorted forest)
    (hentry : entry ∈ forest.entries .start) :
    (treeNode sorted entry).parentSpanId = keptParent sorted entry.value := by
  rw [keptParent, get_treeInputOf h.nodup (h.mem_spans hentry)]
  rfl

theorem map_spanId (h : KeptForest sorted forest) :
    ((forest.entries .start).map (treeNode sorted)).map RunTreeIndexNode.spanId =
      forest.values := by
  rw [List.map_map, ← OrderedForest.values_entries forest .start]
  exact List.map_congr_left fun entry hentry => h.spanId_treeNode hentry

/-- The effective parents that the nodes record are those that the index keeps. -/
theorem nodeParent_eq (h : KeptForest sorted forest) :
    nodeParent ((forest.entries .start).map (treeNode sorted)) = keptParent sorted := by
  funext span
  rw [nodeParent]
  cases hfind : ((forest.entries .start).map (treeNode sorted)).find?
      fun node => node.spanId = span with
  | some node =>
    obtain ⟨entry, hentry, rfl⟩ := List.mem_map.1 (List.mem_of_find?_eq_some hfind)
    have hspan : (treeNode sorted entry).spanId = span := by simpa using List.find?_some hfind
    rw [Option.bind_some, h.parentSpanId_treeNode hentry, ← hspan, h.spanId_treeNode hentry]
  | none =>
    rw [Option.bind_none]
    symm
    by_contra hsome
    obtain ⟨parent, hparent⟩ := Option.ne_none_iff_exists'.1 hsome
    obtain ⟨run, hrun, rfl, -⟩ := (keptParent_eq_some h.nodup).1 hparent
    have hmem := (keptForest_perm h.nodup h.grows).mem_iff.2 (List.mem_map_of_mem hrun)
    rw [← h.map_spanId] at hmem
    obtain ⟨node, hnode, hspan⟩ := List.mem_map.1 hmem
    exact List.find?_eq_none.1 hfind node hnode (decide_eq_true hspan)

theorem encloses_iff (h : KeptForest sorted forest) (ha : a ∈ forest.entries .start)
    (hb : b ∈ forest.entries .start) :
    (treeNode sorted a).Encloses (treeNode sorted b) ↔
      Relation.TransGen (keptParent sorted).Up b.value a.value := by
  rw [← h.grows.contains_iff (keptParent_of_mem h.nodup) h.values_nodup h.roots_eq_none ha hb]
  exact and_congr Int.ofNat_lt Int.ofNat_lt

theorem childSpans_eq (h : KeptForest sorted forest) (kept : Option String) :
    childSpans sorted kept = (sorted.filter fun run =>
      keptParent sorted run.spanId = kept).map RunTreeInput.spanId := by
  rw [childSpans, List.filter_map, List.map_map]
  refine congrArg _ (List.filter_congr fun run hrun => ?_)
  rw [keptParent_run h.nodup hrun]
  rfl

/-- The position of a run among the spans under its effective parent. -/
theorem getElem_position (h : KeptForest sorted forest) (hentry : entry ∈ forest.entries .start) :
    (childSpans sorted (keptParent sorted entry.value))[entry.position]? = some entry.value := by
  have hkept : entry.parent = keptParent sorted entry.value :=
    h.grows.entry_parent (keptParent_of_mem h.nodup) h.roots_eq_none hentry
  rw [← hkept]
  rcases h.grows.entry_position hentry with ⟨parent, hparent, hposition⟩ | ⟨hparent, n, hn, hroot⟩
  · rw [hparent]
    exact hposition
  · rw [hparent, hn, ForestPlace.start, Nat.zero_add]
    exact hroot

/-- The position of a run is its rank among its siblings. -/
theorem position_eq_rank (h : KeptForest (runs.insertionSort RunTreeInput.before) forest)
    (hentry : entry ∈ forest.entries .start) (hrun : run ∈ runs)
    (hspan : run.spanId = entry.value) :
    entry.position = rank RunTreeInput.before (runs.filter fun other =>
      keptParent (runs.insertionSort RunTreeInput.before) other.spanId =
        keptParent (runs.insertionSort RunTreeInput.before) entry.value) run := by
  have hperm := List.perm_insertionSort RunTreeInput.before runs
  have hsorted := List.pairwise_insertionSort RunTreeInput.before runs
  generalize runs.insertionSort RunTreeInput.before = sorted at *
  have hposition := h.getElem_position hentry
  rw [h.childSpans_eq, List.getElem?_map, Option.map_eq_some_iff] at hposition
  obtain ⟨found, hfound, hfoundSpan⟩ := hposition
  have hmem := (List.mem_filter.1 (List.mem_of_getElem? hfound)).1
  have hsame : found = run := by
    apply List.inj_on_of_nodup_map h.nodup hmem (hperm.mem_iff.2 hrun)
    rw [hfoundSpan, hspan]
  subst hsame
  have hnodup : (sorted.filter fun run => keptParent sorted run.spanId =
      keptParent sorted entry.value).Nodup := (List.Nodup.of_map _ h.nodup).filter _
  have huntied : Untied RunTreeInput.before (sorted.filter fun run =>
      keptParent sorted run.spanId = keptParent sorted entry.value) := by
    intro a ha b hb hab hba
    apply List.inj_on_of_nodup_map h.nodup (List.mem_filter.1 ha).1 (List.mem_filter.1 hb).1
    have hspans := @le_antisymm _ _ a.spanId b.spanId
    rw [RunTreeInput.before] at hab hba
    grind
  have hindex := rank_le_index (hsorted.filter _) hfound
  rw [rankEnd_untied huntied hnodup (List.mem_of_getElem? hfound)] at hindex
  rw [← rank_perm (hperm.filter _)]
  omega

end KeptForest

/-- The index of a trace is a nested-set encoding of the forest of its effective parents. -/
theorem buildTraceTreeIndex_isNestedSet (hnodup : (runs.map RunTreeInput.spanId).Nodup) :
    IsNestedSet runs (buildTraceTreeIndex runs) := by
  obtain ⟨forest, hgrows, heq⟩ := buildTraceTreeIndex_eq hnodup
  have hperm := List.perm_insertionSort RunTreeInput.before runs
  have h : KeptForest (runs.insertionSort RunTreeInput.before) forest :=
    ⟨(hperm.map _).nodup_iff.2 hnodup, hgrows⟩
  have hparent := h.nodeParent_eq
  rw [heq]
  constructor
  · rw [h.map_spanId]
    exact (keptForest_perm h.nodup hgrows).trans (hperm.map _)
  · intro node hnode run hrun hspan parent
    obtain ⟨entry, hentry, rfl⟩ := List.mem_map.1 hnode
    rw [h.spanId_treeNode hentry] at hspan
    rw [h.parentSpanId_treeNode hentry, ← hspan, keptParent_run h.nodup (hperm.mem_iff.2 hrun),
      effectiveParent_eq_some h.nodup hperm]
  · intro span hcycle
    rw [hparent] at hcycle
    obtain ⟨parent, hstep, -⟩ := Relation.TransGen.head'_iff.1 hcycle
    obtain ⟨run, hrun, rfl, -⟩ := (keptParent_eq_some h.nodup).1 hstep
    obtain ⟨path, hpath, -⟩ := exists_keptPath h.nodup hrun
    exact hpath.not_transGen hcycle
  · have hends := (OrderedForest.entries_ends_nodup forest .start).map Int.ofNat_injective
    rw [List.map_flatMap] at hends
    rw [List.flatMap_map]
    exact hends
  · intro node hnode
    obtain ⟨entry, hentry, rfl⟩ := List.mem_map.1 hnode
    exact Int.ofNat_lt.2 (OrderedForest.entries_bounds hentry).2.1
  · intro outer houter inner hinner
    obtain ⟨a, ha, rfl⟩ := List.mem_map.1 houter
    obtain ⟨b, hb, rfl⟩ := List.mem_map.1 hinner
    rcases OrderedForest.entries_nested ha hb with rfl | hab | hba | hab | hba
    · exact .inl rfl
    · exact .inr (.inl ⟨Int.ofNat_lt.2 hab.1, Int.ofNat_lt.2 hab.2⟩)
    · exact .inr (.inr (.inl ⟨Int.ofNat_lt.2 hba.1, Int.ofNat_lt.2 hba.2⟩))
    · exact .inr (.inr (.inr (.inl (Int.ofNat_lt.2 hab))))
    · exact .inr (.inr (.inr (.inr (Int.ofNat_lt.2 hba))))
  · intro outer houter inner hinner
    obtain ⟨a, ha, rfl⟩ := List.mem_map.1 houter
    obtain ⟨b, hb, rfl⟩ := List.mem_map.1 hinner
    rw [hparent, h.encloses_iff ha hb, h.spanId_treeNode ha, h.spanId_treeNode hb]
  · intro node hnode
    obtain ⟨entry, hentry, rfl⟩ := List.mem_map.1 hnode
    obtain ⟨path, hpath, hlength, hlast⟩ :=
      hgrows.entry_path (keptParent_of_mem h.nodup) h.roots_eq_none hentry
    rw [hparent, h.spanId_treeNode hentry]
    exact ⟨path, hpath, congrArg Nat.cast hlength, hlast⟩
  · intro node hnode
    obtain ⟨entry, hentry, rfl⟩ := List.mem_map.1 hnode
    rw [hparent, h.spanId_treeNode hentry]
    exact congrArg Nat.cast (hgrows.entry_below (keptParent_of_mem h.nodup) h.values_nodup
      h.roots_eq_none (mem_childrenOf h.nodup) hentry)
  · intro node hnode run hrun hspan
    obtain ⟨entry, hentry, rfl⟩ := List.mem_map.1 hnode
    rw [h.spanId_treeNode hentry] at hspan
    rw [siblings, hparent, h.parentSpanId_treeNode hentry]
    exact congrArg Nat.cast (h.position_eq_rank hentry hrun hspan)

/-- A chain that leads into a cycle, and a run whose parent is missing. -/
theorem buildTraceTreeIndex_isNestedSet_cycle :
    let runs : List RunTreeInput := [⟨"a", some "b", "", "g1", 1⟩, ⟨"b", some "a", "", "g2", 2⟩,
      ⟨"c", some "a", "", "g3", 3⟩, ⟨"d", some "x", "", "g4", 0⟩]
    IsNestedSet runs (buildTraceTreeIndex runs) :=
  buildTraceTreeIndex_isNestedSet (by decide)

end KevinDb
