import KevinDb.Query.TraceTree

namespace KevinDb
set_option autoImplicit true

variable {nodes : List RunTreeIndexNode} {runs : List RunTreeInput} {loaded : List RunSummary}
  {sorted : List RunTreeInput} {forest : OrderedForest String} {db : Db}
  {projectName traceId span : String} {turns : Nat} {kept : Option String}

/-- The spans under a span of an index, or its roots, in sibling order. -/
def indexChildren (nodes : List RunTreeIndexNode) (parent : Option String) : List String :=
  ((nodes.filter fun node => node.parentSpanId = parent).insertionSort fun left right =>
    left.siblingOrder ≤ right.siblingOrder).map RunTreeIndexNode.spanId

/-- The roots and the children of a tree are those of an index, in the same order. -/
def TraceTree.HasForest (tree : TraceTree) (nodes : List RunTreeIndexNode) : Prop :=
  OrderedForest.Grows (fun span => indexChildren nodes (some span)) (indexChildren nodes none)
    (tree.roots.map RunSummary.spanId)

/-- The runs come in the order of an index, with the parents that it keeps. -/
def FollowsIndex (loaded : List RunSummary) (nodes : List RunTreeIndexNode) : Prop :=
  loaded.map (fun run => (run.spanId, run.parentSpanId)) =
    nodes.map fun node => (node.spanId, node.parentSpanId)

theorem FollowsIndex.map_spanId (h : FollowsIndex loaded nodes) :
    loaded.map RunSummary.spanId = nodes.map RunTreeIndexNode.spanId := by
  have hfst := congrArg (List.map Prod.fst) h
  rwa [List.map_map, List.map_map] at hfst

theorem FollowsIndex.filter_parent (h : FollowsIndex loaded nodes) (kept : Option String) :
    (loaded.filter fun run => run.parentSpanId = kept).map RunSummary.spanId =
      (nodes.filter fun node => node.parentSpanId = kept).map RunTreeIndexNode.spanId := by
  have hpairs := congrArg (fun pairs : List (String × Option String) =>
    (pairs.filter fun pair => pair.2 = kept).map Prod.fst) h
  simp only [List.filter_map, List.map_map] at hpairs
  exact hpairs

/-- The tree nodes of a trace are the index of some runs. -/
def Db.StoresTree (db : Db) (projectName traceId : String) (runs : List RunTreeInput) : Prop :=
  ∀ (span : String) (node : RunTreeIndexNode),
    db.runTreeNodes[(⟨projectName, traceId, span⟩ : RunKey)]? = some node ↔
      node ∈ buildTraceTreeIndex runs ∧ node.spanId = span

namespace KeptForest

/-- The nodes under a span come in the order of its children. -/
theorem filter_parent (h : KeptForest sorted forest) (kept : Option String) :
    ((((forest.entries .start).map (treeNode sorted)).filter fun node =>
      node.parentSpanId = kept).map RunTreeIndexNode.spanId) = childSpans sorted kept := by
  have hvalues : (((forest.entries .start).map (treeNode sorted)).filter fun node =>
      node.parentSpanId = kept).map RunTreeIndexNode.spanId =
        forest.values.filter fun span => keptParent sorted span = kept := by
    rw [← OrderedForest.values_entries forest .start, List.filter_map, List.filter_map,
      List.map_map]
    have hfilter : (forest.entries .start).filter
        ((fun node => decide (node.parentSpanId = kept)) ∘ treeNode sorted) =
          (forest.entries .start).filter
            ((fun span => decide (keptParent sorted span = kept)) ∘ NestedSetEntry.value) := by
      refine List.filter_congr fun entry hentry => ?_
      rw [Function.comp, Function.comp, h.parentSpanId_treeNode hentry]
    rw [hfilter]
    exact List.map_congr_left fun entry hentry => h.spanId_treeNode (List.mem_filter.1 hentry).1
  have hup := h.grows.filter_up (keptParent_of_mem h.nodup) h.values_nodup h.roots_eq_none
    (fun _ _ => nofun)
  rw [hvalues]
  cases kept with
  | none => exact hup.1
  | some parent =>
    by_cases hparent : parent ∈ forest.values
    · exact hup.2 parent hparent
    · -- a span that no run has is the parent of none
      have hnone : ∀ span, keptParent sorted span ≠ some parent := by
        intro span hsome
        obtain ⟨run, -, -, -, hkeeps⟩ := (keptParent_eq_some h.nodup).1 hsome
        exact hparent ((keptForest_perm h.nodup h.grows).mem_iff.2 hkeeps.1)
      rw [List.filter_eq_nil_iff.2 fun span _ => by simpa using hnone span]
      symm
      rw [List.eq_nil_iff_forall_not_mem]
      exact fun span hspan => hnone span ((mem_childSpans_iff h.nodup).1 hspan).2

/-- Sibling order is the order of the children. -/
theorem indexChildren_eq (h : KeptForest sorted forest) (kept : Option String) :
    indexChildren ((forest.entries .start).map (treeNode sorted)) kept = childSpans sorted kept := by
  have hchildren := h.filter_parent kept
  rw [indexChildren]
  generalize hsiblings : ((forest.entries .start).map (treeNode sorted)).filter
    (fun node => decide (node.parentSpanId = kept)) = siblings at hchildren ⊢
  have hposition : ∀ (i : ℕ) (node : RunTreeIndexNode), siblings[i]? = some node →
      node.siblingOrder = i := by
    intro i node hnode
    have hmem := List.mem_of_getElem? hnode
    rw [← hsiblings, List.mem_filter] at hmem
    obtain ⟨entry, hentry, rfl⟩ := List.mem_map.1 hmem.1
    have hkept := of_decide_eq_true hmem.2
    rw [h.parentSpanId_treeNode hentry] at hkept
    have hplace := h.getElem_position hentry
    have hindex : (childSpans sorted kept)[i]? = some entry.value := by
      rw [← hchildren, List.getElem?_map, hnode, Option.map_some, h.spanId_treeNode hentry]
    rw [hkept] at hplace
    have hnodup := h.nodup.sublist (childSpans_sublist sorted kept)
    have hsame := (List.getElem?_inj (List.getElem?_eq_some_iff.1 hplace).1 hnodup
      (j := i)).1 (hplace.trans hindex.symm)
    exact congrArg Nat.cast hsame
  rw [insertionSort_key (.refl siblings), hchildren]
  rw [List.pairwise_iff_getElem]
  intro i j hi hj hij
  rw [hposition i _ (List.getElem?_eq_getElem hi), hposition j _ (List.getElem?_eq_getElem hj)]
  exact Int.ofNat_lt.2 hij

/-- The spans under a span are those of the runs that follow the index. -/
theorem childrenByParent_eq (h : KeptForest sorted forest)
    (hloaded : FollowsIndex loaded ((forest.entries .start).map (treeNode sorted)))
    (kept : Option String) : childrenByParent loaded kept = childSpans sorted kept := by
  have hspans : loaded.map RunSummary.spanId = forest.values :=
    hloaded.map_spanId.trans h.map_spanId
  have hknown : ∀ run ∈ loaded, knownParent loaded run = run.parentSpanId := by
    intro run hrun
    have hpair := List.mem_map_of_mem (f := fun run : RunSummary =>
      (run.spanId, run.parentSpanId)) hrun
    rw [hloaded] at hpair
    obtain ⟨node, hnode, heq⟩ := List.mem_map.1 hpair
    obtain ⟨entry, hentry, rfl⟩ := List.mem_map.1 hnode
    rw [knownParent]
    cases hparent : run.parentSpanId with
    | none => rfl
    | some parent =>
      rw [← (Prod.mk.inj heq).2, h.parentSpanId_treeNode hentry] at hparent
      obtain ⟨found, -, -, -, hkeeps⟩ := (keptParent_eq_some h.nodup).1 hparent
      refine Option.filter_eq_some_iff.2 ⟨rfl, decide_eq_true ?_⟩
      rw [hspans]
      exact (keptForest_perm h.nodup h.grows).mem_iff.2 hkeeps.1
  rw [childrenByParent, List.filter_congr fun run hrun => by rw [hknown run hrun],
    hloaded.filter_parent, h.filter_parent]

end KeptForest

/-- The tree of runs that follow an index has the forest of the index. -/
theorem traceTreeFromRuns_hasForest (projectName traceId : String)
    (hnodup : (runs.map RunTreeInput.spanId).Nodup)
    (hloaded : FollowsIndex loaded (buildTraceTreeIndex runs)) (hturns : loaded.length < turns) :
    ∃ tree, traceTreeFromRuns turns projectName traceId loaded = some tree ∧
      tree.HasForest (buildTraceTreeIndex runs) := by
  obtain ⟨forest, hgrows, heq⟩ := buildTraceTreeIndex_eq hnodup
  have hperm := List.perm_insertionSort RunTreeInput.before runs
  have h : KeptForest (runs.insertionSort RunTreeInput.before) forest :=
    ⟨(hperm.map _).nodup_iff.2 hnodup, hgrows⟩
  rw [heq] at hloaded ⊢
  generalize runs.insertionSort RunTreeInput.before = sorted at *
  have hspans : loaded.map RunSummary.spanId = forest.values :=
    hloaded.map_spanId.trans h.map_spanId
  have hdistinct : (loaded.map RunSummary.spanId).Nodup := hspans ▸ h.values_nodup
  have hheight : forest.height ≤ turns := by
    obtain ⟨forest', hgrows', hheight⟩ := exists_keptForest h.nodup
    have hlength := (keptForest_perm h.nodup h.grows).length_eq
    rw [← hspans, List.length_map, List.length_map] at hlength
    rw [h.grows.unique hgrows']
    omega
  obtain ⟨roots, others, search, after, hroots, htree, hfirst, hsecond⟩ :=
    traceTreeFromRuns_collects projectName traceId hdistinct hturns
  have hchildren : childrenByParent loaded = childSpans sorted := by
    funext kept
    exact h.childrenByParent_eq hloaded kept
  have hgrown : OrderedForest.Grows (fun span => childrenByParent loaded (some span))
      (childrenByParent loaded none) forest := by
    rw [hchildren]
    exact h.grows
  have hfresh : ∀ span ∈ forest.values,
      span ∉ (TreeSearch.mk [] []).visited ∧ span ∉ (TreeSearch.mk [] []).active :=
    fun _ _ => ⟨List.not_mem_nil, List.not_mem_nil⟩
  obtain ⟨built, _, hbuilt, hmap, -⟩ := collectNodes_grows
    (fun span run hrun => ((get_runsById hdistinct).1 hrun).2) hgrown
    (fun span hspan => mem_runsById hdistinct (hspans ▸ hspan)) h.values_nodup hfresh hheight
  rw [hroots] at hbuilt
  cases hbuilt
  -- the roots lead to every run
  have hothers : others = .nil := by
    cases others with
    | nil => rfl
    | cons run below rest =>
      have hrun := ((get_runsById hdistinct).1 (hsecond.runs run List.mem_cons_self)).1
      have hmem : run.spanId ∈ roots.values.map RunSummary.spanId := by
        rw [← OrderedForest.values_map, hmap, ← hspans]
        exact List.mem_map_of_mem hrun
      exact absurd ((hfirst.visited _).2 (.inr hmem)) (hsecond.fresh run List.mem_cons_self)
  refine ⟨_, htree, ?_⟩
  rw [TraceTree.HasForest, hothers, OrderedForest.append_nil, hmap, h.indexChildren_eq]
  simp only [h.indexChildren_eq]
  exact h.grows

instance : Std.Total traceTreeRowBefore := by
  constructor
  intro a b
  have hspan := le_total a.2.spanId b.2.spanId
  rw [traceTreeRowBefore, traceTreeRowBefore, RunSummary.before, RunSummary.before]
  grind

instance : IsTrans (Int × RunSummary) traceTreeRowBefore := by
  constructor
  intro a b c hab hbc
  have hspan := @le_trans _ _ a.2.spanId b.2.spanId c.2.spanId
  rw [traceTreeRowBefore, RunSummary.before] at hab hbc ⊢
  grind

theorem buildTraceTreeIndex_pairwise (hnodup : (runs.map RunTreeInput.spanId).Nodup) :
    (buildTraceTreeIndex runs).Pairwise fun a b => a.subtreeStart < b.subtreeStart := by
  obtain ⟨forest, -, heq⟩ := buildTraceTreeIndex_eq hnodup
  rw [heq, List.pairwise_map]
  exact (OrderedForest.entries_pairwise_left forest .start).imp Int.ofNat_lt.2

/-- The rows of a trace are the nodes of its index. -/
theorem Db.StoresTree.perm (h : db.StoresTree projectName traceId runs)
    (hnodup : (runs.map RunTreeInput.spanId).Nodup) :
    (db.runTreeNodes.toList.filter fun row =>
        row.1.projectName = projectName ∧ row.1.traceId = traceId).Perm
      ((buildTraceTreeIndex runs).map fun node => (⟨projectName, traceId, node.spanId⟩, node)) := by
  have hspans : ((buildTraceTreeIndex runs).map RunTreeIndexNode.spanId).Nodup :=
    (buildTraceTreeIndex_isNestedSet hnodup).spans.nodup_iff.2 hnodup
  have hrows : db.runTreeNodes.toList.Nodup :=
    List.Nodup.of_map Prod.fst (Std.TreeMap.map_fst_toList_eq_keys ▸ Std.TreeMap.nodup_keys)
  have hnodes : ((buildTraceTreeIndex runs).map fun node =>
      ((⟨projectName, traceId, node.spanId⟩ : RunKey), node)).Nodup := by
    apply List.Nodup.of_map fun row => row.1.spanId
    rw [List.map_map]
    exact hspans
  rw [List.perm_ext_iff_of_nodup (hrows.filter _) hnodes]
  rintro ⟨⟨project, trace, span⟩, node⟩
  simp only [List.mem_filter, Std.TreeMap.mem_toList_iff_getElem?_eq_some, decide_eq_true_eq,
    List.mem_map, Prod.mk.injEq, RunKey.mk.injEq]
  constructor
  · rintro ⟨hget, rfl, rfl⟩
    obtain ⟨hnode, rfl⟩ := (h span node).1 hget
    exact ⟨node, hnode, ⟨rfl, rfl, rfl⟩, rfl⟩
  · rintro ⟨found, hfound, ⟨rfl, rfl, rfl⟩, rfl⟩
    exact ⟨(h _ _).2 ⟨hfound, rfl⟩, rfl, rfl⟩

/-- If all the runs are live, they are loaded as the index has them. -/
theorem Db.StoresTree.followsIndex (h : db.StoresTree projectName traceId runs)
    (hnodup : (runs.map RunTreeInput.spanId).Nodup)
    (hlive : ∀ run ∈ runs, (db.liveHead ⟨projectName, traceId, run.spanId⟩).isSome) :
    FollowsIndex (db.loadTraceTreeRuns projectName traceId) (buildTraceTreeIndex runs) := by
  have hset := buildTraceTreeIndex_isNestedSet hnodup
  have hsorted := buildTraceTreeIndex_pairwise hnodup
  have hperm := h.perm hnodup
  have hliveSpan : ∀ span ∈ runs.map RunTreeInput.spanId,
      ∃ head, db.liveHead ⟨projectName, traceId, span⟩ = some head := by
    intro span hspan
    obtain ⟨run, hrun, rfl⟩ := List.mem_map.1 hspan
    exact Option.isSome_iff_exists.1 (hlive run hrun)
  have hparent : ∀ node ∈ buildTraceTreeIndex runs, ∀ parent, node.parentSpanId = some parent →
      parent ∈ runs.map RunTreeInput.spanId := by
    intro node hnode parent hparent
    obtain ⟨run, hrun, hspan⟩ := List.mem_map.1 (hset.spans.subset (List.mem_map_of_mem hnode))
    exact ((hset.parents node hnode run hrun hspan parent).1 hparent).2.1
  have hspan : ∀ node ∈ buildTraceTreeIndex runs, node.spanId ∈ runs.map RunTreeInput.spanId :=
    fun node hnode => hset.spans.subset (List.mem_map_of_mem hnode)
  generalize buildTraceTreeIndex runs = nodes at *
  have hrows := hperm.filterMap fun row => (db.liveHead row.1).map fun head =>
    (row.2.subtreeStart, db.traceTreeRun row.1 row.2 head)
  rw [List.filterMap_map] at hrows
  have hstrict : (nodes.filterMap ((fun row : RunKey × RunTreeIndexNode =>
      (db.liveHead row.1).map fun head => (row.2.subtreeStart, db.traceTreeRun row.1 row.2 head)) ∘
        fun node => (⟨projectName, traceId, node.spanId⟩, node))).Pairwise fun a b =>
          traceTreeRowBefore a b ∧ ¬ traceTreeRowBefore b a := by
    rw [List.pairwise_filterMap]
    apply hsorted.imp
    intro a b hlt row hrow row' hrow'
    obtain ⟨head, -, rfl⟩ := Option.map_eq_some_iff.1 hrow
    obtain ⟨head', -, rfl⟩ := Option.map_eq_some_iff.1 hrow'
    refine ⟨.inl hlt, ?_⟩
    rintro (hback | ⟨heq, -⟩)
    · exact Int.lt_asymm hlt hback
    · exact Int.ne_of_gt hlt heq
  rw [FollowsIndex, Db.loadTraceTreeRuns]
  rw [insertionSort_strict hrows hstrict, List.map_map, List.map_filterMap, ← List.filterMap_eq_map]
  refine List.filterMap_congr fun node hnode => ?_
  obtain ⟨head, hhead⟩ := hliveSpan node.spanId (hspan node hnode)
  have hkept : (node.parentSpanId.filter fun parent =>
      (db.liveHead ⟨projectName, traceId, parent⟩).isSome) = node.parentSpanId := by
    cases hcase : node.parentSpanId with
    | none => rfl
    | some parent =>
      obtain ⟨head, hhead⟩ := hliveSpan parent (hparent node hnode parent hcase)
      exact Option.filter_eq_some_iff.2 ⟨rfl, by rw [hhead]; rfl⟩
  simp only [Function.comp, hhead, Option.map_some, Db.traceTreeRun, hkept]

/-- The tree of the loaded runs of a trace has the forest of its index, and the tree of any runs has
each of them once, under its parent or as a root. -/
theorem traceTreeFromRuns_inverts (projectName traceId : String) :
    (∀ (runs : List RunTreeInput) (loaded : List RunSummary),
      (runs.map RunTreeInput.spanId).Nodup → FollowsIndex loaded (buildTraceTreeIndex runs) →
      ∀ turns > loaded.length, ∃ tree,
        traceTreeFromRuns turns projectName traceId loaded = some tree ∧
          tree.HasForest (buildTraceTreeIndex runs)) ∧
    (∀ (db : Db) (runs : List RunTreeInput), (runs.map RunTreeInput.spanId).Nodup →
      db.StoresTree projectName traceId runs →
      (∀ run ∈ runs, (db.liveHead ⟨projectName, traceId, run.spanId⟩).isSome) →
      FollowsIndex (db.loadTraceTreeRuns projectName traceId) (buildTraceTreeIndex runs)) ∧
    (∀ runs : List RunSummary, (runs.map RunSummary.spanId).Nodup → ∀ turns > runs.length,
      ∃ tree, traceTreeFromRuns turns projectName traceId runs = some tree ∧
        tree.roots.values.Perm runs ∧
        tree.roots.Edges fun parent child => child.parentSpanId = some parent.spanId) := by
  refine ⟨?_, ?_, ?_⟩
  · intro runs loaded hnodup hloaded turns hturns
    exact traceTreeFromRuns_hasForest projectName traceId hnodup hloaded hturns
  · intro db runs hnodup hstores hlive
    exact hstores.followsIndex hnodup hlive
  · intro runs hnodup turns hturns
    exact exists_traceTree projectName traceId hnodup hturns

instance (loaded : List RunSummary) (nodes : List RunTreeIndexNode) :
    Decidable (FollowsIndex loaded nodes) :=
  inferInstanceAs (Decidable (_ = _))

def RunSummary.sample (spanId : String) (parentSpanId : Option String) : RunSummary :=
  ⟨"p", none, "t", spanId, none, parentSpanId, "", "", .success, 0, 0, false, "\x7b\x7d"⟩

/-- The index cuts a cycle, and its tree is rebuilt. The tree of the runs on the cycle has each of
them. -/
theorem traceTreeFromRuns_inverts_cycle :
    let runs : List RunTreeInput := [⟨"a", none, "", "g1", 1⟩, ⟨"b", some "a", "", "g2", 4⟩,
      ⟨"c", some "a", "", "g3", 3⟩, ⟨"d", some "e", "", "g4", 5⟩, ⟨"e", some "d", "", "g5", 6⟩]
    let loaded : List RunSummary := [.sample "a" none, .sample "c" (some "a"),
      .sample "b" (some "a"), .sample "d" none, .sample "e" none]
    let cyclic : List RunSummary := [.sample "d" (some "e"), .sample "e" (some "d")]
    (∃ tree, traceTreeFromRuns 6 "p" "t" loaded = some tree ∧
      tree.HasForest (buildTraceTreeIndex runs)) ∧
    ∃ tree, traceTreeFromRuns 3 "p" "t" cyclic = some tree ∧ tree.roots.values.Perm cyclic ∧
      tree.roots.Edges fun parent child => child.parentSpanId = some parent.spanId := by
  obtain ⟨hinverse, -, hany⟩ := traceTreeFromRuns_inverts "p" "t"
  exact ⟨hinverse _ _ (by decide) (by decide +kernel) 6 (by decide),
    hany _ (by decide) 3 (by decide)⟩

end KevinDb
