import KevinDb.Ingest.TreeEncoding
import KevinDb.Query.List
import KevinDb.Query.TreeModes

namespace KevinDb
set_option autoImplicit true

structure RunNode where
  run : RunSummary
  children : OrderedForest RunSummary

structure TraceTree where
  projectName : String
  traceId : String
  roots : OrderedForest RunSummary

/-- The spans that the builder has visited, and those whose children it is building. -/
structure TreeSearch where
  visited : List String
  active : List String

/-- What a node that was built adds to a list of nodes. -/
def RunNode.forest : Option RunNode → OrderedForest RunSummary
  | none => .nil
  | some node => .cons node.run node.children .nil

/-- The nodes that are built for some spans. -/
def collectNodes (build : String → TreeSearch → Option (Option RunNode × TreeSearch)) :
    List String → TreeSearch → Option (OrderedForest RunSummary × TreeSearch)
  | [], search => some (.nil, search)
  | span :: spans, search => do
    let (node, search) ← build span search
    let (rest, search) ← collectNodes build spans search
    return ((RunNode.forest node).append rest, search)

/-- `build_run_node`, with the turns that its recursion may take. -/
def buildRunNode (runsById : Table String RunSummary)
    (childrenByParent : Option String → List String) :
    Nat → String → TreeSearch → Option (Option RunNode × TreeSearch)
  | 0, _, _ => none
  | turns + 1, spanId, search => do
    if spanId ∈ search.active ∨ spanId ∈ search.visited then return (none, search)
    let entered := ⟨spanId :: search.visited, spanId :: search.active⟩
    let (children, left) ← collectNodes (buildRunNode runsById childrenByParent turns)
      (childrenByParent (some spanId)) entered
    return (runsById[spanId]?.map fun run => ⟨run, children⟩,
      { left with active := left.active.erase spanId })

/-- The parent of a run, if it is one of the runs. -/
def knownParent (runs : List RunSummary) (run : RunSummary) : Option String :=
  run.parentSpanId.filter fun parent => parent ∈ runs.map RunSummary.spanId

def childrenByParent (runs : List RunSummary) (parent : Option String) : List String :=
  (runs.filter fun run => knownParent runs run = parent).map RunSummary.spanId

def runsById (runs : List RunSummary) : Table String RunSummary :=
  runs.foldl (fun table run => table.insert run.spanId run) ∅

/-- `trace_tree_from_runs`, with the turns that the recursion of each node may take. -/
def traceTreeFromRuns (turns : Nat) (projectName traceId : String) (runs : List RunSummary) :
    Option TraceTree := do
  let build := buildRunNode (runsById runs) (childrenByParent runs) turns
  let (roots, search) ← collectNodes build (childrenByParent runs none) ⟨[], []⟩
  -- the runs that no root leads to
  let (others, _) ← collectNodes
    (fun spanId search => if spanId ∈ search.visited then some (none, search)
      else build spanId search)
    (runs.map RunSummary.spanId) search
  return ⟨projectName, traceId, roots.append others⟩

/-- A row of `load_trace_tree_runs`: a run with its parent, if the parent is live. -/
def Db.traceTreeRun (db : Db) (k : RunKey) (node : RunTreeIndexNode) (head : RunHead) :
    RunSummary :=
  let liveParent := node.parentSpanId.filter fun parent =>
    (db.liveHead { k with spanId := parent }).isSome
  { projectName := k.projectName
    runId := if head.runId = "" then none else some head.runId
    traceId := k.traceId
    spanId := k.spanId
    parentRunId := liveParent.bind fun _ => head.parentRunId
    parentSpanId := liveParent
    name := head.name
    runType := head.runType
    status := head.status
    startTimeUnixNano := head.startTimeUnixNano
    endTimeUnixNano := head.endTimeUnixNano
    isRoot := node.parentSpanId.isNone
    attributesJson := "\x7b\x7d" }

/-- The order of the rows: by the start of the subtree, then by start time and span id. -/
def traceTreeRowBefore (left right : Int × RunSummary) : Prop :=
  left.1 < right.1 ∨ (left.1 = right.1 ∧ left.2.before right.2)

instance : DecidableRel traceTreeRowBefore := fun left right =>
  inferInstanceAs (Decidable (left.1 < right.1 ∨ (left.1 = right.1 ∧ left.2.before right.2)))

def Db.loadTraceTreeRuns (db : Db) (projectName traceId : String) : List RunSummary :=
  let nodes := db.runTreeNodes.toList.filter fun row =>
    row.1.projectName = projectName ∧ row.1.traceId = traceId
  let rows := nodes.filterMap fun row => (db.liveHead row.1).map fun head =>
    (row.2.subtreeStart, db.traceTreeRun row.1 row.2 head)
  (rows.insertionSort traceTreeRowBefore).map Prod.snd

variable {known : Table String RunSummary} {children : Option String → List String}
  {spans spans' : List String} {search middle after : TreeSearch}
  {forest others : OrderedForest RunSummary} {turns : Nat} {runs loaded : List RunSummary}
  {span : String} {run : RunSummary}

/-- The known spans that are still to be visited. -/
def TreeSearch.unvisited (search : TreeSearch) (known : Table String RunSummary) : Nat :=
  (known.keys.toFinset \ search.visited.toFinset).card

theorem TreeSearch.unvisited_mono (h : search.visited ⊆ after.visited) :
    after.unvisited known ≤ search.unvisited known := by
  apply Finset.card_le_card
  apply Finset.sdiff_subset_sdiff (Finset.Subset.refl _)
  intro span hspan
  exact List.mem_toFinset.2 (h (List.mem_toFinset.1 hspan))

theorem TreeSearch.unvisited_lt (hspan : span ∈ known) (hfresh : span ∉ search.visited)
    (active : List String) :
    (TreeSearch.mk (span :: search.visited) active).unvisited known < search.unvisited known := by
  rw [TreeSearch.unvisited, TreeSearch.unvisited, List.toFinset_cons, Finset.sdiff_insert]
  apply Finset.card_erase_lt_of_mem
  rw [Finset.mem_sdiff, List.mem_toFinset, List.mem_toFinset]
  exact ⟨Std.TreeMap.mem_keys.2 hspan, hfresh⟩

/-- The nodes built for some spans: every run that is reached once, under a parent of its. -/
structure Collected (known : Table String RunSummary) (children : Option String → List String)
    (spans : List String) (search after : TreeSearch) (forest : OrderedForest RunSummary) :
    Prop where
  active : after.active = search.active
  visited : ∀ span, span ∈ after.visited ↔
    span ∈ search.visited ∨ span ∈ forest.values.map RunSummary.spanId
  fresh : ∀ run ∈ forest.values, run.spanId ∉ search.visited
  nodup : (forest.values.map RunSummary.spanId).Nodup
  runs : ∀ run ∈ forest.values, known[run.spanId]? = some run
  covers : spans ⊆ after.visited
  edges : forest.Edges fun parent child => child.spanId ∈ children (some parent.spanId)
  tops : ∀ run ∈ forest.tops, run.spanId ∈ spans

theorem Collected.nil (hspans : spans ⊆ search.visited) :
    Collected known children spans search search .nil where
  active := rfl
  visited := fun span => by simp [OrderedForest.values]
  fresh := nofun
  nodup := List.nodup_nil
  runs := nofun
  covers := hspans
  edges := trivial
  tops := nofun

theorem Collected.mono (h : Collected known children spans search after forest) :
    search.visited ⊆ after.visited :=
  fun span hspan => (h.visited span).2 (.inl hspan)

theorem Collected.append (h : Collected known children spans search middle forest)
    (h' : Collected known children spans' middle after others) :
    Collected known children (spans ++ spans') search after (forest.append others) where
  active := h'.active.trans h.active
  visited := fun span => by
    rw [h'.visited, h.visited, OrderedForest.values_append, List.map_append, List.mem_append,
      or_assoc]
  fresh := fun run hrun => by
    rw [OrderedForest.values_append, List.mem_append] at hrun
    rcases hrun with hrun | hrun
    · exact h.fresh run hrun
    · exact fun hvisited => h'.fresh run hrun (h.mono hvisited)
  nodup := by
    rw [OrderedForest.values_append, List.map_append, List.nodup_append]
    refine ⟨h.nodup, h'.nodup, ?_⟩
    intro span hspan span' hspan' heq
    obtain ⟨run, hrun, rfl⟩ := List.mem_map.1 hspan'
    exact h'.fresh run hrun (heq ▸ (h.visited span).2 (.inr hspan))
  runs := fun run hrun => by
    rw [OrderedForest.values_append, List.mem_append] at hrun
    exact hrun.elim (h.runs run) (h'.runs run)
  covers := List.append_subset.2 ⟨List.Subset.trans h.covers h'.mono, h'.covers⟩
  edges := h.edges.append h'.edges
  tops := fun run hrun => by
    rw [OrderedForest.tops_append, List.mem_append] at hrun
    exact List.mem_append.2 (hrun.imp (h.tops run) (h'.tops run))

theorem collectNodes_cons {node : Option RunNode}
    {build : String → TreeSearch → Option (Option RunNode × TreeSearch)}
    (hnode : build span search = some (node, middle))
    (hrest : collectNodes build spans middle = some (others, after)) :
    collectNodes build (span :: spans) search =
      some ((RunNode.forest node).append others, after) := by
  rw [collectNodes, hnode]
  change (collectNodes build spans middle).bind _ = _
  rw [hrest]
  rfl

/-- A loop over known spans collects their nodes, if each of them is built. -/
theorem collectNodes_collects
    {build : String → TreeSearch → Option (Option RunNode × TreeSearch)}
    (hbuild : ∀ span ∈ known, ∀ search : TreeSearch, search.active ⊆ search.visited →
      search.unvisited known < turns → ∃ node after, build span search = some (node, after) ∧
        Collected known children [span] search after (RunNode.forest node))
    (hspans : ∀ span ∈ spans, span ∈ known) (hactive : search.active ⊆ search.visited)
    (hturns : search.unvisited known < turns) :
    ∃ forest after, collectNodes build spans search = some (forest, after) ∧
      Collected known children spans search after forest := by
  induction spans generalizing search with
  | nil => exact ⟨.nil, search, rfl, .nil (List.nil_subset _)⟩
  | cons span spans ih =>
    rw [List.forall_mem_cons] at hspans
    obtain ⟨node, middle, hnode, hone⟩ := hbuild span hspans.1 search hactive hturns
    have hactive' : middle.active ⊆ middle.visited := by
      rw [hone.active]
      exact List.Subset.trans hactive hone.mono
    obtain ⟨rest, after, hrest, hall⟩ := ih hspans.2 hactive'
      (Nat.lt_of_le_of_lt (TreeSearch.unvisited_mono hone.mono) hturns)
    exact ⟨_, after, collectNodes_cons hnode hrest, hone.append hall⟩

/-- A span that is new becomes a node with the nodes built for its children. -/
theorem buildRunNode_new (hactive : span ∉ search.active) (hvisited : span ∉ search.visited)
    (hbelow : collectNodes (buildRunNode known children turns) (children (some span))
      ⟨span :: search.visited, span :: search.active⟩ = some (forest, after))
    (hrun : known[span]? = some run) :
    buildRunNode known children (turns + 1) span search =
      some (some ⟨run, forest⟩, { after with active := after.active.erase span }) := by
  rw [buildRunNode, if_neg (not_or.2 ⟨hactive, hvisited⟩)]
  change (collectNodes _ _ _).bind _ = _
  rw [hbelow, hrun]
  rfl

theorem buildRunNode_old (h : span ∈ search.active ∨ span ∈ search.visited) :
    buildRunNode known children (turns + 1) span search = some (none, search) := by
  rw [buildRunNode, if_pos h]
  rfl

/-- A node is built with enough turns for the spans that are still to be visited. -/
theorem buildRunNode_collects (hknown : ∀ (span : String) (run : RunSummary), known[span]? = some run → run.spanId = span)
    (hchildren : ∀ parent, ∀ span ∈ children parent, span ∈ known) (turns : Nat) :
    ∀ span ∈ known, ∀ search : TreeSearch, search.active ⊆ search.visited →
      search.unvisited known < turns → ∃ node after,
        buildRunNode known children turns span search = some (node, after) ∧
          Collected known children [span] search after (RunNode.forest node) := by
  induction turns with
  | zero => exact fun _ _ _ _ hturns => absurd hturns (Nat.not_lt_zero _)
  | succ turns ih =>
    intro span hspan search hactive hturns
    by_cases hvisited : span ∈ search.visited
    · refine ⟨none, search, buildRunNode_old (.inr hvisited), .nil ?_⟩
      exact List.cons_subset.2 ⟨hvisited, List.nil_subset _⟩
    · have hunvisited := TreeSearch.unvisited_lt hspan hvisited (span :: search.active)
      obtain ⟨below, left, hbelow, hall⟩ := collectNodes_collects ih (hchildren (some span))
        (List.cons_subset_cons span hactive)
        (Nat.lt_of_lt_of_le hunvisited (Nat.le_of_lt_succ hturns))
      obtain ⟨run, hrun⟩ := Option.isSome_iff_exists.1
        (Std.TreeMap.mem_iff_isSome_getElem?.1 hspan)
      obtain rfl := hknown span run hrun
      refine ⟨_, _, buildRunNode_new (fun h => hvisited (hactive h)) hvisited hbelow hrun, ?_⟩
      constructor
      · rw [hall.active, List.erase_cons_head]
      · intro span
        rw [hall.visited, List.mem_cons]
        simp only [RunNode.forest, OrderedForest.values, List.append_nil, List.map_cons,
          List.mem_cons]
        exact or_assoc.trans or_left_comm
      · intro other hother hmem
        rw [RunNode.forest, OrderedForest.values, OrderedForest.values, List.append_nil,
          List.mem_cons] at hother
        rcases hother with rfl | hother
        · exact hvisited hmem
        · exact hall.fresh other hother (List.mem_cons_of_mem _ hmem)
      · rw [RunNode.forest, OrderedForest.values, OrderedForest.values, List.append_nil,
          List.map_cons, List.nodup_cons]
        refine ⟨fun hmem => ?_, hall.nodup⟩
        obtain ⟨other, hother, heq⟩ := List.mem_map.1 hmem
        exact hall.fresh other hother (heq ▸ List.mem_cons_self)
      · intro other hother
        rw [RunNode.forest, OrderedForest.values, OrderedForest.values, List.append_nil,
          List.mem_cons] at hother
        rcases hother with rfl | hother
        · exact hrun
        · exact hall.runs other hother
      · exact List.cons_subset.2 ⟨hall.mono List.mem_cons_self, List.nil_subset _⟩
      · exact ⟨hall.tops, hall.edges, trivial⟩
      · intro other hother
        rw [RunNode.forest, OrderedForest.tops, OrderedForest.tops, List.mem_singleton] at hother
        rw [hother]
        exact List.mem_cons_self

theorem get_runsById (hnodup : (runs.map RunSummary.spanId).Nodup) :
    (runsById runs)[span]? = some run ↔ run ∈ runs ∧ run.spanId = span := by
  refine (Table.get_foldl_insert runs RunSummary.spanId id hnodup span run).trans ?_
  constructor
  · rintro ⟨found, hfound, hspan, rfl⟩
    exact ⟨hfound, hspan⟩
  · rintro ⟨hrun, hspan⟩
    exact ⟨run, hrun, hspan, rfl⟩

theorem mem_runsById (hnodup : (runs.map RunSummary.spanId).Nodup)
    (hspan : span ∈ runs.map RunSummary.spanId) : span ∈ runsById runs := by
  obtain ⟨run, hrun, hspan⟩ := List.mem_map.1 hspan
  rw [Std.TreeMap.mem_iff_isSome_getElem?, (get_runsById hnodup).2 ⟨hrun, hspan⟩]
  rfl

theorem childrenByParent_subset (runs : List RunSummary) (parent : Option String) :
    childrenByParent runs parent ⊆ runs.map RunSummary.spanId :=
  (List.filter_sublist.map _).subset

/-- Enough turns build the trees of the roots, and then those of the other runs. -/
theorem traceTreeFromRuns_collects (projectName traceId : String)
    (hnodup : (runs.map RunSummary.spanId).Nodup) (hturns : runs.length < turns) :
    ∃ roots others search after,
      collectNodes (buildRunNode (runsById runs) (childrenByParent runs) turns)
          (childrenByParent runs none) ⟨[], []⟩ = some (roots, search) ∧
      traceTreeFromRuns turns projectName traceId runs =
        some ⟨projectName, traceId, roots.append others⟩ ∧
      Collected (runsById runs) (childrenByParent runs) (childrenByParent runs none) ⟨[], []⟩
          search roots ∧
      Collected (runsById runs) (childrenByParent runs) (runs.map RunSummary.spanId) search after
          others := by
  have hknown : ∀ (span : String) (run : RunSummary), (runsById runs)[span]? = some run →
      run.spanId = span := fun span run hrun => ((get_runsById hnodup).1 hrun).2
  have hchildren : ∀ parent, ∀ span ∈ childrenByParent runs parent, span ∈ runsById runs :=
    fun parent span hspan => mem_runsById hnodup (childrenByParent_subset runs parent hspan)
  have hbuild := buildRunNode_collects hknown hchildren turns
  have hunvisited : (TreeSearch.mk [] []).unvisited (runsById runs) < turns := by
    refine Nat.lt_of_le_of_lt ?_ hturns
    have hsub : (runsById runs).keys.toFinset ⊆ (runs.map RunSummary.spanId).toFinset := by
      intro span hspan
      rw [List.mem_toFinset, Std.TreeMap.mem_keys, Std.TreeMap.mem_iff_isSome_getElem?,
        Option.isSome_iff_exists] at hspan
      obtain ⟨run, hrun⟩ := hspan
      obtain ⟨hmem, rfl⟩ := (get_runsById hnodup).1 hrun
      exact List.mem_toFinset.2 (List.mem_map_of_mem hmem)
    have hcard := (Finset.card_le_card hsub).trans (List.toFinset_card_le _)
    rw [List.length_map] at hcard
    exact (Finset.card_le_card Finset.sdiff_subset).trans hcard
  obtain ⟨roots, search, hroots, hfirst⟩ := collectNodes_collects hbuild (hchildren none)
    (List.Subset.refl _) hunvisited
  have hactive : search.active ⊆ search.visited := by
    rw [hfirst.active]
    exact List.nil_subset _
  have hskip : ∀ span ∈ runsById runs, ∀ search : TreeSearch, search.active ⊆ search.visited →
      search.unvisited (runsById runs) < turns → ∃ node after,
        (if span ∈ search.visited then some (none, search)
          else buildRunNode (runsById runs) (childrenByParent runs) turns span search) =
            some (node, after) ∧
        Collected (runsById runs) (childrenByParent runs) [span] search after
          (RunNode.forest node) := by
    intro span hspan search hactive hturns
    by_cases hvisited : span ∈ search.visited
    · refine ⟨none, search, if_pos hvisited, .nil ?_⟩
      exact List.cons_subset.2 ⟨hvisited, List.nil_subset _⟩
    · rw [if_neg hvisited]
      exact hbuild span hspan search hactive hturns
  obtain ⟨others, after, hothers, hsecond⟩ := collectNodes_collects hskip
    (fun span hspan => mem_runsById hnodup hspan) hactive
    (Nat.lt_of_le_of_lt (TreeSearch.unvisited_mono hfirst.mono) hunvisited)
  refine ⟨roots, others, search, after, hroots, ?_, hfirst, hsecond⟩
  rw [traceTreeFromRuns]
  change (collectNodes _ _ _).bind _ = _
  rw [hroots]
  change (collectNodes _ _ _).bind _ = _
  rw [hothers]
  rfl

/-- The tree of any runs has each of them once, under its parent or as a root. -/
theorem exists_traceTree (projectName traceId : String)
    (hnodup : (runs.map RunSummary.spanId).Nodup) (hturns : runs.length < turns) :
    ∃ tree, traceTreeFromRuns turns projectName traceId runs = some tree ∧
      tree.roots.values.Perm runs ∧
      tree.roots.Edges fun parent child => child.parentSpanId = some parent.spanId := by
  obtain ⟨roots, others, search, after, -, htree, hfirst, hsecond⟩ :=
    traceTreeFromRuns_collects projectName traceId hnodup hturns
  have hall := hfirst.append hsecond
  refine ⟨_, htree, ?_⟩
  generalize roots.append others = forest at hall
  have hmem : ∀ run ∈ forest.values, run ∈ runs := fun run hrun =>
    ((get_runsById hnodup).1 (hall.runs run hrun)).1
  have hspans := List.inj_on_of_nodup_map hnodup
  constructor
  · rw [List.perm_ext_iff_of_nodup (List.Nodup.of_map _ hall.nodup) (List.Nodup.of_map _ hnodup)]
    refine fun run => ⟨hmem run, fun hrun => ?_⟩
    have hvisited := hall.covers (List.mem_append_right _ (List.mem_map_of_mem hrun))
    have hvalue := ((hall.visited run.spanId).1 hvisited).resolve_left List.not_mem_nil
    obtain ⟨found, hfound, hspan⟩ := List.mem_map.1 hvalue
    rwa [hspans (hmem found hfound) hrun hspan] at hfound
  · apply hall.edges.imp
    intro parent _ child hchild hedge
    rw [childrenByParent, List.mem_map] at hedge
    obtain ⟨found, hfound, hspan⟩ := hedge
    obtain ⟨hfound, hparent⟩ := List.mem_filter.1 hfound
    obtain rfl := hspans hfound (hmem child hchild) hspan
    exact (Option.filter_eq_some_iff.1 (of_decide_eq_true hparent)).1

/-- Spans that grow a forest are built to that forest. -/
theorem collectNodes_grows {tree : OrderedForest String}
    (hknown : ∀ (span : String) (run : RunSummary), known[span]? = some run → run.spanId = span)
    (h : OrderedForest.Grows (fun span => children (some span)) spans tree)
    (hruns : ∀ span ∈ tree.values, span ∈ known) (hnodup : tree.values.Nodup)
    (hfresh : ∀ span ∈ tree.values, span ∉ search.visited ∧ span ∉ search.active)
    (hheight : tree.height ≤ turns) :
    ∃ forest after, collectNodes (buildRunNode known children turns) spans search =
        some (forest, after) ∧ forest.map RunSummary.spanId = tree ∧
      after.active = search.active ∧
      ∀ span, span ∈ after.visited → span ∈ search.visited ∨ span ∈ tree.values := by
  induction h generalizing turns search with
  | nil => exact ⟨.nil, search, rfl, rfl, rfl, fun _ => .inl⟩
  | @cons value below roots rest hbelow hrest ihBelow ihRest =>
    rw [OrderedForest.values, List.nodup_cons, List.mem_append, not_or, List.nodup_append]
      at hnodup
    rw [OrderedForest.values, List.forall_mem_cons, List.forall_mem_append] at hruns hfresh
    rw [OrderedForest.height, max_le_iff] at hheight
    obtain ⟨hvalue, hnodupBelow, hnodupRest, hdisjoint⟩ := hnodup
    obtain ⟨hrunsValue, hrunsBelow, hrunsRest⟩ := hruns
    obtain ⟨⟨hvisited, hactive⟩, hfreshBelow, hfreshRest⟩ := hfresh
    obtain ⟨turns, rfl⟩ := Nat.exists_eq_succ_of_ne_zero
      (Nat.ne_of_gt (Nat.lt_of_lt_of_le (Nat.zero_lt_succ _) hheight.1))
    obtain ⟨run, hrun⟩ := Option.isSome_iff_exists.1
      (Std.TreeMap.mem_iff_isSome_getElem?.1 hrunsValue)
    have hentered : ∀ span ∈ below.values,
        span ∉ value :: search.visited ∧ span ∉ value :: search.active := by
      intro span hspan
      have hne : span ≠ value := fun heq => hvalue.1 (heq ▸ hspan)
      exact ⟨List.not_mem_cons_of_ne_of_not_mem hne (hfreshBelow span hspan).1,
        List.not_mem_cons_of_ne_of_not_mem hne (hfreshBelow span hspan).2⟩
    obtain ⟨first, left, hfirst, hmap, hleft, hadded⟩ :=
      @ihBelow ⟨value :: search.visited, value :: search.active⟩ turns hrunsBelow hnodupBelow
        hentered (Nat.le_of_succ_le_succ hheight.1)
    have hnode := buildRunNode_new hactive hvisited hfirst hrun
    have hactive' : left.active.erase value = search.active := by
      rw [hleft, List.erase_cons_head]
    have hleftFresh : ∀ span ∈ rest.values, span ∉ left.visited ∧
        span ∉ left.active.erase value := by
      intro span hspan
      rw [hactive']
      refine ⟨fun hmem => ?_, (hfreshRest span hspan).2⟩
      rcases hadded span hmem with hmem | hmem
      · rcases List.mem_cons.1 hmem with rfl | hmem
        · exact hvalue.2 hspan
        · exact (hfreshRest span hspan).1 hmem
      · exact hdisjoint span hmem span hspan rfl
    obtain ⟨others, after, hothers, hmap', hafter, hadded'⟩ :=
      @ihRest { left with active := left.active.erase value } (turns + 1) hrunsRest hnodupRest
        hleftFresh hheight.2
    refine ⟨.cons run first others, after, collectNodes_cons hnode hothers, ?_,
      hafter.trans hactive', fun span hspan => ?_⟩
    · rw [OrderedForest.map, hmap, hmap', hknown value run hrun]
    · rw [OrderedForest.values, List.mem_cons, List.mem_append]
      rcases hadded' span hspan with hspan | hspan
      · rcases hadded span hspan with hspan | hspan
        · exact (List.mem_cons.1 hspan).elim (fun h => .inr (.inl h)) .inl
        · exact .inr (.inr (.inl hspan))
      · exact .inr (.inr (.inr hspan))

end KevinDb
