import KevinDb.Ingest.Tree
import KevinDb.Lib.Forest

namespace KevinDb
set_option autoImplicit true

/-- The parent that a span has in a table of parents. -/
def tableParent (parentBySpan : Table String (Option String)) : Parents String :=
  fun span => parentBySpan[span]?.join

variable {parentBySpan : Table String (Option String)} {child span parent : String}

theorem mem_of_tableParent (h : tableParent parentBySpan span = some parent) :
    span ∈ parentBySpan := by
  rw [tableParent, Option.join_eq_some_iff] at h
  rw [Std.TreeMap.mem_iff_isSome_getElem?, h]
  rfl

/-- The walk follows a path up to the child, if it has the fuel for it. -/
theorem parentWalk_of_path {path : List String}
    (h : ((tableParent parentBySpan).cut child).Path span path) (hmem : child ∈ path)
    {fuel : Nat} {seen : List String} (hfuel : path.length ≤ fuel)
    (hseen : ∀ other ∈ seen, other ∉ path) :
    parentWalk child parentBySpan fuel seen (some span) := by
  induction h generalizing fuel seen with
  | @root span hnone =>
    rw [List.mem_singleton] at hmem
    obtain ⟨fuel, rfl⟩ := Nat.exists_eq_succ_of_ne_zero (Nat.ne_of_gt hfuel)
    rw [parentWalk, if_pos hmem.symm]
  | @up span parent path hsome hpath ih =>
    obtain ⟨fuel, rfl⟩ := Nat.exists_eq_succ_of_ne_zero
      (Nat.ne_of_gt (Nat.lt_of_lt_of_le (Nat.zero_lt_succ _) hfuel))
    have hne : span ≠ child := by
      rintro rfl
      rw [Parents.cut, if_pos rfl] at hsome
      cases hsome
    have hfresh : span ∉ seen := fun hspan => hseen span hspan List.mem_cons_self
    have hparent : parentBySpan[span]?.join = some parent := by
      rw [Parents.cut, if_neg hne] at hsome
      exact hsome
    have hnodup := List.nodup_cons.1 (Parents.Path.up hsome hpath).nodup
    rw [parentWalk, if_neg hne, if_neg hfresh, hparent]
    apply ih
    · exact (List.mem_cons.1 hmem).resolve_left hne.symm
    · exact Nat.le_of_succ_le_succ hfuel
    · intro other hother
      rcases List.mem_cons.1 hother with rfl | hother
      · exact hnodup.1
      · exact fun hpath => hseen other hother (List.mem_cons_of_mem _ hpath)

theorem reaches_of_parentWalk {fuel : Nat} {seen : List String}
    (h : parentWalk child parentBySpan fuel seen (some span)) :
    (tableParent parentBySpan).Reaches span child := by
  induction fuel generalizing seen span with
  | zero => cases h
  | succ fuel ih =>
    rw [parentWalk] at h
    split at h
    next heq =>
      rw [heq]
    · split at h
      · cases h
      · cases hparent : parentBySpan[span]?.join with
        | none =>
          rw [hparent] at h
          cases fuel with
          | zero => cases h
          | succ fuel => cases h
        | some parent =>
          rw [hparent] at h
          exact .head hparent (ih h)

/-- The source's cycle check tells whether the parents of a span lead back to the child. -/
theorem parentCreatesCycle_iff :
    parentCreatesCycle child span parentBySpan ↔
      (tableParent parentBySpan).Reaches span child := by
  constructor
  · exact reaches_of_parentWalk
  · intro h
    obtain ⟨path, hpath, hmem⟩ := h.path_cut
    apply parentWalk_of_path hpath hmem
    · have hsub : path ⊆ child :: parentBySpan.keys := by
        intro other hother
        rw [List.mem_cons, or_iff_not_imp_left]
        intro hne
        cases hparent : tableParent parentBySpan other with
        | none =>
          have hroot := hpath.root_unique hother hmem ((if_neg hne).trans hparent) (if_pos rfl)
          exact absurd hroot hne
        | some parent => exact Std.TreeMap.mem_keys.2 (mem_of_tableParent hparent)
      have hlength := (List.subperm_of_subset hpath.nodup hsub).length_le
      rw [List.length_cons, Std.TreeMap.length_keys] at hlength
      omega
    · exact fun _ hmem => absurd hmem List.not_mem_nil

/-- A fold whose steps drop no node drops none. -/
theorem foldl_mono (nodes : σ → List ν) {step : σ → β → σ}
    (hmono : ∀ state b, ∀ node ∈ nodes state, node ∈ nodes (step state b)) (bs : List β)
    (state : σ) : ∀ node ∈ nodes state, node ∈ nodes (bs.foldl step state) := by
  induction bs generalizing state with
  | nil => exact fun _ hnode => hnode
  | cons b bs ih => exact fun node hnode => ih _ node (hmono state b node hnode)

/-- It has the nodes that one of its steps adds. -/
theorem exists_mem_foldl (nodes : σ → List ν) {step : σ → β → σ} {good : ν → Prop}
    (hmono : ∀ state b, ∀ node ∈ nodes state, node ∈ nodes (step state b)) {b : β} {bs : List β}
    (hb : b ∈ bs) (hadd : ∀ state, ∃ node ∈ nodes (step state b), good node) (state : σ) :
    ∃ node ∈ nodes (bs.foldl step state), good node := by
  induction bs generalizing state with
  | nil => cases hb
  | cons first bs ih =>
    rcases List.mem_cons.1 hb with rfl | hb
    · obtain ⟨node, hnode, hgood⟩ := hadd state
      exact ⟨node, foldl_mono nodes hmono bs _ node hnode, hgood⟩
    · exact ih hb (step state first)

/-- All nodes of a fold are good if those of the start are and every step keeps it so. -/
theorem forall_mem_foldl (nodes : σ → List ν) {step : σ → β → σ} {good : ν → Prop}
    (hstep : ∀ state b, (∀ node ∈ nodes state, good node) → ∀ node ∈ nodes (step state b),
      good node)
    (bs : List β) (state : σ) (hstart : ∀ node ∈ nodes state, good node) :
    ∀ node ∈ nodes (bs.foldl step state), good node := by
  induction bs generalizing state with
  | nil => exact hstart
  | cons b bs ih => exact ih _ (hstep state b hstart)

theorem exists_mem_append_left {good : ν → Prop} {nodes : List ν} (others : List ν)
    (h : ∃ node ∈ nodes, good node) : ∃ node ∈ nodes ++ others, good node := by
  obtain ⟨node, hnode, hgood⟩ := h
  exact ⟨node, List.mem_append_left others hnode, hgood⟩

theorem exists_fst_mem_zipIdx {spans : List String} (h : span ∈ spans) :
    ∃ entry ∈ spans.zipIdx, entry.1 = span := by
  obtain ⟨i, hi, hget⟩ := List.mem_iff_getElem.1 h
  refine ⟨(span, i), ?_, rfl⟩
  rw [List.mem_zipIdx_iff_getElem?]
  simp [hi, hget]

section Visit

variable {inputsBySpan : Table String IndexedRunInput}
  {childrenByParent : Option String → List String} {rootSpanId rootRunId : String}

/-- The node shows the parent that the index keeps for its span. -/
def RunTreeIndexNode.shows (inputsBySpan : Table String IndexedRunInput)
    (node : RunTreeIndexNode) : Prop :=
  ∃ input, inputsBySpan[node.spanId]? = some input ∧ node.parentSpanId = input.effectiveParent

theorem visitTreeNode_shows
    (hinputs : ∀ (span : String) input, inputsBySpan[span]? = some input → input.run.spanId = span)
    (fuel : Nat) (span : String) (depth siblingOrder : Int) (walk : TreeWalk)
    (hwalk : ∀ node ∈ walk.nodes, node.shows inputsBySpan) :
    ∀ node ∈ (visitTreeNode inputsBySpan childrenByParent rootSpanId rootRunId fuel span depth
      siblingOrder walk).1.nodes, node.shows inputsBySpan := by
  induction fuel generalizing span depth siblingOrder walk with
  | zero => exact hwalk
  | succ fuel ih =>
    rw [visitTreeNode]
    split
    · exact hwalk
    next input hinput =>
      intro node hnode
      rcases List.mem_append.1 hnode with hnode | hnode
      · exact forall_mem_foldl (fun acc : TreeWalk × Int => acc.1.nodes)
          (fun acc child hacc => ih child.1 (depth + 1) child.2 acc.1 hacc) _ _ hwalk node hnode
      · rw [List.mem_singleton] at hnode
        subst hnode
        refine ⟨input, ?_, rfl⟩
        rw [hinputs span input hinput]
        exact hinput

theorem visitTreeNode_mono (fuel : Nat) (span : String) (depth siblingOrder : Int)
    (walk : TreeWalk) :
    ∀ node ∈ walk.nodes, node ∈ (visitTreeNode inputsBySpan childrenByParent rootSpanId rootRunId
      fuel span depth siblingOrder walk).1.nodes := by
  induction fuel generalizing span depth siblingOrder walk with
  | zero => exact fun _ hnode => hnode
  | succ fuel ih =>
    rw [visitTreeNode]
    split
    · exact fun _ hnode => hnode
    next input hinput =>
      intro node hnode
      apply List.mem_append_left
      apply foldl_mono (fun acc : TreeWalk × Int => acc.1.nodes) _ _ _ node hnode
      exact fun acc child => ih child.1 (depth + 1) child.2 acc.1

/-- Visiting the span with enough fuel pushes a node of the target. -/
def Visits (inputsBySpan : Table String IndexedRunInput)
    (childrenByParent : Option String → List String) (span : String) (turns : Nat)
    (target : String) : Prop :=
  ∀ rootSpanId rootRunId fuel depth siblingOrder walk, turns ≤ fuel →
    ∃ node ∈ (visitTreeNode inputsBySpan childrenByParent rootSpanId rootRunId fuel span depth
      siblingOrder walk).1.nodes, node.spanId = target

theorem Visits.self (hinput : inputsBySpan[span]? = some input) (hspan : input.run.spanId = span) :
    Visits inputsBySpan childrenByParent span 1 span := by
  intro rootSpanId rootRunId fuel depth siblingOrder walk hfuel
  obtain ⟨fuel, rfl⟩ := Nat.exists_eq_succ_of_ne_zero (Nat.ne_of_gt hfuel)
  rw [visitTreeNode, hinput]
  exact ⟨_, List.mem_append_right _ (List.mem_singleton_self _), hspan⟩

theorem Visits.up (h : Visits inputsBySpan childrenByParent child turns target)
    (hinput : inputsBySpan[span]? = some input) (hchild : child ∈ childrenByParent (some span)) :
    Visits inputsBySpan childrenByParent span (turns + 1) target := by
  intro rootSpanId rootRunId fuel depth siblingOrder walk hfuel
  obtain ⟨fuel, rfl⟩ := Nat.exists_eq_succ_of_ne_zero
    (Nat.ne_of_gt (Nat.lt_of_lt_of_le (Nat.zero_lt_succ _) hfuel))
  rw [visitTreeNode, hinput]
  obtain ⟨entry, hmem, rfl⟩ := exists_fst_mem_zipIdx hchild
  apply exists_mem_append_left
  apply exists_mem_foldl (fun acc : TreeWalk × Int => acc.1.nodes) _ hmem
  · exact fun acc =>
      h rootSpanId rootRunId fuel (depth + 1) entry.2 acc.1 (Nat.le_of_succ_le_succ hfuel)
  · exact fun acc other => visitTreeNode_mono fuel other.1 (depth + 1) other.2 acc.1

end Visit

/-- The parent that a span names in its run. -/
def spanParent (runs : List RunTreeInput) : Parents String :=
  fun span => (runs.find? fun run => run.spanId = span).bind RunTreeInput.parentSpanId

/-- The parent is a run, and its parents do not lead back to the child. -/
def RunTreeInput.keepsParent (runs : List RunTreeInput) (run : RunTreeInput) (parent : String) :
    Prop :=
  parent ∈ runs.map RunTreeInput.spanId ∧ ¬ (spanParent runs).Reaches parent run.spanId

variable {runs sorted : List RunTreeInput} {run : RunTreeInput} {input : IndexedRunInput}

theorem find_spanId (hnodup : (runs.map RunTreeInput.spanId).Nodup) (hrun : run ∈ runs) :
    runs.find? (fun other => other.spanId = run.spanId) = some run := by
  induction runs with
  | nil => cases hrun
  | cons first runs ih =>
    rw [List.map_cons, List.nodup_cons] at hnodup
    rcases List.mem_cons.1 hrun with rfl | hrun
    · exact List.find?_cons_of_pos (decide_eq_true rfl)
    · have hne : first.spanId ≠ run.spanId := by
        intro heq
        rw [heq] at hnodup
        exact hnodup.1 (List.mem_map_of_mem hrun)
      rw [List.find?_cons_of_neg (by simpa using hne)]
      exact ih hnodup.2 hrun

theorem spanParent_eq_some (hnodup : (runs.map RunTreeInput.spanId).Nodup) :
    spanParent runs span = some parent ↔
      ∃ run ∈ runs, run.spanId = span ∧ run.parentSpanId = some parent := by
  rw [spanParent, Option.bind_eq_some_iff]
  constructor
  · rintro ⟨run, hfind, hparent⟩
    have hspan := List.find?_some hfind
    exact ⟨run, List.mem_of_find?_eq_some hfind, of_decide_eq_true hspan, hparent⟩
  · rintro ⟨run, hrun, rfl, hparent⟩
    exact ⟨run, find_spanId hnodup hrun, hparent⟩

/-- The table of parents that the index is built with, of runs in any order. -/
def parentTable (runs : List RunTreeInput) : Table String (Option String) :=
  runs.foldl (fun table run => table.insert run.spanId run.parentSpanId) ∅

theorem get_parentTable (hnodup : (sorted.map RunTreeInput.spanId).Nodup)
    (hperm : sorted.Perm runs) :
    tableParent (parentTable sorted) = spanParent runs := by
  funext span
  apply Option.ext
  intro parent
  rw [spanParent_eq_some ((hperm.map _).nodup_iff.1 hnodup), tableParent, Option.join_eq_some_iff,
    parentTable, Table.get_foldl_insert _ _ _ hnodup]
  simp only [hperm.mem_iff]

theorem mem_parentTable (hnodup : (sorted.map RunTreeInput.spanId).Nodup)
    (hperm : sorted.Perm runs) :
    span ∈ parentTable sorted ↔ span ∈ runs.map RunTreeInput.spanId := by
  rw [Std.TreeMap.mem_iff_isSome_getElem?, Option.isSome_iff_exists, List.mem_map]
  constructor
  · rintro ⟨parent, hparent⟩
    obtain ⟨run, hrun, hspan, -⟩ := (Table.get_foldl_insert _ _ _ hnodup _ _).1 hparent
    exact ⟨run, hperm.mem_iff.1 hrun, hspan⟩
  · rintro ⟨run, hrun, hspan⟩
    exact ⟨run.parentSpanId, (Table.get_foldl_insert _ _ _ hnodup _ _).2
      ⟨run, hperm.mem_iff.2 hrun, hspan, rfl⟩⟩

/-- The index keeps the parent of a run exactly if the parent is a run that is no descendant. -/
theorem effectiveParent_eq_some (hnodup : (sorted.map RunTreeInput.spanId).Nodup)
    (hperm : sorted.Perm runs) :
    (indexRunInput (parentTable sorted) run).effectiveParent = some parent ↔
      run.parentSpanId = some parent ∧ run.keepsParent runs parent := by
  have hcycle : parentCreatesCycle run.spanId parent (parentTable sorted) ↔
      (spanParent runs).Reaches parent run.spanId := by
    rw [parentCreatesCycle_iff, get_parentTable hnodup hperm]
  rw [indexRunInput, Option.filter_eq_some_iff, RunTreeInput.keepsParent, ← hcycle,
    ← mem_parentTable hnodup hperm, Bool.and_eq_true, Bool.and_eq_true, decide_eq_true_iff,
    decide_eq_true_iff, Bool.not_eq_true', Bool.not_eq_true, and_assoc]
  refine and_congr_right fun _ => and_congr_right fun _ => and_iff_right_of_imp ?_
  rintro hnone rfl
  rw [← Bool.not_eq_true, hcycle] at hnone
  exact hnone .refl

/-- The table of inputs that the index is built with. -/
def inputTable (sorted : List RunTreeInput) : Table String IndexedRunInput :=
  (sorted.map (indexRunInput (parentTable sorted))).foldl
    (fun table input => table.insert input.run.spanId input) ∅

def childSpans (sorted : List RunTreeInput) (parent : Option String) : List String :=
  ((sorted.map (indexRunInput (parentTable sorted))).filter fun input =>
    input.effectiveParent = parent).map fun input => input.run.spanId

theorem get_inputTable (hnodup : (sorted.map RunTreeInput.spanId).Nodup) :
    (inputTable sorted)[span]? = some input ↔
      ∃ run ∈ sorted, run.spanId = span ∧ indexRunInput (parentTable sorted) run = input := by
  have hspans : ((sorted.map (indexRunInput (parentTable sorted))).map
      fun input => input.run.spanId).Nodup := by
    rw [List.map_map]
    exact hnodup
  rw [inputTable, Table.get_foldl_insert _ _ _ hspans]
  simp only [List.mem_map, exists_exists_and_eq_and]
  rfl

theorem mem_childSpans {kept : Option String} : span ∈ childSpans sorted kept ↔
    ∃ run ∈ sorted, (indexRunInput (parentTable sorted) run).effectiveParent = kept ∧
      run.spanId = span := by
  simp only [childSpans, List.mem_map, List.mem_filter, exists_exists_and_eq_and, and_assoc,
    decide_eq_true_eq]
  rfl

/-- The parent that the index keeps for a span. -/
def keptParent (sorted : List RunTreeInput) : Parents String :=
  fun span => (inputTable sorted)[span]?.bind IndexedRunInput.effectiveParent

theorem keptParent_run (hnodup : (sorted.map RunTreeInput.spanId).Nodup) (hrun : run ∈ sorted) :
    keptParent sorted run.spanId = (indexRunInput (parentTable sorted) run).effectiveParent := by
  rw [keptParent, (get_inputTable hnodup).2 ⟨run, hrun, rfl, rfl⟩]
  rfl

theorem keptParent_eq_some (hnodup : (sorted.map RunTreeInput.spanId).Nodup) :
    keptParent sorted span = some parent ↔ ∃ run ∈ sorted, run.spanId = span ∧
      run.parentSpanId = some parent ∧ run.keepsParent sorted parent := by
  rw [keptParent, Option.bind_eq_some_iff]
  constructor
  · rintro ⟨input, hinput, hparent⟩
    obtain ⟨run, hrun, hspan, rfl⟩ := (get_inputTable hnodup).1 hinput
    exact ⟨run, hrun, hspan, (effectiveParent_eq_some hnodup (.refl _)).1 hparent⟩
  · rintro ⟨run, hrun, hspan, hparent⟩
    exact ⟨_, (get_inputTable hnodup).2 ⟨run, hrun, hspan, rfl⟩,
      (effectiveParent_eq_some hnodup (.refl _)).2 hparent⟩

/-- Following kept parents from a run ends at a root. -/
theorem exists_keptPath (hnodup : (sorted.map RunTreeInput.spanId).Nodup) (hrun : run ∈ sorted) :
    ∃ path, (keptParent sorted).Path run.spanId path ∧ path.length ≤ sorted.length := by
  have hclosed : ∀ span ∈ sorted.map RunTreeInput.spanId, ∀ parent,
      keptParent sorted span = some parent → parent ∈ sorted.map RunTreeInput.spanId := by
    intro span _ parent hparent
    obtain ⟨run, -, -, -, hkeeps⟩ := (keptParent_eq_some hnodup).1 hparent
    exact hkeeps.1
  have hacyclic : ∀ span ∈ sorted.map RunTreeInput.spanId, ∀ parent,
      keptParent sorted span = some parent → ¬ (keptParent sorted).Reaches parent span := by
    intro span _ parent hparent hreach
    obtain ⟨run, -, rfl, -, hkeeps⟩ := (keptParent_eq_some hnodup).1 hparent
    apply hkeeps.2
    apply hreach.lift id
    intro other above habove
    obtain ⟨run', hrun', hspan, hparent', -⟩ := (keptParent_eq_some hnodup).1 habove
    exact (spanParent_eq_some hnodup).2 ⟨run', hrun', hspan, hparent'⟩
  obtain ⟨path, hpath⟩ := Parents.exists_path _ hclosed hacyclic (List.mem_map_of_mem hrun)
  refine ⟨path, hpath, ?_⟩
  have hsub : path ⊆ sorted.map RunTreeInput.spanId :=
    hpath.subset hclosed (List.mem_map_of_mem hrun)
  have hlength := (List.subperm_of_subset hpath.nodup hsub).length_le
  rwa [List.length_map] at hlength

/-- Visiting the root of a path visits the node that the path starts from. -/
theorem visits_path (hnodup : (sorted.map RunTreeInput.spanId).Nodup)
    (hpath : (keptParent sorted).Path span path) (hspan : span ∈ sorted.map RunTreeInput.spanId)
    (h : Visits (inputTable sorted) (childSpans sorted) span turns target) :
    ∃ root ∈ childSpans sorted none,
      Visits (inputTable sorted) (childSpans sorted) root (turns + path.length - 1) target := by
  induction hpath generalizing turns with
  | @root span hnone =>
    obtain ⟨run, hrun, rfl⟩ := List.mem_map.1 hspan
    rw [keptParent_run hnodup hrun] at hnone
    exact ⟨_, mem_childSpans.2 ⟨run, hrun, hnone, rfl⟩, h⟩
  | @up span parent path hsome hpath ih =>
    obtain ⟨run, hrun, rfl, hparent, hkeeps⟩ := (keptParent_eq_some hnodup).1 hsome
    obtain ⟨above, habove, rfl⟩ := List.mem_map.1 hkeeps.1
    rw [keptParent_run hnodup hrun] at hsome
    have hup := h.up ((get_inputTable hnodup).2 ⟨above, habove, rfl, rfl⟩)
      (mem_childSpans.2 ⟨run, hrun, hsome, rfl⟩)
    obtain ⟨root, hroot, hvisits⟩ := ih hkeeps.1 hup
    refine ⟨root, hroot, ?_⟩
    rw [List.length_cons]
    rwa [show turns + 1 + path.length = turns + (path.length + 1) by omega] at hvisits

def rootRunIdOf (sorted : List RunTreeInput) (root : String) : String :=
  match (inputTable sorted)[root]? with
  | some input => stableRunId input.run
  | none => root

/-- The walk that `build_trace_tree_index` makes over the sorted runs. -/
def treeWalk (sorted : List RunTreeInput) : TreeWalk :=
  (childSpans sorted none).zipIdx.foldl (fun walk root =>
    (visitTreeNode (inputTable sorted) (childSpans sorted) root.1 (rootRunIdOf sorted root.1)
      (sorted.length + 1) root.1 0 root.2 walk).1) ⟨0, []⟩

theorem mem_buildTraceTreeIndex {node : RunTreeIndexNode} : node ∈ buildTraceTreeIndex runs ↔
    node ∈ (treeWalk (runs.insertionSort RunTreeInput.before)).nodes :=
  List.mem_insertionSort _

theorem treeWalk_shows (hnodup : (sorted.map RunTreeInput.spanId).Nodup) :
    ∀ node ∈ (treeWalk sorted).nodes, node.shows (inputTable sorted) := by
  have hspans : ∀ (span : String) input, (inputTable sorted)[span]? = some input →
      input.run.spanId = span := by
    intro span input hinput
    obtain ⟨run, -, hspan, rfl⟩ := (get_inputTable hnodup).1 hinput
    exact hspan
  refine forall_mem_foldl TreeWalk.nodes ?_ _ _ ?_
  · exact fun walk root hwalk => visitTreeNode_shows hspans _ _ _ _ walk hwalk
  · exact fun node hnode => absurd hnode List.not_mem_nil

theorem exists_mem_treeWalk (hnodup : (sorted.map RunTreeInput.spanId).Nodup)
    (hrun : run ∈ sorted) : ∃ node ∈ (treeWalk sorted).nodes, node.spanId = run.spanId := by
  obtain ⟨path, hpath, hlength⟩ := exists_keptPath hnodup hrun
  obtain ⟨root, hroot, hvisits⟩ := visits_path hnodup hpath (List.mem_map_of_mem hrun)
    (Visits.self ((get_inputTable hnodup).2 ⟨run, hrun, rfl, rfl⟩) rfl)
  obtain ⟨entry, hentry, rfl⟩ := exists_fst_mem_zipIdx hroot
  apply exists_mem_foldl TreeWalk.nodes _ hentry
  · intro walk
    apply hvisits
    omega
  · exact fun walk other => visitTreeNode_mono _ _ _ _ walk

/-- The index has a node for every run, with the parent that it keeps. -/
theorem buildTraceTreeIndex_spec (hnodup : (runs.map RunTreeInput.spanId).Nodup) :
    (∀ run ∈ runs, ∃ node ∈ buildTraceTreeIndex runs, node.spanId = run.spanId) ∧
      ∀ node ∈ buildTraceTreeIndex runs, ∃ run ∈ runs, run.spanId = node.spanId ∧
        ∀ parent, node.parentSpanId = some parent ↔
          run.parentSpanId = some parent ∧ run.keepsParent runs parent := by
  have hperm := List.perm_insertionSort RunTreeInput.before runs
  have hsorted := (hperm.map RunTreeInput.spanId).nodup_iff.2 hnodup
  simp only [mem_buildTraceTreeIndex]
  refine ⟨fun run hrun => exists_mem_treeWalk hsorted (hperm.mem_iff.2 hrun), ?_⟩
  intro node hnode
  obtain ⟨input, hinput, hparent⟩ := treeWalk_shows hsorted node hnode
  obtain ⟨run, hrun, hspan, rfl⟩ := (get_inputTable hsorted).1 hinput
  refine ⟨run, hperm.mem_iff.1 hrun, hspan, fun parent => ?_⟩
  rw [hparent, effectiveParent_eq_some hsorted hperm]

end KevinDb
