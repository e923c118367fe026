import KevinDb.Ingest.TreeEncoding
import KevinDb.Query.RootFilter

namespace KevinDb
set_option autoImplicit true

variable {engine : QueryEngine} {x : Externals} {db db' : Db} {projectName traceId : String}
  {scope : TreeFilterScope} {mode : TreeFilterMode} {includeDeleted : Bool} {sql : HeadPredicate}
  {k : RunKey}

/-- The tree nodes of a trace are the index of its live runs. -/
def Db.HasTreeIndex (x : Externals) (db : Db) (projectName traceId : String) : Prop :=
  ∀ (span : String) (node : RunTreeIndexNode),
    db.runTreeNodes[(⟨projectName, traceId, span⟩ : RunKey)]? = some node ↔
      node ∈ buildTraceTreeIndex (db.liveRuns x projectName traceId) ∧ node.spanId = span

/-- The runs that a refresh reads do not depend on what a refresh writes. -/
theorem Db.liveRuns_congr (hdeletions : db'.runDeletions = db.runDeletions)
    (hheads : ∀ k : RunKey, db'.runHeads[k]?.map RunHead.forgetTree =
      db.runHeads[k]?.map RunHead.forgetTree) (x : Externals) (projectName traceId : String) :
    db'.liveRuns x projectName traceId = db.liveRuns x projectName traceId := by
  have hrows : db'.runHeads.toList.map (fun row => (row.1, row.2.forgetTree)) =
      db.runHeads.toList.map fun row => (row.1, row.2.forgetTree) := by
    apply Table.ordered_eq Prod.fst
    · exact List.pairwise_map.2 Std.TreeMap.ordered_keys_toList
    · exact List.pairwise_map.2 Std.TreeMap.ordered_keys_toList
    · rintro ⟨k, head⟩
      have hrow : ∀ heads : Table RunKey RunHead,
          (k, head) ∈ heads.toList.map (fun row => (row.1, row.2.forgetTree)) ↔
            heads[k]?.map RunHead.forgetTree = some head := by
        intro heads
        simp [Std.TreeMap.mem_toList_iff_getElem?_eq_some, Option.map_eq_some_iff]
      rw [hrow, hrow, hheads]
  have hforget : ∀ db : Db, db.liveRuns x projectName traceId =
      ((db.runHeads.toList.map fun row => (row.1, row.2.forgetTree)).filter fun row =>
        (decide (row.1.projectName = projectName ∧ row.1.traceId = traceId)) &&
          db.isLive row.1 row.2).map fun row => row.2.treeInput x row.1 := by
    intro db
    rw [Db.liveRuns, List.filter_map, List.map_map]
    rfl
  have hlive : ∀ (k : RunKey) (head : RunHead), db'.isLive k head = db.isLive k head := by
    intro k head
    rw [Db.isLive, Db.isLive, hdeletions]
  rw [hforget, hforget, hrows]
  simp only [hlive]

/-- A trace whose tree was refreshed has its index. -/
theorem Db.refresh_hasTreeIndex (x : Externals) (db : Db) (projectName traceId : String) :
    (db.refreshTraceTreeMetadata x projectName traceId).HasTreeIndex x projectName traceId := by
  intro span node
  have hruns : (db.refreshTraceTreeMetadata x projectName traceId).liveRuns x projectName traceId =
      db.liveRuns x projectName traceId := by
    apply Db.liveRuns_congr
    · rfl
    · exact Db.refreshTraceTreeMetadata_runHeads x db projectName traceId
  have hnodup : ((buildTraceTreeIndex (db.liveRuns x projectName traceId)).map fun node =>
      (⟨projectName, traceId, node.spanId⟩ : RunKey)).Nodup := by
    have hspans : ((buildTraceTreeIndex (db.liveRuns x projectName traceId)).map
        RunTreeIndexNode.spanId).Nodup :=
      (buildTraceTreeIndex_isNestedSet (Db.liveRuns_nodup projectName traceId)).spans.nodup_iff.2
        (Db.liveRuns_nodup projectName traceId)
    have hinjective : Function.Injective (RunKey.mk projectName traceId) :=
      fun _ _ heq => (RunKey.mk.inj heq).2.2
    have hkeys := hspans.map hinjective
    rwa [List.map_map] at hkeys
  have hold : (db.runTreeNodes.filter fun k _ => !(decide (k.projectName = projectName ∧
      k.traceId = traceId)))[(⟨projectName, traceId, span⟩ : RunKey)]? = none := by
    rw [Std.TreeMap.getElem?_filter', Option.filter_eq_none_iff]
    intro node _
    simp
  rw [hruns]
  have hget := Table.get_foldl_insert_onto (db.runTreeNodes.filter fun k _ =>
    !(decide (k.projectName = projectName ∧ k.traceId = traceId)))
      (buildTraceTreeIndex (db.liveRuns x projectName traceId))
      (fun node => (⟨projectName, traceId, node.spanId⟩ : RunKey)) id hnodup
      ⟨projectName, traceId, span⟩ node
  rw [hold] at hget
  refine Iff.trans hget ?_
  constructor
  · rintro (⟨found, hfound, hkey, rfl⟩ | ⟨-, hnone⟩)
    · exact ⟨hfound, (RunKey.mk.inj hkey).2.2⟩
    · cases hnone
  · rintro ⟨hnode, rfl⟩
    exact .inl ⟨node, hnode, rfl, rfl⟩

/-- The runs of a trace that the clause of a tree filter admits. -/
def Db.treeSelects (engine : QueryEngine) (db : Db) (projectName traceId : String)
    (scope : TreeFilterScope) (mode : TreeFilterMode) (includeDeleted : Bool)
    (sql : HeadPredicate) : Set RunKey :=
  {k | k.projectName = projectName ∧ k.traceId = traceId ∧ ∃ head, db.runHeads[k]? = some head ∧
    ∀ segment, (HeadClause.treeFilter scope mode includeDeleted sql).holds engine db k head segment}

/-- The live runs of a trace that satisfy a predicate and stand as target in the relation of a scope
to a run of the trace. -/
def Db.treeTargets (engine : QueryEngine) (db : Db) (projectName traceId : String)
    (scope : TreeFilterScope) (sql : HeadPredicate) : Set RunKey :=
  {k | k.projectName = projectName ∧ k.traceId = traceId ∧ ∃ head, db.liveHead k = some head ∧
    (engine.tables.filterRun k head).satisfies engine.rules sql ∧
      ∃ returned target, (∃ span, db.runTreeNodes[(⟨projectName, traceId, span⟩ : RunKey)]? =
          some returned) ∧
        db.runTreeNodes[k]? = some target ∧ scope.holds returned target}

/-- The runs that each mode of a tree filter selects are consistent with each other. -/
structure Db.ConsistentModes (engine : QueryEngine) (db : Db) (projectName traceId : String)
    (scope : TreeFilterScope) (includeDeleted : Bool) (sql : HeadPredicate) : Prop where
  mostRelevant : db.treeSelects engine projectName traceId scope .mostRelevant includeDeleted sql ⊆
    db.treeSelects engine projectName traceId scope .showAll includeDeleted sql
  filteredOnly : db.treeSelects engine projectName traceId scope .filteredOnly includeDeleted sql =
    db.treeTargets engine projectName traceId scope sql
  empty : db.treeSelects engine projectName traceId scope .filteredOnly includeDeleted sql = ∅ →
    db.treeSelects engine projectName traceId scope .showAll includeDeleted sql = ∅

theorem RunKey.sql_inj {k' : RunKey} (hproject : k'.projectName = k.projectName)
    (htrace : k'.traceId = k.traceId) (h : k'.sql = k.sql) : k' = k := by
  rw [RunKey.sql, RunKey.sql, hproject, htrace] at h
  have hspan : k'.spanId = k.spanId := by
    apply String.toList_inj.1
    have hlist := congrArg String.toList h
    simpa only [String.toList_append, List.append_assoc, List.append_cancel_left_eq] using hlist
  cases k
  cases k'
  cases hproject
  cases htrace
  cases hspan
  rfl

/-- The spans of the index are those of live runs. -/
theorem Db.HasTreeIndex.live (h : db.HasTreeIndex x projectName traceId) {span : String}
    {node : RunTreeIndexNode}
    (hnode : db.runTreeNodes[(⟨projectName, traceId, span⟩ : RunKey)]? = some node) :
    ∃ head, db.liveHead ⟨projectName, traceId, span⟩ = some head := by
  obtain ⟨hmem, rfl⟩ := (h span node).1 hnode
  have hspan := (buildTraceTreeIndex_isNestedSet (Db.liveRuns_nodup projectName traceId)).spans.subset
    (List.mem_map_of_mem hmem)
  obtain ⟨run, hrun, hspan⟩ := List.mem_map.1 hspan
  obtain ⟨span, head, hhead, rfl⟩ := Db.mem_liveRuns.1 hrun
  rw [← hspan]
  exact ⟨head, hhead⟩

/-- A run is selected if it stands with a live run that satisfies the predicate as the scope and the
mode say. -/
theorem Db.HasTreeIndex.mem_treeSelects (h : db.HasTreeIndex x projectName traceId) :
    k ∈ db.treeSelects engine projectName traceId scope mode includeDeleted sql ↔
      k.projectName = projectName ∧ k.traceId = traceId ∧ ∃ returned span target head,
        db.runTreeNodes[k]? = some returned ∧
        db.runTreeNodes[(⟨projectName, traceId, span⟩ : RunKey)]? = some target ∧
        scope.holds returned target ∧ mode.holds returned target ∧
        db.liveHead ⟨projectName, traceId, span⟩ = some head ∧
        (engine.tables.filterRun ⟨projectName, traceId, span⟩ head).satisfies engine.rules sql := by
  rw [Db.treeSelects, Set.mem_ofPred_eq]
  refine and_congr_right fun hproject => and_congr_right fun htrace => ?_
  subst hproject
  subst htrace
  simp only [HeadClause.holds, List.any_eq_true, Prod.exists, Bool.and_eq_true,
    decide_eq_true_eq, Std.TreeMap.mem_toList_iff_getElem?_eq_some]
  constructor
  · rintro ⟨-, -, hholds⟩
    obtain ⟨key, returned, hreturned, ⟨⟨hsql, hproject⟩, htrace⟩, key', target, htarget,
      ⟨⟨⟨hproject', htrace'⟩, hscope⟩, hmode⟩, hhead⟩ := hholds ⟨"", "", 0, 0, 0, 0, none, none, none⟩
    obtain rfl := RunKey.sql_inj hproject htrace hsql
    obtain ⟨projectName, traceId, span⟩ := key'
    cases hproject'
    cases htrace'
    obtain ⟨head, hlive⟩ := h.live htarget
    rw [(Db.liveHead_eq_some.1 hlive).1, Bool.and_eq_true] at hhead
    exact ⟨returned, span, target, head, hreturned, htarget, hscope, hmode, hlive, hhead.2⟩
  · rintro ⟨returned, span, target, head, hreturned, htarget, hscope, hmode, hlive, hsatisfies⟩
    obtain ⟨own, hown⟩ := h.live hreturned
    obtain ⟨hhead, hnotDeleted⟩ := Db.liveHead_eq_some.1 hlive
    rw [Db.isLive, Bool.and_eq_true] at hnotDeleted
    refine ⟨own, (Db.liveHead_eq_some.1 hown).1, fun _ => ⟨k, returned, hreturned,
      ⟨⟨rfl, rfl⟩, rfl⟩, ⟨k.projectName, k.traceId, span⟩, target, htarget,
      ⟨⟨⟨rfl, rfl⟩, hscope⟩, hmode⟩, ?_⟩⟩
    rw [hhead, Bool.and_eq_true, Bool.or_eq_true]
    exact ⟨.inr hnotDeleted.1, hsatisfies⟩

/-- No run is its own effective parent, and no interval is strictly within itself. -/
theorem Db.HasTreeIndex.scope_irrefl (h : db.HasTreeIndex x projectName traceId) {span : String}
    {node : RunTreeIndexNode}
    (hnode : db.runTreeNodes[(⟨projectName, traceId, span⟩ : RunKey)]? = some node)
    (hscope : scope.holds node node) : scope = .trace ∨ scope = .root := by
  cases scope with
  | trace => exact .inl rfl
  | root => exact .inr rfl
  | child =>
    obtain ⟨run, -, hspan, hparent⟩ :=
      (buildTraceTreeIndex_spec (Db.liveRuns_nodup projectName traceId)).2 node
        ((h span node).1 hnode).1
    have hkeeps := ((hparent node.spanId).1 (of_decide_eq_true hscope)).2.2
    rw [hspan] at hkeeps
    exact absurd .refl hkeeps
  | descendant =>
    have hself := of_decide_eq_true hscope
    exact absurd hself.1 (lt_irrefl _)

/-- `filtered_only` relates a run to itself. -/
theorem Db.HasTreeIndex.mem_filteredOnly (h : db.HasTreeIndex x projectName traceId) :
    k ∈ db.treeSelects engine projectName traceId scope .filteredOnly includeDeleted sql ↔
      (scope = .trace ∨ scope = .root) ∧
        k ∈ db.treeTargets engine projectName traceId scope sql := by
  rw [h.mem_treeSelects, Db.treeTargets, Set.mem_ofPred_eq]
  constructor
  · rintro ⟨rfl, rfl, returned, span, target, head, hreturned, htarget, hscope, hmode, hlive,
      hsatisfies⟩
    have hspan : span = k.spanId := by
      rw [← ((h span target).1 htarget).2, ← ((h k.spanId returned).1 hreturned).2]
      exact of_decide_eq_true hmode
    subst hspan
    rw [hreturned] at htarget
    cases htarget
    exact ⟨h.scope_irrefl hreturned hscope, rfl, rfl, head, hlive, hsatisfies, returned, returned,
      ⟨k.spanId, hreturned⟩, hreturned, hscope⟩
  · rintro ⟨hwhole, rfl, rfl, head, hlive, hsatisfies, returned, target, -, htarget, hscope⟩
    refine ⟨rfl, rfl, target, k.spanId, target, head, htarget, htarget, ?_, decide_eq_true rfl,
      hlive, hsatisfies⟩
    rcases hwhole with rfl | rfl
    · rfl
    · exact hscope

/-- `show_all` selects a run if there is a target. -/
theorem Db.HasTreeIndex.showAll_eq_empty (h : db.HasTreeIndex x projectName traceId)
    (hempty : db.treeTargets engine projectName traceId scope sql = ∅) :
    db.treeSelects engine projectName traceId scope .showAll includeDeleted sql = ∅ := by
  rw [Set.eq_empty_iff_forall_notMem] at hempty ⊢
  intro k hk
  obtain ⟨rfl, rfl, returned, span, target, head, hreturned, htarget, hscope, -, hlive,
    hsatisfies⟩ := h.mem_treeSelects.1 hk
  exact hempty ⟨k.projectName, k.traceId, span⟩ ⟨rfl, rfl, head, hlive, hsatisfies, returned, target,
    ⟨k.spanId, hreturned⟩, htarget, hscope⟩

/-- The modes of a tree filter agree with each other exactly if the scope looks at the target alone,
or if no live run that satisfies the predicate is a target. -/
theorem Db.consistentModes_iff (h : db.HasTreeIndex x projectName traceId) :
    db.ConsistentModes engine projectName traceId scope includeDeleted sql ↔
      scope = .trace ∨ scope = .root ∨
        db.treeTargets engine projectName traceId scope sql = ∅ := by
  rw [← or_assoc]
  constructor
  · intro hmodes
    rw [or_iff_not_imp_left]
    intro hscope
    rw [← hmodes.filteredOnly, Set.eq_empty_iff_forall_notMem]
    exact fun k hk => hscope (h.mem_filteredOnly.1 hk).1
  · intro hscope
    have hfiltered : db.treeSelects engine projectName traceId scope .filteredOnly includeDeleted
        sql = db.treeTargets engine projectName traceId scope sql := by
      ext k
      rw [h.mem_filteredOnly]
      rcases hscope with hscope | hempty
      · exact and_iff_right hscope
      · rw [hempty]
        exact iff_of_false And.right (Set.notMem_empty k)
    constructor
    · intro k hk
      obtain ⟨hproject, htrace, returned, span, target, head, hreturned, htarget, hscope, -,
        hlive⟩ := h.mem_treeSelects.1 hk
      exact h.mem_treeSelects.2 ⟨hproject, htrace, returned, span, target, head, hreturned,
        htarget, hscope, rfl, hlive⟩
    · exact hfiltered
    · intro hempty
      rw [hfiltered] at hempty
      exact h.showAll_eq_empty hempty

/-- Ingest a run and its child. -/
def ingestTree : List Action :=
  [.ingest ⟨"p", 0⟩ ⟨1, 1⟩ [.sample "t" "r" "root" .«end» 10 30,
    { SpanRecord.sample "t" "c" "leaf" .«end» 10 30 with parentSpanId := some "r" }] none]

/-- A trace of a run and its child, and the filter on the name of the child. -/
theorem exists_treeTrace : ∃ (db : Db) (sql : HeadPredicate),
    db.HasTreeIndex .sample "p" "t" ∧
      compileExpr QueryEngine.sample.formats ["p"] (.compare .eq .name (.string "leaf")) = .ok sql ∧
      (⟨"p", "t", "c"⟩ : RunKey) ∈ db.treeTargets .sample "p" "t" .child sql := by
  have hrun : (Transition.run (System.step .sample 2) .initial ingestTree).map (fun s =>
      let db := s.world.db.refreshTraceTreeMetadata .sample "p" "t"
      ((compileExpr QueryEngine.sample.formats ["p"] (.compare .eq .name (.string "leaf"))).toOption.map
        fun sql => (db.liveHead ⟨"p", "t", "c"⟩).map fun head =>
          (QueryEngine.sample.tables.filterRun ⟨"p", "t", "c"⟩ head).satisfies
            QueryEngine.sample.rules sql,
        db.runTreeNodes[(⟨"p", "t", "r"⟩ : RunKey)]?.bind fun returned =>
          db.runTreeNodes[(⟨"p", "t", "c"⟩ : RunKey)]?.map fun target =>
            TreeFilterScope.child.holds returned target)) =
      some (some (some true), some true) := by
    decide +kernel
  obtain ⟨s, -, hfacts⟩ := Option.map_eq_some_iff.1 hrun
  obtain ⟨hsql, hnodes⟩ := Prod.mk.inj hfacts
  obtain ⟨sql, hsql, hlive⟩ := Option.map_eq_some_iff.1 hsql
  obtain ⟨head, hlive, hsatisfies⟩ := Option.map_eq_some_iff.1 hlive
  obtain ⟨returned, hreturned, htarget⟩ := Option.bind_eq_some_iff.1 hnodes
  obtain ⟨target, htarget, hscope⟩ := Option.map_eq_some_iff.1 htarget
  refine ⟨s.world.db.refreshTraceTreeMetadata .sample "p" "t", sql, Db.refresh_hasTreeIndex _ _ _ _,
    ?_, rfl, rfl, head, hlive, hsatisfies, returned, target, ⟨"r", hreturned⟩, htarget, hscope⟩
  exact eq_ok_of_toOption hsql

/-- The modes agree on a trace for the scope of its root. -/
theorem Db.consistentModes_tree : ∃ (db : Db) (sql : HeadPredicate),
    db.ConsistentModes .sample "p" "t" .root false sql ∧
      ¬ db.ConsistentModes .sample "p" "t" .child false sql := by
  obtain ⟨db, sql, hindex, -, htarget⟩ := exists_treeTrace
  refine ⟨db, sql, (Db.consistentModes_iff hindex).2 (.inr (.inl rfl)), fun hmodes => ?_⟩
  rcases (Db.consistentModes_iff hindex).1 hmodes with hscope | hscope | hempty
  · cases hscope
  · cases hscope
  · exact (Set.eq_empty_iff_forall_notMem.1 hempty) _ htarget

/-- `filtered_only` of the children with a name misses the child of that name. -/
theorem Db.filteredOnly_misses_child : ∃ (db : Db) (sql : HeadPredicate),
    db.HasTreeIndex .sample "p" "t" ∧
      compileExpr QueryEngine.sample.formats ["p"] (.compare .eq .name (.string "leaf")) = .ok sql ∧
      db.treeSelects .sample "p" "t" .child .filteredOnly false sql ≠
        db.treeTargets .sample "p" "t" .child sql ∧
      ¬ db.ConsistentModes .sample "p" "t" .child false sql := by
  obtain ⟨db, sql, hindex, hsql, htarget⟩ := exists_treeTrace
  have hmisses : db.treeSelects .sample "p" "t" .child .filteredOnly false sql ≠
      db.treeTargets .sample "p" "t" .child sql := by
    intro heq
    rw [← heq] at htarget
    rcases (hindex.mem_filteredOnly.1 htarget).1 with hscope | hscope
    · cases hscope
    · cases hscope
  exact ⟨db, sql, hindex, hsql, hmisses, fun hmodes => hmisses hmodes.filteredOnly⟩

end KevinDb
