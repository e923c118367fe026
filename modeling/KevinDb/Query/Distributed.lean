import KevinDb.Query.Segments

namespace KevinDb
set_option autoImplicit true
open Sql

structure DistributedQueryConfig where
  workerCount : Nat
  maxSegmentsPerPartition : Nat
  maxInFlightPartitions : Nat
  maxQueuedPartitions : Option Nat
  maxEstimatedObjectStoreRequestsPerWorker : Option Nat
  maxCandidateBytesPerWorker : Option Int
deriving DecidableEq, Repr

/-- `validate_distributed_config`. -/
def DistributedQueryConfig.isValid (config : DistributedQueryConfig) : Bool :=
  config.workerCount ≠ 0 && config.maxSegmentsPerPartition ≠ 0 && config.maxInFlightPartitions ≠ 0

def estimateVortexObjectStoreRequests (candidateSegments : Nat) : Nat :=
  min (2 ^ 64 - 1) (candidateSegments * 48)

/-- The partitions of `plan_partitions`. -/
def planPartitions (config : DistributedQueryConfig) (segments : List SegmentSource) :
    List (List SegmentSource) :=
  chunks config.maxSegmentsPerPartition segments

/-- `shed_if_overloaded` and `enforce_worker_budgets`, given the sizes of the objects. -/
def DistributedQueryConfig.admits (config : DistributedQueryConfig) (totalBytes : String → Int)
    (partitions : List (List SegmentSource)) : Bool :=
  (config.maxQueuedPartitions.all fun limit => partitions.length ≤ limit) &&
    partitions.all fun partition =>
      (config.maxEstimatedObjectStoreRequestsPerWorker.all fun limit =>
        estimateVortexObjectStoreRequests partition.length ≤ limit) &&
      config.maxCandidateBytesPerWorker.all fun limit =>
        (partition.map fun segment => totalBytes segment.uri).sum ≤ limit

/-- A result of `list_runs_distributed` on a plan. The workers finish in any order. -/
def World.ListRunsDistributed (rules : TextRules) (w : World) (query : RunQuery)
    (config : DistributedQueryConfig) (totalBytes : String → Int) (segments : List SegmentSource)
    (runs : List RunSummary) : Prop :=
  config.isValid ∧ config.admits totalBytes (planPartitions config segments) ∧
    ∃ results arrived : List (List RunSummary),
      List.Forall₂ (w.SegmentsResult rules query.batchQuery (candidateRunKeys segments))
        (planPartitions config segments) results ∧
      arrived.Perm results ∧
      runs = query.page (arrived.flatten.filter (w.db.shows query (candidateRunKeys segments)))

/-- The runs that the candidates of the segments name. -/
def World.candidateRuns (w : World) (segments : List SegmentSource) : List RunSummary :=
  ((segments.flatMap SegmentSource.candidates).filterMap w.candidateVersion).map fun version =>
    RunSummary.ofRecord version.1

section distributed

variable {rules : TextRules} {w : World} {query : RunQuery} {config : DistributedQueryConfig}
  {totalBytes : String → Int} {segments : List SegmentSource} {runs : List RunSummary}
  {x : Externals} {engine : QueryEngine} {rows heads : List (RunKey × RunHead)}

theorem planPartitions_flatten (segments : List SegmentSource) (hconfig : config.isValid) :
    (planPartitions config segments).flatten = segments := by
  apply flatten_chunks
  simp [DistributedQueryConfig.isValid] at hconfig
  omega

/-- Runs of distinct start times and span ids have one order. -/
theorem World.keptRuns_untied (rules : TextRules) (query : RunQuery)
    (hdistinct : ((w.candidateRuns segments).map fun run =>
      (run.startTimeUnixNano, run.spanId)).Nodup) :
    Untied query.before (w.keptRuns rules query (segments.flatMap SegmentSource.candidates)) := by
  intro a ha b hb hab hba
  apply List.inj_on_of_nodup_map hdistinct (List.mem_of_mem_filter ha) (List.mem_of_mem_filter hb)
  have hspan := @le_antisymm _ _ a.spanId b.spanId
  rw [RunQuery.before] at hab hba
  rw [Prod.mk.injEq]
  grind

/-- A worker gives the first runs of an order of its own. -/
theorem World.SegmentsResult.worker (hnames : w.Names segments)
    (hlength : (segments.flatMap SegmentSource.candidates).length < 2 ^ 64)
    (h : w.SegmentsResult rules query.batchQuery keys segments runs) :
    ∃ ordered, Arranges query.before
        (w.keptRuns rules query (segments.flatMap SegmentSource.candidates)) ordered ∧
      runs = takeLimit query.batchQuery.limit ordered :=
  h.arranges hnames hlength

/-- The distributed listing, too, is a page of an order of the runs that the plan names. -/
theorem World.ListRunsDistributed.arranges (hplan : w.IsPlan rules query segments)
    (h : w.ListRunsDistributed rules query config totalBytes segments runs) :
    ∃ ordered, Arranges query.before
        (w.keptRuns rules query (segments.flatMap SegmentSource.candidates)) ordered ∧
      runs = takeLimit query.limit (ordered.drop (query.offset.getD 0)) := by
  obtain ⟨hconfig, -, results, arrived, hresults, harrived, rfl⟩ := h
  have hflatten := planPartitions_flatten segments hconfig
  have hworkers : List.Forall₂ (fun batch result => ∃ ordered, Arranges query.before
        (w.keptRuns rules query (batch.flatMap SegmentSource.candidates)) ordered ∧
      result = takeLimit query.batchQuery.limit ordered)
      (planPartitions config segments) results := by
    rw [List.forall₂_iff_zip] at hresults ⊢
    refine ⟨hresults.1, fun {batch result} hmem => ?_⟩
    have hsub : batch.Sublist segments := by
      rw [← hflatten]
      exact List.sublist_flatten_of_mem (List.of_mem_zip hmem).1
    apply (hresults.2 hmem).worker (hplan.names.of_sublist hsub)
    exact (hsub.flatMap _).length_le.trans_lt hplan.length_lt
  -- The results come in an order of their own, and so do the partitions with them.
  obtain ⟨partitions, hpartitions, harrivedWorkers⟩ :=
    (List.forall₂_comp_perm_eq_perm_comp_forall₂ ▸ ⟨results, hworkers, harrived.symm⟩ :
      Relation.Comp List.Perm (List.Forall₂ fun batch result => ∃ ordered,
        Arranges query.before (w.keptRuns rules query
          (batch.flatMap SegmentSource.candidates)) ordered ∧
        result = takeLimit query.batchQuery.limit ordered)
        (planPartitions config segments) arrived)
  have hcandidates : (partitions.flatten.flatMap SegmentSource.candidates).Perm
      (segments.flatMap SegmentSource.candidates) := by
    rw [← hflatten]
    exact hpartitions.symm.flatten.flatMap_right _
  have hshown : arrived.flatten.filter (w.db.shows query (candidateRunKeys segments)) =
      arrived.flatten := by
    rw [List.filter_eq_self]
    intro run hrun
    obtain ⟨result, hresult, hrun⟩ := List.mem_flatten.1 hrun
    obtain ⟨partition, hpartition, ordered, harranges, rfl⟩ :=
      exists_of_forall₂ harrivedWorkers hresult
    apply hplan.shows
    have hmem := harranges.perm.mem_iff.1 ((takeLimit_sublist _ _).subset hrun)
    apply World.keptRuns_subset _ hmem
    intro candidate hcandidate
    rw [← hcandidates.mem_iff]
    exact (List.sublist_flatten_of_mem hpartition).flatMap _ |>.subset hcandidate
  obtain ⟨ordered, harranges, hpage⟩ := World.page_arranges
    (hcandidates.length_eq.trans_lt hplan.length_lt) harrivedWorkers
  rw [hshown]
  exact ⟨ordered, ⟨harranges.perm.trans (World.keptRuns_perm hcandidates), harranges.sorted⟩, hpage⟩

theorem World.IsPlan.exists_listRunsDistributed (hplan : w.IsPlan rules query segments)
    (hconfig : config.isValid)
    (hbudget : config.admits totalBytes (planPartitions config segments)) :
    ∃ runs, w.ListRunsDistributed rules query config totalBytes segments runs := by
  have hworkers : ∀ partition ∈ planPartitions config segments, ∃ runs,
      w.SegmentsResult rules query.batchQuery (candidateRunKeys segments) partition runs := by
    intro partition hpartition
    have hsub : partition.Sublist segments := by
      rw [← planPartitions_flatten segments hconfig]
      exact List.sublist_flatten_of_mem hpartition
    exact (hplan.names.of_sublist hsub).exists_segmentsResult _ _ _
  obtain ⟨results, hresults⟩ := exists_forall₂ hworkers
  exact ⟨_, hconfig, hbudget, results, results, hresults, .refl _, rfl⟩

/-- A plan whose candidate runs have distinct start times and span ids is listed in one way, by one
node as by any workers. -/
theorem World.IsPlan.distributed_eq (hplan : w.IsPlan rules query segments)
    (hdistinct : ((w.candidateRuns segments).map fun run =>
      (run.startTimeUnixNano, run.spanId)).Nodup)
    (hconfig : config.isValid)
    (hbudget : config.admits totalBytes (planPartitions config segments)) :
    ∃ runs, (∀ found, w.ListRuns rules query segments found ↔ found = runs) ∧
      ∀ found, w.ListRunsDistributed rules query config totalBytes segments found ↔
        found = runs := by
  have huntied := World.keptRuns_untied rules query hdistinct
  obtain ⟨runs, hruns⟩ := hplan.exists_listRuns
  obtain ⟨distributed, hdistributed⟩ := hplan.exists_listRunsDistributed hconfig hbudget
  obtain ⟨ordered, harranges, rfl⟩ := hruns.arranges hplan
  have hlisted : ∀ found, w.ListRuns rules query segments found →
      found = takeLimit query.limit (ordered.drop (query.offset.getD 0)) := by
    intro found hfound
    obtain ⟨ordered', harranges', rfl⟩ := hfound.arranges hplan
    rw [huntied.arranges_unique harranges' harranges]
  have hworkers : ∀ found, w.ListRunsDistributed rules query config totalBytes segments found →
      found = takeLimit query.limit (ordered.drop (query.offset.getD 0)) := by
    intro found hfound
    obtain ⟨ordered', harranges', rfl⟩ := hfound.arranges hplan
    rw [huntied.arranges_unique harranges' harranges]
  refine ⟨_, fun found => ⟨hlisted found, ?_⟩, fun found => ⟨hworkers found, ?_⟩⟩
  · rintro rfl
    exact hruns
  · rintro rfl
    rwa [← hworkers distributed hdistributed]

/-- The candidate runs of admitted heads start where the heads say. -/
theorem World.Consistent.candidateRuns_keys (hw : w.Consistent x)
    (hrows : w.db.admitted engine query = .ok rows) (hsub : ∀ row ∈ heads, row ∈ rows)
    (hsegments : (segments.flatMap SegmentSource.candidates).Perm
      (heads.filterMap w.db.candidateOf)) :
    ((w.candidateRuns segments).map fun run => (run.startTimeUnixNano, run.spanId)).Perm
      (heads.map fun row => (row.2.startTimeUnixNano, row.1.spanId)) := by
  have hheads : (heads.filterMap w.headRow).map (fun version =>
      ((RunSummary.ofRecord version.1).startTimeUnixNano,
        (RunSummary.ofRecord version.1).spanId)) =
      heads.map fun row => (row.2.startTimeUnixNano, row.1.spanId) := by
    clear hsegments
    induction heads with
    | nil => rfl
    | cons row heads ih =>
      have hrow := hsub row List.mem_cons_self
      obtain ⟨record, hrecord, -⟩ := hw.row_of_runHeads (Db.mem_admitted hrows hrow).1
      have hread : w.headRow row = some (record, row.2.lastRowIndex) := by
        rw [World.headRow, hrecord]
        rfl
      obtain ⟨hkey, hstart⟩ := hw.content_eq hrows hrow (World.content_headRow.2 ⟨_, hread, rfl⟩)
      have hspan := congrArg RunKey.spanId hkey
      rw [List.filterMap_cons_some hread, List.map_cons, List.map_cons,
        ih fun other hother => hsub other (List.mem_cons_of_mem _ hother), hstart]
      exact congrArg (fun spanId => (row.2.startTimeUnixNano, spanId) :: _) hspan
  rw [← hheads, World.candidateRuns, List.map_map]
  apply List.Perm.map
  rw [← (hw.candidateVersions hrows hsub).2]
  exact hsegments.filterMap _

end distributed

/-- One worker for one segment. -/
def DistributedQueryConfig.sample : DistributedQueryConfig where
  workerCount := 1
  maxSegmentsPerPartition := 1
  maxInFlightPartitions := 1
  maxQueuedPartitions := some 1
  maxEstimatedObjectStoreRequestsPerWorker := some 48
  maxCandidateBytesPerWorker := none

end KevinDb
