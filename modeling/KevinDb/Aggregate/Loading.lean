import KevinDb.Aggregate.Scan

namespace KevinDb
set_option autoImplicit true
open Std

/-- The row of the aggregate query for the run of a head. -/
def AggregateRunRow.ofHead (row : RunKey × RunHead) : AggregateRunRow where
  projectName := row.1.projectName
  traceId := row.1.traceId
  spanId := row.1.spanId
  runType := row.2.runType
  status := row.2.status
  startTimeUnixNano := row.2.startTimeUnixNano
  latencyNanos := row.2.metrics.latencyNanos
  promptTokens := row.2.metrics.promptTokens
  completionTokens := row.2.metrics.completionTokens
  totalTokens := row.2.metrics.totalTokens
  promptCost := row.2.metrics.promptCost
  completionCost := row.2.metrics.completionCost
  totalCost := row.2.metrics.totalCost
  firstTokenLatencyNanos := row.2.metrics.firstTokenLatencyNanos
  evaluatorScore := row.2.metrics.evaluatorScore
  modelName := row.2.metrics.modelName
  providerName := row.2.metrics.providerName

variable {x : Externals} {w : World} {rules : Sql.TextRules} {query : RunQuery}
  {keys : List RunKey} {segments : List SegmentSource} {rows heads : List (RunKey × RunHead)}
  {row : RunKey × RunHead} {engine : QueryEngine}

@[simp] theorem AggregateRunRow.runKey_ofHead (row : RunKey × RunHead) :
    (AggregateRunRow.ofHead row).runKey = row.1 := rfl

/-- The columns of a row are those of the head that names it. -/
theorem World.Consistent.ofRecord_eq (hw : w.Consistent x)
    (hk : w.db.runHeads[row.1]? = some row.2)
    (hrow : w.rowAt row.2.lastTraceSegmentId row.2.lastRowIndex = some record) :
    AggregateRunRow.ofRecord x record = .ofHead row := by
  obtain ⟨k, head⟩ := row
  obtain ⟨record', hrow', rfl, hwritten⟩ := hw.head_row k _ (Db.head_of_runHeads hk)
  cases hrow.symm.trans hrow'
  have hrunType : head.runType = record.runType := congrArg RunHead.runType hwritten
  have hstatus : head.status = statusFromRecord record := congrArg RunHead.status hwritten
  have hstart : head.startTimeUnixNano = record.startTimeUnixNano :=
    congrArg RunHead.startTimeUnixNano hwritten
  have hmetrics : head.metrics = x.typedRunMetrics record := congrArg RunHead.metrics hwritten
  rw [AggregateRunRow.ofHead, AggregateRunRow.ofRecord, hrunType, hstatus, hstart, hmetrics]
  rfl

/-- The rows that the candidates name and the query keeps. -/
def World.keptVersions (rules : Sql.TextRules) (w : World) (query : RunQuery)
    (segments : List SegmentSource) : List (SpanRecord × Nat) :=
  ((segments.flatMap SegmentSource.candidates).filterMap w.candidateVersion).filter
    fun version => query.keeps rules (.ofRecord version.1)

theorem World.aggregateBatch_perm (x : Externals) (rules : Sql.TextRules) (query : RunQuery)
    (keys : List RunKey) (hnames : w.Names segments) :
    ∃ found, w.aggregateBatch rules x query keys segments = some found ∧
      found.Perm ((w.keptVersions rules query segments).map fun version =>
        AggregateRunRow.ofRecord x version.1) := by
  obtain ⟨versions, hversions, hperm⟩ := World.batchVersions_perm rules query hnames
  refine ⟨_, ?_, hperm.map _⟩
  rw [World.aggregateBatch, hnames.any_isEmpty]
  simp only [hversions, Option.bind_eq_bind, Option.bind_some, Option.pure_def,
    Bool.false_eq_true, false_and, if_false]
  rw [show (fun version : RunKey × SpanRecord × Nat => version.2.1) = Prod.fst ∘ Prod.snd from rfl,
    ← List.map_map, List.filter_map, List.map_map]
  rfl

theorem World.aggregateBatches_perm (x : Externals) (rules : Sql.TextRules) (query : RunQuery)
    (keys : List RunKey) {batches : List (List SegmentSource)} (hnames : w.Names batches.flatten) :
    ∃ found, batches.mapM (w.aggregateBatch rules x query keys) = some found ∧
      found.flatten.Perm ((w.keptVersions rules query batches.flatten).map fun version =>
        AggregateRunRow.ofRecord x version.1) := by
  induction batches with
  | nil => exact ⟨[], rfl, .nil⟩
  | cons batch batches ih =>
    rw [List.flatten_cons] at hnames
    obtain ⟨found, hfound, hperm⟩ := World.aggregateBatch_perm x rules query keys
      (hnames.of_sublist (List.sublist_append_left batch batches.flatten))
    obtain ⟨rest, hrest, hpermRest⟩ :=
      ih (hnames.of_sublist (List.sublist_append_right batch batches.flatten))
    refine ⟨found :: rest, ?_, ?_⟩
    · rw [List.mapM_cons, hfound, hrest]
      rfl
    · rw [List.flatten_cons, List.flatten_cons, World.keptVersions, List.flatMap_append,
        List.filterMap_append, List.filter_append, List.map_append]
      exact hperm.append hpermRest

/-- The rows of admitted heads are kept, and hold what the heads hold. -/
theorem World.Consistent.keptVersions_perm (hw : w.Consistent x)
    (hrows : w.db.admitted engine (query.withRoot none) = .ok rows)
    (hsub : ∀ row ∈ heads, row ∈ rows)
    (hsegments : (segments.flatMap SegmentSource.candidates).Perm
      (heads.filterMap w.db.candidateOf)) :
    ((w.keptVersions engine.rules (query.withRoot none) segments).map fun version =>
      AggregateRunRow.ofRecord x version.1).Perm (heads.map .ofHead) := by
  have hheads : ((heads.filterMap w.headRow).filter fun version =>
      (query.withRoot none).keeps engine.rules (.ofRecord version.1)).map
        (fun version => AggregateRunRow.ofRecord x version.1) = heads.map .ofHead := by
    clear hsegments
    induction heads with
    | nil => rfl
    | cons row heads ih =>
      have hrow := hsub row List.mem_cons_self
      have hk := (Db.mem_admitted hrows hrow).1
      obtain ⟨record, hrecord, -⟩ := hw.row_of_runHeads hk
      obtain ⟨run, hcontent, hkeeps, -⟩ := hw.admitted_content hrows hrow
      have hread : w.headRow row = some (record, row.2.lastRowIndex) := by
        rw [World.headRow, hrecord]
        rfl
      rw [World.content, hrecord] at hcontent
      obtain rfl := Option.some.inj hcontent
      rw [List.filterMap_cons_some hread, List.filter_cons, if_pos hkeeps, List.map_cons,
        List.map_cons, ih fun other hother => hsub other (List.mem_cons_of_mem _ hother),
        hw.ofRecord_eq hk hrecord]
  rw [← hheads, ← (hw.candidateVersions hrows hsub).2]
  exact ((hsegments.filterMap _).filter _).map _

/-- The aggregate queries find the rows of the heads of the plan. -/
theorem World.Consistent.aggregateRows_perm (hw : w.Consistent x)
    (hrows : w.db.admitted engine (query.withRoot none) = .ok rows) (hheads : heads.Subperm rows)
    (hnonempty : ∀ segment ∈ segments, segment.candidateRows ≠ [])
    (hsegments : (segments.flatMap SegmentSource.candidates).Perm
      (heads.filterMap w.db.candidateOf)) :
    (∃ found, w.AggregateRows engine.rules x (query.withRoot none) segments found) ∧
      ∀ found, w.AggregateRows engine.rules x (query.withRoot none) segments found →
        found.Perm (heads.map .ofHead) := by
  obtain ⟨hnames, -⟩ := hw.names hrows hheads hnonempty hsegments
  have hchunks := flatten_chunks (by decide : 0 < maxDatafusionSegmentsPerBatch) segments
  rw [← hchunks] at hnames
  obtain ⟨batches, hbatches, hperm⟩ := World.aggregateBatches_perm x engine.rules
    (query.withRoot none) (candidateRunKeys segments) hnames
  rw [hchunks] at hperm
  constructor
  · exact ⟨_, batches, hbatches, .refl _⟩
  · rintro found ⟨batches', hbatches', hfound⟩
    obtain rfl := Option.some.inj (hbatches'.symm.trans hbatches)
    refine (hfound.trans hperm).trans ?_
    exact hw.keptVersions_perm hrows (fun row hrow => hheads.subset hrow) hsegments

end KevinDb
