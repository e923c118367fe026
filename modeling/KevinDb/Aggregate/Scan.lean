import KevinDb.Aggregate.Query

namespace KevinDb
set_option autoImplicit true
open Std

/-- A row of the aggregate query over the segments. -/
structure AggregateRunRow where
  projectName : String
  traceId : String
  spanId : String
  runType : String
  status : RunStatus
  startTimeUnixNano : Int
  latencyNanos : Int
  promptTokens : Option Int
  completionTokens : Option Int
  totalTokens : Option Int
  promptCost : Option ℚ
  completionCost : Option ℚ
  totalCost : Option ℚ
  firstTokenLatencyNanos : Option Int
  evaluatorScore : Option ℚ
  modelName : Option String
  providerName : Option String
deriving DecidableEq

def AggregateRunRow.runKey (row : AggregateRunRow) : RunKey :=
  ⟨row.projectName, row.traceId, row.spanId⟩

/-- The columns that the aggregate query selects from a row. -/
def AggregateRunRow.ofRecord (x : Externals) (record : SpanRecord) : AggregateRunRow :=
  let metrics := x.typedRunMetrics record
  { projectName := record.projectName
    traceId := record.traceId
    spanId := record.spanId
    runType := record.runType
    status := runStatus record.statusCode record.endTimeUnixNano
    startTimeUnixNano := record.startTimeUnixNano
    latencyNanos := metrics.latencyNanos
    promptTokens := metrics.promptTokens
    completionTokens := metrics.completionTokens
    totalTokens := metrics.totalTokens
    promptCost := metrics.promptCost
    completionCost := metrics.completionCost
    totalCost := metrics.totalCost
    firstTokenLatencyNanos := metrics.firstTokenLatencyNanos
    evaluatorScore := metrics.evaluatorScore
    modelName := metrics.modelName
    providerName := metrics.providerName }

/-- The query of `aggregate_datafusion_sql` on a batch of segments. -/
def World.aggregateBatch (rules : Sql.TextRules) (x : Externals) (w : World) (query : RunQuery)
    (keys : List RunKey) (batch : List SegmentSource) : Option (List AggregateRunRow) := do
  let sourceKeys :=
    if batch.any (·.candidateRows.isEmpty) ∧ keys ≠ [] then some keys else none
  let rows ← batch.mapM (w.segmentRows rules query sourceKeys)
  return (((latestVersions rows.flatten).toList.map fun version => version.2.1).filter
    fun record => query.keeps rules (.ofRecord record)).map (AggregateRunRow.ofRecord x)

/-- A result of `load_aggregate_rows_with_datafusion`, whose queries leave the order open. -/
def World.AggregateRows (rules : Sql.TextRules) (x : Externals) (w : World) (query : RunQuery)
    (segments : List SegmentSource) (rows : List AggregateRunRow) : Prop :=
  ∃ batches, (chunks maxDatafusionSegmentsPerBatch segments).mapM
      (w.aggregateBatch rules x query (candidateRunKeys segments)) = some batches ∧
    rows.Perm batches.flatten

structure FeedbackScore where
  key : String
  score : Score
deriving DecidableEq

/-- The `ON` of `load_feedback_scores`. -/
def FeedbackRecord.joins (record : FeedbackRecord) (head : RunHead) : Bool :=
  record.runId.any fun runId =>
    (head.runId != "" && runId == head.runId) || runId == head.generatedRunId

/-- No key is of a later trace, in the order of `run_key_predicates`. -/
def isLastTrace (keys : List RunKey) (k : RunKey) : Bool :=
  keys.all fun other =>
    (compare other.projectName k.projectName).then (compare other.traceId k.traceId) != .gt

/-- The `WHERE` of `load_feedback_scores`. The predicates on the traces are joined by `OR`
without parentheses, so that `AND` ties the others to the last trace alone. -/
def RunAggregateQuery.selectsScore (query : RunAggregateQuery) (keys : List RunKey) (k : RunKey)
    (record : FeedbackRecord) : Bool :=
  keys.contains k && (!isLastTrace keys k ||
    (record.scoreNumber.isSome && (record.projectName.all (· == k.projectName)) &&
      (query.projectNames.isEmpty || query.projectNames.contains k.projectName) &&
      (query.feedbackKeys.isEmpty || query.feedbackKeys.contains record.key)))

/-- The runs and the feedback that `load_feedback_scores` reads. -/
def Db.scoreRows (db : Db) (feedback : FeedbackTable) (query : RunAggregateQuery)
    (keys : List RunKey) : List (RunKey × FeedbackRecord) :=
  db.runHeads.toList.flatMap fun head =>
    ((feedback.toList.map Prod.snd).filter fun record =>
      record.joins head.2 && query.selectsScore keys head.1 record).map fun record =>
        (head.1, record)

/-- `load_feedback_scores`. Reading a null score as a number panics. -/
def Db.loadFeedbackScores (db : Db) (feedback : FeedbackTable) (query : RunAggregateQuery)
    (keys : List RunKey) : Except String (RunKey → List FeedbackScore) :=
  let rows := db.scoreRows feedback query keys
  if rows.any (·.2.scoreNumber.isNone) then .error "error retrieving column 4"
  else .ok fun k => (rows.filter (·.1 = k)).filterMap fun row =>
    row.2.scoreNumber.map fun score => ⟨row.2.key, score⟩

structure GroupVariant where
  group : AggregateGroup
  feedback : List FeedbackScore
deriving DecidableEq

/-- `time_bucket`. -/
def timeBucket (startTimeUnixNano : Int) (bucket : Option Int) : Int :=
  let bucket := max (bucket.getD bucketNanos) 1
  startTimeUnixNano / bucket * bucket

def appendGroupValues (variants : List GroupVariant) (key : RunAggregateGroup)
    (values : List String) : List GroupVariant :=
  variants.flatMap fun variant => values.map fun value =>
    { variant with group := variant.group.insert value key }

/-- The scores of a run that the query asks for. -/
def RunAggregateQuery.scoresOf (query : RunAggregateQuery) (scores : List FeedbackScore) :
    List FeedbackScore :=
  scores.filter fun score => query.feedbackKeys.isEmpty || query.feedbackKeys.contains score.key

def expandFeedbackGroup (variants : List GroupVariant) (scores : List FeedbackScore) :
    List GroupVariant :=
  variants.flatMap fun variant => scores.map fun score =>
    ⟨variant.group.insert score.key .feedbackKey, [score]⟩

def expandGroupVariants (query : RunAggregateQuery) (tags : List String)
    (scores : List FeedbackScore) (row : AggregateRunRow) (variants : List GroupVariant) :
    RunAggregateGroup → List GroupVariant
  | .project => appendGroupValues variants .project [row.projectName]
  | .timeBucket => appendGroupValues variants .timeBucket
      [toString (timeBucket row.startTimeUnixNano query.timeBucketNanos)]
  | .runType => appendGroupValues variants .runType [row.runType]
  | .tag => appendGroupValues variants .tag (if tags.isEmpty then ["untagged"] else tags)
  | .model => appendGroupValues variants .model [row.modelName.getD "unknown"]
  | .provider => appendGroupValues variants .provider [row.providerName.getD "unknown"]
  | .error => appendGroupValues variants .error [if row.status = .error then "true" else "false"]
  | .feedbackKey => expandFeedbackGroup variants (query.scoresOf scores)

def attachFeedbackMetrics (query : RunAggregateQuery) (scores : List FeedbackScore)
    (variants : List GroupVariant) : List GroupVariant :=
  if query.feedbackKeys.isEmpty || (query.scoresOf scores).isEmpty then variants
  else variants.map fun variant => { variant with feedback := query.scoresOf scores }

def groupVariants (query : RunAggregateQuery) (tags : List String) (scores : List FeedbackScore)
    (row : AggregateRunRow) : List GroupVariant :=
  let variants := query.groupBy.foldl (expandGroupVariants query tags scores row)
    [⟨.empty, []⟩]
  if query.groupBy.contains .feedbackKey then variants
  else attachFeedbackMetrics query scores variants

abbrev SummaryAccumulator := List ℚ

def SummaryAccumulator.pushOptionalI64 (values : SummaryAccumulator) (value : Option Int) :
    SummaryAccumulator :=
  values ++ (value.map Int.cast).toList

def SummaryAccumulator.pushOptionalF64 (values : SummaryAccumulator) (value : Option ℚ) :
    SummaryAccumulator :=
  values ++ value.toList

def SummaryAccumulator.finish (values : SummaryAccumulator) (percentiles : Bool) :
    Option NumericStats :=
  if values = [] then none
  else
    let sorted := ascending values
    some {
      count := sorted.length
      sum := some sorted.sum
      avg := some (sorted.sum / sorted.length)
      min := sorted.head?
      max := sorted.getLast?
      p50 := if percentiles then percentile sorted 50 else none
      p95 := if percentiles then percentile sorted 95 else none
      p99 := if percentiles then percentile sorted 99 else none }

def FeedbackScoreStats.fromSummary (summary : SummaryAccumulator) : FeedbackScoreStats :=
  let sorted := ascending summary
  { count := sorted.length
    avg := average sorted
    min := sorted.head?
    max := sorted.getLast?
    p50 := percentile sorted 50
    p95 := percentile sorted 95
    p99 := percentile sorted 99
    distribution := (feedbackDistribution sorted).toList }

structure AggregateAccumulator where
  count : Nat
  errorCount : Nat
  latencyNanos : SummaryAccumulator
  promptTokens : SummaryAccumulator
  completionTokens : SummaryAccumulator
  totalTokens : SummaryAccumulator
  promptCost : SummaryAccumulator
  completionCost : SummaryAccumulator
  totalCost : SummaryAccumulator
  firstTokenLatencyNanos : SummaryAccumulator
  evaluatorScore : SummaryAccumulator
  feedbackScores : Table String SummaryAccumulator

def AggregateAccumulator.empty : AggregateAccumulator := ⟨0, 0, [], [], [], [], [], [], [], [], [], ∅⟩

/-- The loop of `push` over the scores. A score that is not finite makes an entry all the same. -/
def pushScores (scores : Table String SummaryAccumulator) (feedback : List FeedbackScore) :
    Table String SummaryAccumulator :=
  feedback.foldl (fun scores score =>
    scores.insert score.key (scores[score.key]?.getD [] ++ score.score.value.toList)) scores

def AggregateAccumulator.push (accumulator : AggregateAccumulator) (row : AggregateRunRow)
    (feedback : List FeedbackScore) : AggregateAccumulator where
  count := accumulator.count + 1
  errorCount := accumulator.errorCount + if row.status = .error then 1 else 0
  latencyNanos := accumulator.latencyNanos ++ [(row.latencyNanos : ℚ)]
  promptTokens := accumulator.promptTokens.pushOptionalI64 row.promptTokens
  completionTokens := accumulator.completionTokens.pushOptionalI64 row.completionTokens
  totalTokens := accumulator.totalTokens.pushOptionalI64 row.totalTokens
  promptCost := accumulator.promptCost.pushOptionalF64 row.promptCost
  completionCost := accumulator.completionCost.pushOptionalF64 row.completionCost
  totalCost := accumulator.totalCost.pushOptionalF64 row.totalCost
  firstTokenLatencyNanos :=
    accumulator.firstTokenLatencyNanos.pushOptionalI64 row.firstTokenLatencyNanos
  evaluatorScore := accumulator.evaluatorScore.pushOptionalF64 row.evaluatorScore
  feedbackScores := pushScores accumulator.feedbackScores feedback

def AggregateAccumulator.finish (accumulator : AggregateAccumulator) : RunAggregateMetrics where
  count := accumulator.count
  errorCount := accumulator.errorCount
  errorRate := if accumulator.count = 0 then 0 else accumulator.errorCount / accumulator.count
  latencyNanos := accumulator.latencyNanos.finish true
  promptTokens := accumulator.promptTokens.finish false
  completionTokens := accumulator.completionTokens.finish false
  totalTokens := accumulator.totalTokens.finish false
  promptCost := accumulator.promptCost.finish false
  completionCost := accumulator.completionCost.finish false
  totalCost := accumulator.totalCost.finish false
  firstTokenLatencyNanos := accumulator.firstTokenLatencyNanos.finish true
  evaluatorScore := accumulator.evaluatorScore.finish false
  feedbackScores := accumulator.feedbackScores.toList.map fun entry =>
    (entry.1, .fromSummary entry.2)

/-- The rows with their variants, in the order in which they are pushed. -/
def variantsOf (query : RunAggregateQuery) (tags : RunKey → List String)
    (scores : RunKey → List FeedbackScore) (rows : List AggregateRunRow) :
    List (AggregateRunRow × GroupVariant) :=
  rows.flatMap fun row =>
    (groupVariants query (tags row.runKey) (scores row.runKey) row).map fun variant =>
      (row, variant)

/-- `aggregate_rows`. -/
def aggregateRows (query : RunAggregateQuery) (tags : RunKey → List String)
    (scores : RunKey → List FeedbackScore) (rows : List AggregateRunRow) : List RunAggregateRow :=
  (groupFold (fun push => push.2.group) .empty
    (fun (accumulator : AggregateAccumulator) push => accumulator.push push.1 push.2.feedback)
    (variantsOf query tags scores rows)).toList.map fun entry => ⟨entry.1, entry.2.finish⟩

/-- The end of `aggregate_runs_from_vortex`, once the rows are loaded. -/
def Db.aggregate (tables : FilterTables) (db : Db) (feedback : FeedbackTable)
    (query : RunAggregateQuery) (keys : List RunKey) (rows : List AggregateRunRow) :
    Except String (List RunAggregateRow) := do
  let rows := rows.filter fun row => keys.contains row.runKey
  let tags : RunKey → List String := fun k =>
    if query.groupBy.contains .tag then (tables.tags k).map TagRow.tag else []
  let scores ←
    if query.groupBy.contains .feedbackKey || !query.feedbackKeys.isEmpty then
      db.loadFeedbackScores feedback query (rows.map AggregateRunRow.runKey)
    else .ok fun _ => []
  return aggregateRows query tags scores rows

/-- A result of `aggregate_runs_from_vortex`. -/
def World.AggregateScan (engine : QueryEngine) (x : Externals) (stored : StoredSegments)
    (w : World) (feedback : FeedbackTable) (query : RunAggregateQuery)
    (result : Except String (List RunAggregateRow)) : Prop :=
  ∃ segments predicate, w.db.PlanResult engine query.toRunQuery segments ∧
    query.toRunQuery.searchPredicate engine.formats = .ok predicate ∧
    match stored.searchPlan query.limits predicate segments with
    | .error message => result = .error message
    | .ok found => ∃ rows, w.AggregateRows engine.rules x query.toRunQuery found rows ∧
        result = w.db.aggregate engine.tables feedback query (candidateRunKeys found) rows

end KevinDb
