import KevinDb.Aggregate.Rollups
import KevinDb.Query.SearchPlan

namespace KevinDb
set_option autoImplicit true
open Std

inductive RunAggregateGroup where
  | project
  | timeBucket
  | runType
  | tag
  | model
  | provider
  | error
  | feedbackKey
deriving DecidableEq, Repr

structure RunAggregateQuery where
  projectNames : List String
  startTimeMinUnixNano : Option Int
  startTimeMaxUnixNano : Option Int
  runType : Option String
  error : Option Bool
  filter : Option FilterExpr
  traceFilter : Option FilterExpr
  treeFilter : Option TreeFilterExpr
  groupBy : List RunAggregateGroup
  timeBucketNanos : Option Int
  feedbackKeys : List String
  includeDeleted : Bool
  limits : RunQueryLimits

def RunAggregateQuery.new (projectName : String) : RunAggregateQuery where
  projectNames := [projectName]
  startTimeMinUnixNano := none
  startTimeMaxUnixNano := none
  runType := none
  error := none
  filter := none
  traceFilter := none
  treeFilter := none
  groupBy := []
  timeBucketNanos := none
  feedbackKeys := []
  includeDeleted := false
  limits := ⟨none, none, none, none⟩

def RunAggregateQuery.toRunQuery (query : RunAggregateQuery) : RunQuery where
  projectNames := query.projectNames
  traceId := none
  parentRunId := none
  parentSpanId := none
  runType := query.runType
  isRoot := none
  error := query.error
  startTimeMinUnixNano := query.startTimeMinUnixNano
  startTimeMaxUnixNano := query.startTimeMaxUnixNano
  limit := none
  offset := none
  retentionCutoffUnixNano := none
  includeDeleted := query.includeDeleted
  filter := query.filter
  traceFilter := query.traceFilter
  treeFilter := query.treeFilter
  newestFirst := false

/-- `validate_aggregate_query`. -/
def RunAggregateQuery.validate (query : RunAggregateQuery) : Except String Unit :=
  if query.projectNames = [] then .error "aggregate query rejected: project_names is required"
  else if query.groupBy.contains .timeBucket && query.timeBucketNanos.getD 0 ≤ 0 then
    .error "aggregate query rejected: time_bucket_nanos is required for time_bucket grouping"
  else .ok ()

/-- The group of a row: the texts of the keys it is grouped by. -/
structure AggregateGroup where
  error : Option String
  feedbackKey : Option String
  modelName : Option String
  projectName : Option String
  providerName : Option String
  runType : Option String
  tag : Option String
  timeBucketStartUnixNano : Option String
deriving DecidableEq, Repr

def AggregateGroup.empty : AggregateGroup := ⟨none, none, none, none, none, none, none, none⟩

/-- The texts in the order of the names of their keys. -/
def AggregateGroup.values (group : AggregateGroup) : List (Option String) :=
  [group.error, group.feedbackKey, group.modelName, group.projectName, group.providerName,
    group.runType, group.tag, group.timeBucketStartUnixNano]

instance : Ord AggregateGroup where
  compare := compareOn AggregateGroup.values

instance : TransOrd AggregateGroup :=
  inferInstanceAs (TransCmp (compareOn AggregateGroup.values))

instance : LawfulEqOrd AggregateGroup where
  eq_of_compare {a b} h := by
    have hc : compare a.values b.values = .eq := h
    have hvalues : a.values = b.values := LawfulEqCmp.compare_eq_iff_eq.1 hc
    cases a
    cases b
    simp_all [AggregateGroup.values]

/-- Put the text of a key. -/
def AggregateGroup.insert (group : AggregateGroup) (value : String) :
    RunAggregateGroup → AggregateGroup
  | .project => { group with projectName := some value }
  | .timeBucket => { group with timeBucketStartUnixNano := some value }
  | .runType => { group with runType := some value }
  | .tag => { group with tag := some value }
  | .model => { group with modelName := some value }
  | .provider => { group with providerName := some value }
  | .error => { group with error := some value }
  | .feedbackKey => { group with feedbackKey := some value }

structure NumericStats where
  count : Nat
  sum : Option ℚ
  avg : Option ℚ
  min : Option ℚ
  max : Option ℚ
  p50 : Option ℚ
  p95 : Option ℚ
  p99 : Option ℚ
deriving DecidableEq

structure FeedbackScoreStats where
  count : Nat
  avg : Option ℚ
  min : Option ℚ
  max : Option ℚ
  p50 : Option ℚ
  p95 : Option ℚ
  p99 : Option ℚ
  distribution : List (String × Nat)
deriving DecidableEq

structure RunAggregateMetrics where
  count : Nat
  errorCount : Nat
  errorRate : ℚ
  latencyNanos : Option NumericStats
  promptTokens : Option NumericStats
  completionTokens : Option NumericStats
  totalTokens : Option NumericStats
  promptCost : Option NumericStats
  completionCost : Option NumericStats
  totalCost : Option NumericStats
  firstTokenLatencyNanos : Option NumericStats
  evaluatorScore : Option NumericStats
  feedbackScores : List (String × FeedbackScoreStats)
deriving DecidableEq

/-- `RunAggregateMetrics::default`. -/
def RunAggregateMetrics.default : RunAggregateMetrics where
  count := 0
  errorCount := 0
  errorRate := 0
  latencyNanos := none
  promptTokens := none
  completionTokens := none
  totalTokens := none
  promptCost := none
  completionCost := none
  totalCost := none
  firstTokenLatencyNanos := none
  evaluatorScore := none
  feedbackScores := []

structure RunAggregateRow where
  group : AggregateGroup
  metrics : RunAggregateMetrics
deriving DecidableEq

/-- The table a rollup query reads, and the kind of its rows. -/
inductive RollupSource where
  | runs (kind : RollupKind)
  | feedback
deriving DecidableEq, Repr

/-- The groups as a set. -/
def sameGroups (groupBy groups : List RunAggregateGroup) : Bool :=
  groupBy.all (groups.contains ·) && groups.all (groupBy.contains ·)

/-- `rollup_kind`. -/
def RunAggregateQuery.rollupSource (query : RunAggregateQuery) : Option RollupSource :=
  if sameGroups query.groupBy [.project, .timeBucket] then some (.runs .project)
  else if sameGroups query.groupBy [.project, .timeBucket, .runType] then some (.runs .runType)
  else if sameGroups query.groupBy [.project, .timeBucket, .model] then some (.runs .model)
  else if sameGroups query.groupBy [.project, .timeBucket, .error] then some (.runs .error)
  else if sameGroups query.groupBy [.project, .timeBucket, .feedbackKey] then some .feedback
  else none

def RunAggregateQuery.rollupFiltersAreExact (query : RunAggregateQuery) : RollupSource → Bool
  | .runs .runType => query.error.isNone
  | .runs .error => query.runType.isNone
  | .runs .project | .runs .model | .feedback => query.runType.isNone && query.error.isNone

/-- The end of a range may be `i64::MAX`, which has no successor. -/
def RunAggregateQuery.timeFiltersCoverWholeRollupBuckets (query : RunAggregateQuery) : Bool :=
  (query.startTimeMinUnixNano.all fun min => min % bucketNanos = 0) &&
    query.startTimeMaxUnixNano.all fun max =>
      max + 1 ≤ i64Max && (max + 1) % bucketNanos = 0

def RunAggregateQuery.rollupEligible (query : RunAggregateQuery) : Bool :=
  query.rollupSource.any fun source =>
    query.filter.isNone && query.traceFilter.isNone && query.treeFilter.isNone &&
      !query.includeDeleted && query.timeBucketNanos = some bucketNanos &&
      query.rollupFiltersAreExact source && query.timeFiltersCoverWholeRollupBuckets

/-- The bucket is between the times of the query. -/
def RunAggregateQuery.selectsBucket (query : RunAggregateQuery) (timeBucketStart : Int) : Bool :=
  (query.startTimeMinUnixNano.all fun min => min ≤ timeBucketStart) &&
    query.startTimeMaxUnixNano.all fun max => timeBucketStart ≤ max

/-- The `WHERE` of `rollup_sql` on the rollups of a project, for a kind of run rollups. -/
def RunAggregateQuery.selectsRollup (query : RunAggregateQuery) (kind : RollupKind)
    (rollup : RunMetricRollup) : Bool :=
  query.selectsBucket rollup.group.timeBucketStartUnixNano && rollup.kind = kind &&
    (kind != .runType || query.runType.all fun runType => rollup.group.groupValue = runType) &&
    (kind != .error || query.error.all fun error =>
      rollup.group.groupValue = if error then "true" else "false")

/-- The group of `run_rollup_row`. -/
def rollupGroup (kind : RollupKind) (projectName : String) (group : RollupGroup) :
    AggregateGroup :=
  let shared := { AggregateGroup.empty with
    projectName := some projectName
    timeBucketStartUnixNano := some (toString group.timeBucketStartUnixNano) }
  match kind with
  | .project => shared
  | .runType => { shared with runType := some group.groupValue }
  | .model => { shared with modelName := some group.groupValue }
  | .error => { shared with error := some group.groupValue }

/-- `rollup_numeric_f64`. -/
def rollupNumericF64 (sum avg : Option ℚ) (count : Nat) : Option NumericStats :=
  if sum.isNone && avg.isNone then none
  else some { count, sum, avg, min := none, max := none, p50 := none, p95 := none, p99 := none }

def rollupNumeric (sum : Option Int) (avg : Option ℚ) (count : Nat) : Option NumericStats :=
  rollupNumericF64 (sum.map Int.cast) avg count

/-- The metrics of `run_rollup_row`, all counted by the runs of the rollup. -/
def RollupStats.metrics (stats : RollupStats) : RunAggregateMetrics :=
  let count := stats.runCount
  { RunAggregateMetrics.default with
    count
    errorCount := stats.errorCount
    errorRate := if count = 0 then 0 else stats.errorCount / count
    latencyNanos := some {
      count
      sum := stats.latencyAvgNanos.map (· * count)
      avg := stats.latencyAvgNanos
      min := stats.latencyMinNanos.map Int.cast
      max := stats.latencyMaxNanos.map Int.cast
      p50 := stats.latencyP50Nanos
      p95 := stats.latencyP95Nanos
      p99 := stats.latencyP99Nanos }
    promptTokens := rollupNumeric stats.promptTokensSum stats.promptTokensAvg count
    completionTokens := rollupNumeric stats.completionTokensSum stats.completionTokensAvg count
    totalTokens := rollupNumeric stats.totalTokensSum stats.totalTokensAvg count
    promptCost := rollupNumericF64 stats.promptCostSum stats.promptCostAvg count
    completionCost := rollupNumericF64 stats.completionCostSum stats.completionCostAvg count
    totalCost := rollupNumericF64 stats.totalCostSum stats.totalCostAvg count
    evaluatorScore := stats.evaluatorScoreAvg.map fun avg =>
      { count, sum := some (avg * count), avg := some avg
        min := none, max := none, p50 := none, p95 := none, p99 := none } }

def runRollupRow (projectName : String) (rollup : RunMetricRollup) : RunAggregateRow :=
  ⟨rollupGroup rollup.kind projectName rollup.group, rollup.stats.metrics⟩

/-- `try_rollup_aggregate` for a kind of run rollups. -/
def RunRollups.aggregate (rollups : RunRollups) (query : RunAggregateQuery) (kind : RollupKind) :
    List RunAggregateRow :=
  (rollups.toList.filter fun entry => query.projectNames.contains entry.1).flatMap fun entry =>
    (entry.2.filter (query.selectsRollup kind)).map (runRollupRow entry.1)

/-- `feedback_metric_rollups`, project by project. -/
abbrev FeedbackRollups := Table String (List (FeedbackGroup × FeedbackRollupStats))

/-- `feedback_rollup_row`. -/
def feedbackRollupRow (projectName : String) (rollup : FeedbackGroup × FeedbackRollupStats) :
    RunAggregateRow where
  group := { AggregateGroup.empty with
    projectName := some projectName
    timeBucketStartUnixNano := some (toString rollup.1.timeBucketStartUnixNano)
    feedbackKey := some rollup.1.feedbackKey }
  metrics := { RunAggregateMetrics.default with
    count := rollup.2.feedbackCount
    feedbackScores := [(rollup.1.feedbackKey, {
      count := rollup.2.scoreCount
      avg := rollup.2.scoreAvg
      min := rollup.2.scoreMin
      max := rollup.2.scoreMax
      p50 := rollup.2.scoreP50
      p95 := rollup.2.scoreP95
      p99 := rollup.2.scoreP99
      distribution := rollup.2.scoreDistribution })] }

/-- The `WHERE` of `rollup_sql` on the feedback rollups of a project. -/
def RunAggregateQuery.selectsFeedback (query : RunAggregateQuery) (group : FeedbackGroup) : Bool :=
  query.selectsBucket group.timeBucketStartUnixNano &&
    (query.feedbackKeys = [] || query.feedbackKeys.contains group.feedbackKey)

/-- `try_rollup_aggregate` for the feedback rollups. -/
def FeedbackRollups.aggregate (rollups : FeedbackRollups) (query : RunAggregateQuery) :
    List RunAggregateRow :=
  (rollups.toList.filter fun entry => query.projectNames.contains entry.1).flatMap fun entry =>
    (entry.2.filter fun rollup => query.selectsFeedback rollup.1).map (feedbackRollupRow entry.1)

end KevinDb
