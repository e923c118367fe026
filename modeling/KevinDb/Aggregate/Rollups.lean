import KevinDb.Compaction.System
import KevinDb.Feedback.Rollup

namespace KevinDb
set_option autoImplicit true
open Std

inductive RollupKind where
  | project
  | runType
  | model
  | error
deriving DecidableEq, Repr

def RollupKind.all : List RollupKind := [.project, .runType, .model, .error]

/-- What a rollup reads of the head of a run. -/
structure RollupRun where
  runType : String
  status : RunStatus
  startTimeUnixNano : Int
  latencyNanos : Int
  promptTokens : Option Int
  completionTokens : Option Int
  totalTokens : Option Int
  promptCost : Option ℚ
  completionCost : Option ℚ
  totalCost : Option ℚ
  evaluatorScore : Option ℚ
  modelName : Option String
deriving DecidableEq

def RollupRun.ofHead (head : RunHead) : RollupRun where
  runType := head.runType
  status := head.status
  startTimeUnixNano := head.startTimeUnixNano
  latencyNanos := head.metrics.latencyNanos
  promptTokens := head.metrics.promptTokens
  completionTokens := head.metrics.completionTokens
  totalTokens := head.metrics.totalTokens
  promptCost := head.metrics.promptCost
  completionCost := head.metrics.completionCost
  totalCost := head.metrics.totalCost
  evaluatorScore := head.metrics.evaluatorScore
  modelName := head.metrics.modelName

structure RollupAccumulator where
  runCount : Nat
  errorCount : Nat
  latencyNanos : List Int
  promptTokens : List Int
  completionTokens : List Int
  totalTokens : List Int
  promptCost : List ℚ
  completionCost : List ℚ
  totalCost : List ℚ
  evaluatorScore : List ℚ

def RollupAccumulator.empty : RollupAccumulator := ⟨0, 0, [], [], [], [], [], [], [], []⟩

def RollupAccumulator.push (accumulator : RollupAccumulator) (run : RollupRun) :
    RollupAccumulator where
  runCount := accumulator.runCount + 1
  errorCount := accumulator.errorCount + if run.status = .error then 1 else 0
  latencyNanos := accumulator.latencyNanos ++ [run.latencyNanos]
  promptTokens := accumulator.promptTokens ++ run.promptTokens.toList
  completionTokens := accumulator.completionTokens ++ run.completionTokens.toList
  totalTokens := accumulator.totalTokens ++ run.totalTokens.toList
  promptCost := accumulator.promptCost ++ run.promptCost.toList
  completionCost := accumulator.completionCost ++ run.completionCost.toList
  totalCost := accumulator.totalCost ++ run.totalCost.toList
  evaluatorScore := accumulator.evaluatorScore ++ run.evaluatorScore.toList

structure RollupStats where
  runCount : Nat
  errorCount : Nat
  latencyMinNanos : Option Int
  latencyMaxNanos : Option Int
  latencyAvgNanos : Option ℚ
  latencyP50Nanos : Option ℚ
  latencyP95Nanos : Option ℚ
  latencyP99Nanos : Option ℚ
  promptTokensSum : Option Int
  promptTokensAvg : Option ℚ
  completionTokensSum : Option Int
  completionTokensAvg : Option ℚ
  totalTokensSum : Option Int
  totalTokensAvg : Option ℚ
  promptCostSum : Option ℚ
  promptCostAvg : Option ℚ
  completionCostSum : Option ℚ
  completionCostAvg : Option ℚ
  totalCostSum : Option ℚ
  totalCostAvg : Option ℚ
  evaluatorScoreAvg : Option ℚ
deriving DecidableEq

def RollupAccumulator.finish (accumulator : RollupAccumulator) : RollupStats :=
  let latencyNanos := accumulator.latencyNanos.insertionSort (· ≤ ·)
  { runCount := accumulator.runCount
    errorCount := accumulator.errorCount
    latencyMinNanos := latencyNanos.head?
    latencyMaxNanos := latencyNanos.getLast?
    latencyAvgNanos := average (rationals latencyNanos)
    latencyP50Nanos := percentile (rationals latencyNanos) 50
    latencyP95Nanos := percentile (rationals latencyNanos) 95
    latencyP99Nanos := percentile (rationals latencyNanos) 99
    promptTokensSum := total accumulator.promptTokens
    promptTokensAvg := average (rationals accumulator.promptTokens)
    completionTokensSum := total accumulator.completionTokens
    completionTokensAvg := average (rationals accumulator.completionTokens)
    totalTokensSum := total accumulator.totalTokens
    totalTokensAvg := average (rationals accumulator.totalTokens)
    promptCostSum := total accumulator.promptCost
    promptCostAvg := average accumulator.promptCost
    completionCostSum := total accumulator.completionCost
    completionCostAvg := average accumulator.completionCost
    totalCostSum := total accumulator.totalCost
    totalCostAvg := average accumulator.totalCost
    evaluatorScoreAvg := average accumulator.evaluatorScore }

/-- The primary key of `run_metric_rollups` within a project and a kind. -/
structure RollupGroup where
  timeBucketStartUnixNano : Int
  groupValue : String
deriving DecidableEq, Repr

instance : Ord RollupGroup where
  compare a b := (compare a.timeBucketStartUnixNano b.timeBucketStartUnixNano).then
    (compare a.groupValue b.groupValue)

instance : TransOrd RollupGroup :=
  inferInstanceAs (TransCmp (compareLex (compareOn RollupGroup.timeBucketStartUnixNano)
    (compareOn RollupGroup.groupValue)))

instance : LawfulEqOrd RollupGroup where
  eq_of_compare {a b} h := by
    have hc : (compare a.timeBucketStartUnixNano b.timeBucketStartUnixNano).then
        (compare a.groupValue b.groupValue) = .eq := h
    simp only [Ordering.then_eq_eq, LawfulEqCmp.compare_eq_iff_eq] at hc
    obtain ⟨ht, hv⟩ := hc
    cases a
    cases b
    simp_all only

def RollupRun.groupValue (kind : RollupKind) (projectName : String) (run : RollupRun) : String :=
  match kind with
  | .project => projectName
  | .runType => run.runType
  | .model => run.modelName.getD "unknown"
  | .error => if run.status = .error then "true" else "false"

def RollupRun.group (kind : RollupKind) (projectName : String) (run : RollupRun) : RollupGroup :=
  ⟨rollupTimeBucket run.startTimeUnixNano, run.groupValue kind projectName⟩

/-- A row of `run_metric_rollups` without its project. -/
structure RunMetricRollup where
  kind : RollupKind
  group : RollupGroup
  stats : RollupStats
deriving DecidableEq

/-- The live runs of a project. -/
def Db.rollupRuns (db : Db) (projectName : String) : List RollupRun :=
  (db.runHeads.toList.filter fun row =>
    row.1.projectName = projectName && db.isLive row.1 row.2).map fun row => .ofHead row.2

/-- The rows that `refresh_project_aggregate_rollups` inserts for some runs. -/
def runRollups (projectName : String) (runs : List RollupRun) : List RunMetricRollup :=
  RollupKind.all.flatMap fun kind =>
    (groupFold (RollupRun.group kind projectName) .empty RollupAccumulator.push runs).toList.map
      fun entry => ⟨kind, entry.1, entry.2.finish⟩

def Db.aggregateRollups (db : Db) (projectName : String) : List RunMetricRollup :=
  runRollups projectName (db.rollupRuns projectName)

/-- `run_metric_rollups`, project by project. -/
abbrev RunRollups := Table String (List RunMetricRollup)

def RunRollups.of (rollups : RunRollups) (projectName : String) : List RunMetricRollup :=
  rollups[projectName]?.getD []

/-- `refresh_project_aggregate_rollups`: the rows of the project go, and new ones come. -/
def RunRollups.refresh (rollups : RunRollups) (db : Db) (projectName : String) : RunRollups :=
  rollups.insert projectName (db.aggregateRollups projectName)

/-- `updated_projects` at the end of the loop of `persist_metadata`. -/
def Db.updatedProjects (x : Externals) (db : Db) (records : List SpanRecord) : List String :=
  ((db.persistRows x db.nextTraceSegmentId 0 records []).2.getD []).map Prod.fst

/-- The refreshes of `delete_run_in_tx`, given the tables it leaves. -/
def RunRollups.deleteRun (rollups : RunRollups) (deleted : Db × Bool) (k : RunKey) : RunRollups :=
  if deleted.2 then rollups.refresh deleted.1 k.projectName else rollups

/-- `expire_project_runs_before` with its refreshes. -/
def RunRollups.expire (x : Externals) (rollups : RunRollups) (db : Db) (projectName : String)
    (cutoffUnixNano deletedAtUnixNano : Int) : Db × RunRollups :=
  (db.expiryCandidates projectName cutoffUnixNano).foldl (fun state row =>
    let deleted := state.1.deleteRunInTx x row.1 deletedAtUnixNano (some "retention_expired")
    (deleted.1, state.2.deleteRun deleted row.1)) (db, rollups)

/-- The system with its run rollups. -/
structure RollupSystem where
  system : System
  rollups : RunRollups

def RollupSystem.initial : RollupSystem := ⟨.initial, ∅⟩

/-- The rollups after an action that leaves the given system. -/
def RollupSystem.refreshed (x : Externals) (maxSpansPerSegment : Nat) (s : RollupSystem)
    (after : System) : Action → RunRollups
  | .ingest partition name records fault =>
    (s.system.world.db.updatedProjects x
      (s.system.committed maxSpansPerSegment (.ingest partition name records fault))).foldl
        (fun rollups p => rollups.refresh after.world.db p) s.rollups
  | .persist i name fault =>
    (s.system.world.db.updatedProjects x
      (s.system.committed maxSpansPerSegment (.persist i name fault))).foldl
        (fun rollups p => rollups.refresh after.world.db p) s.rollups
  | .delete k deletedAtUnixNano reason =>
    s.rollups.deleteRun (s.system.world.db.deleteRunInTx x k deletedAtUnixNano reason) k
  | .expire projectName cutoffUnixNano deletedAtUnixNano =>
    (s.rollups.expire x s.system.world.db projectName cutoffUnixNano deletedAtUnixNano).2
  | _ => s.rollups

def RollupSystem.step (x : Externals) (maxSpansPerSegment : Nat) (s : RollupSystem)
    (action : Action) : Option RollupSystem :=
  (s.system.step x maxSpansPerSegment action).map fun after =>
    ⟨after, s.refreshed x maxSpansPerSegment after action⟩

end KevinDb
