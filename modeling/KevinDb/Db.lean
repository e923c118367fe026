import KevinDb.Ingest.Tree

namespace KevinDb

/-- The typed columns read from the payload of a record. A stored cost or score is a finite
double, kept here as the rational number it is. -/
structure TypedRunMetrics where
  latencyNanos : Int
  promptTokens : Option Int
  completionTokens : Option Int
  totalTokens : Option Int
  promptCost : Option ℚ
  completionCost : Option ℚ
  totalCost : Option ℚ
  firstTokenLatencyNanos : Option Int
  evaluatorScore : Option ℚ
  modelName : Option String
  providerName : Option String
deriving DecidableEq

/-- Computations whose results the ingest transaction stores without looking into them:
version-5 UUIDs in the URL namespace, and the metrics in a record's JSON payload. -/
structure Externals where
  newV5 : String → String
  typedRunMetrics : SpanRecord → TypedRunMetrics

def Externals.generatedRunId (x : Externals) (projectName traceId spanId : String) : String :=
  x.newV5 (":".intercalate ["kevindb", "run", projectName, traceId, spanId])

structure TraceSegment where
  projectName : String
  uri : String
  spanCount : Nat
  minStartTimeUnixNano : Int
  maxEndTimeUnixNano : Int
  timeBucketStartUnixNano : Int
  searchIndexUri : Option String
  compactedAtUnixNano : Option Int
  objectDeletedAtUnixNano : Option Int
deriving DecidableEq, Repr

structure RunEvent where
  id : Nat
  traceSegmentId : Nat
  projectName : String
  runId : String
  traceId : String
  spanId : String
  eventType : RunEventKind
  eventTimeUnixNano : Int
  rowIndex : Nat
  idempotencyKey : String
deriving DecidableEq, Repr

def RunEvent.runKey (event : RunEvent) : RunKey :=
  ⟨event.projectName, event.traceId, event.spanId⟩

def RunEvent.eventKey (event : RunEvent) : String × String :=
  (event.projectName, event.idempotencyKey)

/-- The order in which events win: by time, then by id. -/
def RunEvent.rank (event : RunEvent) : Int ×ₗ Nat := toLex (event.eventTimeUnixNano, event.id)

/-- A row of `run_heads` without its key columns. -/
structure RunHead where
  runId : String
  generatedRunId : String
  parentRunId : Option String
  parentSpanId : Option String
  name : String
  runType : String
  startTimeUnixNano : Int
  endTimeUnixNano : Int
  statusCode : Int
  status : RunStatus
  isRoot : Bool
  rootRunId : String
  rootSpanId : String
  metrics : TypedRunMetrics
  lastTraceSegmentId : Nat
  lastRowIndex : Nat
  lastEventType : RunEventKind
  lastEventTimeUnixNano : Int
  lastRunEventId : Option Nat
  deletedAtUnixNano : Option Int
  deletionReason : Option String
deriving DecidableEq

structure RunLocator where
  runId : String
  generatedRunId : String
  traceSegmentId : Nat
  rowIndex : Nat
  eventType : RunEventKind
  eventTimeUnixNano : Int
  runEventId : Option Nat
deriving DecidableEq, Repr

structure TraceLocator where
  traceSegmentId : Nat
  rowIndex : Nat
  eventType : RunEventKind
  eventTimeUnixNano : Int
  runEventId : Option Nat
deriving DecidableEq, Repr

structure RunDeletion where
  deletedAtUnixNano : Int
  reason : Option String
deriving DecidableEq, Repr

/-- The metadata tables. The two counters are the identity sequences, which a rollback does
not reset. -/
structure Db where
  projects : List String
  traceSegments : Table Nat TraceSegment
  runEvents : List RunEvent
  runHeads : Table RunKey RunHead
  runLocators : Table RunKey RunLocator
  traceLocators : Table RunKey TraceLocator
  runDeletions : Table RunKey RunDeletion
  runTreeNodes : Table RunKey RunTreeIndexNode
  nextTraceSegmentId : Nat
  nextRunEventId : Nat

def Db.empty : Db where
  projects := []
  traceSegments := ∅
  runEvents := []
  runHeads := ∅
  runLocators := ∅
  traceLocators := ∅
  runDeletions := ∅
  runTreeNodes := ∅
  nextTraceSegmentId := 1
  nextRunEventId := 1

/-- Undo a transaction: the tables of the start, the sequences of the end. -/
def Db.rollback (start stop : Db) : Db :=
  { start with
    nextTraceSegmentId := stop.nextTraceSegmentId
    nextRunEventId := stop.nextRunEventId }

/-- The unique index on `(project_name, idempotency_key)` has an entry. -/
def Db.hasEventKey (db : Db) (key : String × String) : Prop :=
  ∃ event ∈ db.runEvents, event.eventKey = key

instance (db : Db) (key : String × String) : Decidable (db.hasEventKey key) :=
  inferInstanceAs (Decidable (∃ event ∈ db.runEvents, event.eventKey = key))

def Db.eventsOf (db : Db) (k : RunKey) : List RunEvent :=
  db.runEvents.filter fun event => event.runKey = k

/-- The head has no deletion mark and the run has no deletion row. -/
def Db.isLive (db : Db) (k : RunKey) (head : RunHead) : Bool :=
  head.deletedAtUnixNano.isNone && db.runDeletions[k]?.isNone

def RunHead.treeInput (x : Externals) (k : RunKey) (head : RunHead) : RunTreeInput where
  spanId := k.spanId
  parentSpanId := head.parentSpanId
  runId := head.runId
  generatedRunId :=
    if head.generatedRunId = "" then x.generatedRunId k.projectName k.traceId k.spanId
    else head.generatedRunId
  startTimeUnixNano := head.startTimeUnixNano

def RunHead.setTree (node : RunTreeIndexNode) (head : RunHead) : RunHead :=
  { head with
    rootRunId := node.rootRunId
    rootSpanId := node.rootSpanId
    isRoot := node.parentSpanId.isNone }

def Db.refreshTraceTreeMetadata (x : Externals) (db : Db) (projectName traceId : String) : Db :=
  let inTrace (k : RunKey) : Bool := k.projectName = projectName ∧ k.traceId = traceId
  let live := db.runHeads.toList.filter fun row => inTrace row.1 && db.isLive row.1 row.2
  let nodes := buildTraceTreeIndex (live.map fun row => row.2.treeInput x row.1)
  let nodeKey (node : RunTreeIndexNode) : RunKey := ⟨projectName, traceId, node.spanId⟩
  { db with
    runTreeNodes := nodes.foldl (fun table node => table.insert (nodeKey node) node)
      (db.runTreeNodes.filter fun k _ => !inTrace k)
    runHeads := nodes.foldl (fun heads node => heads.modify (nodeKey node) (RunHead.setTree node))
      db.runHeads }

end KevinDb
