import KevinDb.Db

namespace KevinDb

/-- The guard of the three upserts: the stored event is older, or as old with no larger id. -/
def eventYields (oldTime : Int) (oldId : Option Nat) (newTime : Int) (newId : Nat) : Bool :=
  decide (oldTime < newTime) || (decide (oldTime = newTime) && decide (oldId.getD 0 ≤ newId))

structure RootLocator where
  runId : String
  spanId : String
deriving DecidableEq, Repr

/-- The first nonempty string of a list, or a default. -/
def firstNonempty (values : List String) (default : String) : String :=
  (values.find? (· ≠ "")).getD default

def Db.rootLocatorForRecord (db : Db) (record : SpanRecord) (generatedId : String) :
    RootLocator :=
  let ownRunId := if record.runId = "" then generatedId else record.runId
  match record.parentSpanId with
  | none => ⟨ownRunId, record.spanId⟩
  | some parentSpanId =>
    match db.runHeads[RunKey.mk record.projectName record.traceId parentSpanId]? with
    | none => ⟨ownRunId, record.spanId⟩
    | some parent =>
      ⟨firstNonempty [parent.rootRunId, parent.runId, parent.generatedRunId] ownRunId,
        firstNonempty [parent.rootSpanId, parentSpanId] parentSpanId⟩

/-- The head row of a record stored as row `rowIndex` of a segment. -/
def RunHead.ofRecord (x : Externals) (record : SpanRecord) (root : RootLocator)
    (segmentId rowIndex eventId : Nat) : RunHead where
  runId := record.runId
  generatedRunId := x.generatedRunId record.projectName record.traceId record.spanId
  parentRunId := record.parentRunId
  parentSpanId := record.parentSpanId
  name := record.name
  runType := record.runType
  startTimeUnixNano := record.startTimeUnixNano
  endTimeUnixNano := record.endTimeUnixNano
  statusCode := record.statusCode
  status := statusFromRecord record
  isRoot := record.parentSpanId.isNone
  rootRunId := root.runId
  rootSpanId := root.spanId
  metrics := x.typedRunMetrics record
  lastTraceSegmentId := segmentId
  lastRowIndex := rowIndex
  lastEventType := record.eventKind
  lastEventTimeUnixNano := record.eventTimeUnixNano
  lastRunEventId := some eventId
  deletedAtUnixNano := none
  deletionReason := none

def RunLocator.ofRecord (x : Externals) (record : SpanRecord)
    (segmentId rowIndex eventId : Nat) : RunLocator where
  runId := record.runId
  generatedRunId := x.generatedRunId record.projectName record.traceId record.spanId
  traceSegmentId := segmentId
  rowIndex := rowIndex
  eventType := record.eventKind
  eventTimeUnixNano := record.eventTimeUnixNano
  runEventId := some eventId

def TraceLocator.ofRecord (record : SpanRecord) (segmentId rowIndex eventId : Nat) :
    TraceLocator where
  traceSegmentId := segmentId
  rowIndex := rowIndex
  eventType := record.eventKind
  eventTimeUnixNano := record.eventTimeUnixNano
  runEventId := some eventId

def RunHead.yieldsTo (record : SpanRecord) (eventId : Nat) (old : RunHead) : Bool :=
  eventYields old.lastEventTimeUnixNano old.lastRunEventId record.eventTimeUnixNano eventId

def RunLocator.yieldsTo (record : SpanRecord) (eventId : Nat) (old : RunLocator) : Bool :=
  eventYields old.eventTimeUnixNano old.runEventId record.eventTimeUnixNano eventId

def TraceLocator.yieldsTo (record : SpanRecord) (eventId : Nat) (old : TraceLocator) : Bool :=
  eventYields old.eventTimeUnixNano old.runEventId record.eventTimeUnixNano eventId

def RunEvent.ofRecord (record : SpanRecord) (segmentId rowIndex eventId : Nat) : RunEvent where
  id := eventId
  traceSegmentId := segmentId
  projectName := record.projectName
  runId := record.runId
  traceId := record.traceId
  spanId := record.spanId
  eventType := record.eventKind
  eventTimeUnixNano := record.eventTimeUnixNano
  rowIndex := rowIndex
  idempotencyKey := runEventIdempotencyKey record

/-- The effects of one turn of the loop of `persist_metadata` whose event was inserted. The
flag is `run_head_updated`. -/
def Db.applyEvent (x : Externals) (db : Db) (segmentId rowIndex : Nat) (record : SpanRecord) :
    Db × Bool :=
  let eventId := db.nextRunEventId
  let root := db.rootLocatorForRecord record
    (x.generatedRunId record.projectName record.traceId record.spanId)
  let heads := db.runHeads.upsert record.runKey
    (RunHead.ofRecord x record root segmentId rowIndex eventId) (RunHead.yieldsTo record eventId)
  ({ db with
      nextRunEventId := eventId + 1
      runEvents := db.runEvents ++ [RunEvent.ofRecord record segmentId rowIndex eventId]
      runHeads := heads.1
      runLocators := (db.runLocators.upsert record.runKey
        (RunLocator.ofRecord x record segmentId rowIndex eventId)
        (RunLocator.yieldsTo record eventId)).1
      traceLocators := (db.traceLocators.upsert record.runKey
        (TraceLocator.ofRecord record segmentId rowIndex eventId)
        (TraceLocator.yieldsTo record eventId)).1 },
    heads.2)

/-- The loop of `persist_metadata` over the rows of the segment from `rowIndex` on. The traces
of updated heads are collected. A conflicting event ends it with no traces, the sequence
having moved on. -/
def Db.persistRows (x : Externals) (segmentId : Nat) :
    Db → Nat → List SpanRecord → List (String × String) → Db × Option (List (String × String))
  | db, _, [], traces => (db, some traces)
  | db, rowIndex, record :: records, traces =>
    if db.hasEventKey record.eventKey then
      ({ db with nextRunEventId := db.nextRunEventId + 1 }, none)
    else
      let (db, updated) := db.applyEvent x segmentId rowIndex record
      let traces := if updated then traces.insert (record.projectName, record.traceId) else traces
      Db.persistRows x segmentId db (rowIndex + 1) records traces

/-- The metadata row of a segment. -/
def TraceSegment.ofRecords (projectName : String) (partition : PartitionKey)
    (uri searchIndexUri : String) (records : List SpanRecord) : TraceSegment where
  projectName := projectName
  uri := uri
  spanCount := records.length
  minStartTimeUnixNano := (records.map SpanRecord.startTimeUnixNano).min?.getD 0
  maxEndTimeUnixNano := (records.map SpanRecord.endTimeUnixNano).max?.getD 0
  timeBucketStartUnixNano := partition.timeBucketStartUnixNano
  searchIndexUri := some searchIndexUri
  compactedAtUnixNano := none
  objectDeletedAtUnixNano := none

def Db.insertTraceSegment (db : Db) (segment : TraceSegment) : Db :=
  { db with
    projects := db.projects.insert segment.projectName
    traceSegments := db.traceSegments.insert db.nextTraceSegmentId segment
    nextTraceSegmentId := db.nextTraceSegmentId + 1 }

/-- `persist_metadata`, inside its transaction. It fails on an empty segment. The flag is the
returned one: `false` asks the caller to roll back. -/
def Db.persistMetadata (x : Externals) (db : Db) (partition : PartitionKey)
    (uri searchIndexUri : String) (records : List SpanRecord) : Option (Db × Bool) :=
  records.head?.map fun first =>
    let segmentId := db.nextTraceSegmentId
    let db := db.insertTraceSegment
      (.ofRecords first.projectName partition uri searchIndexUri records)
    match db.persistRows x segmentId 0 records [] with
    | (db, none) => (db, false)
    | (db, some traces) =>
      (traces.foldl (fun db trace => db.refreshTraceTreeMetadata x trace.1 trace.2) db, true)

end KevinDb
