import KevinDb.Ingest.Persist

namespace KevinDb

structure RunSummary where
  projectName : String
  runId : Option String
  traceId : String
  spanId : String
  parentRunId : Option String
  parentSpanId : Option String
  name : String
  runType : String
  status : RunStatus
  startTimeUnixNano : Int
  endTimeUnixNano : Int
  isRoot : Bool
  attributesJson : String
deriving DecidableEq, Repr

/-- The columns that the segment queries select from a row. -/
def RunSummary.ofRecord (record : SpanRecord) : RunSummary where
  projectName := record.projectName
  runId := if record.runId = "" then none else some record.runId
  traceId := record.traceId
  spanId := record.spanId
  parentRunId := record.parentRunId
  parentSpanId := record.parentSpanId
  name := record.name
  runType := record.runType
  status := runStatus record.statusCode record.endTimeUnixNano
  startTimeUnixNano := record.startTimeUnixNano
  endTimeUnixNano := record.endTimeUnixNano
  isRoot := record.parentSpanId.isNone
  attributesJson := record.attributesJson

def RunSummary.runKey (run : RunSummary) : RunKey := ⟨run.projectName, run.traceId, run.spanId⟩

/-- A run that the planner selects, with the row its head names. -/
structure RunCandidate where
  runKey : RunKey
  uri : String
  rowIndex : Nat
deriving DecidableEq, Repr

/-- The head is live and its segment is in use. -/
def Db.runCandidate (db : Db) (projectName : String) (row : RunKey × RunHead) :
    Option RunCandidate :=
  match db.traceSegments[row.2.lastTraceSegmentId]? with
  | none => none
  | some segment =>
    if row.1.projectName = projectName ∧ segment.compactedAtUnixNano = none ∧
        db.isLive row.1 row.2 then
      some ⟨row.1, segment.uri, row.2.lastRowIndex⟩
    else none

/-- `run_candidate_runs_sql` for the query of all runs of a project. -/
def Db.runCandidates (db : Db) (projectName : String) : List RunCandidate :=
  db.runHeads.toList.filterMap (db.runCandidate projectName)

/-- The rows of a segment object. Reading fails when there is no such object. -/
def World.readSegment (w : World) (uri : String) : Option (List SpanRecord) :=
  match w.objects[uri]? with
  | some (.segment records) => some records
  | _ => none

/-- The row of a candidate with its index. There is none when the segment is shorter. -/
def World.candidateRow (w : World) (candidate : RunCandidate) :
    Option (Option (SpanRecord × Nat)) :=
  (w.readSegment candidate.uri).map fun records =>
    records[candidate.rowIndex]?.map fun record => (record, candidate.rowIndex)

/-- The order of `run_version`: event time, end time, start time, row index, all descending. -/
def laterVersion (left right : SpanRecord × Nat) : Bool :=
  toLex (right.1.eventTimeUnixNano, toLex (right.1.endTimeUnixNano,
      toLex (right.1.startTimeUnixNano, right.2))) <
    toLex (left.1.eventTimeUnixNano, toLex (left.1.endTimeUnixNano,
      toLex (left.1.startTimeUnixNano, left.2)))

/-- The rows with `run_version = 1`. -/
def latestVersions (rows : List (SpanRecord × Nat)) : Table RunKey (SpanRecord × Nat) :=
  rows.foldl (fun versions row =>
    (versions.upsert row.1.runKey row fun old => laterVersion row old).1) ∅

/-- The order of a listing: by start time, then by span id. -/
def RunSummary.before (left right : RunSummary) : Prop :=
  left.startTimeUnixNano < right.startTimeUnixNano ∨
    (left.startTimeUnixNano = right.startTimeUnixNano ∧ left.spanId ≤ right.spanId)

instance : DecidableRel RunSummary.before := fun left right =>
  inferInstanceAs (Decidable (left.startTimeUnixNano < right.startTimeUnixNano ∨ _))

/-- `list_runs` for the query of all runs of a project. Ties, whose order the queries leave
open, come in the order of the run keys. -/
def World.listRuns (w : World) (projectName : String) : Option (List RunSummary) := do
  let candidates := w.db.runCandidates projectName
  let rows ← candidates.mapM w.candidateRow
  let rows := (rows.filterMap id).filter fun row => row.1.projectName = projectName
  let runs := (latestVersions rows).toList.map fun version => RunSummary.ofRecord version.2.1
  return (runs.insertionSort RunSummary.before).filter fun run =>
    run.runKey ∈ candidates.map RunCandidate.runKey ∧ w.db.runDeletions[run.runKey]? = none

end KevinDb
