import KevinDb.Db

namespace KevinDb

def tombstoneKey (k : RunKey) (deletedAtUnixNano : Int) : String :=
  ":".intercalate
    ["tombstone", k.projectName, k.traceId, k.spanId, toString deletedAtUnixNano]

/-- The tombstone that deleting a run inserts: it names the row the head points to. -/
def RunEvent.ofTombstone (k : RunKey) (head : RunHead) (deletedAtUnixNano : Int) (eventId : Nat) :
    RunEvent where
  id := eventId
  traceSegmentId := head.lastTraceSegmentId
  projectName := k.projectName
  runId := head.runId
  traceId := k.traceId
  spanId := k.spanId
  eventType := .tombstone
  eventTimeUnixNano := deletedAtUnixNano
  rowIndex := head.lastRowIndex
  idempotencyKey := tombstoneKey k deletedAtUnixNano

/-- `INSERT … ON CONFLICT DO UPDATE SET idempotency_key = EXCLUDED.idempotency_key RETURNING id`:
an event that already has the key keeps its columns, and its id is the returned one. -/
def Db.insertTombstone (db : Db) (k : RunKey) (head : RunHead) (deletedAtUnixNano : Int) :
    Db × Nat :=
  let event := RunEvent.ofTombstone k head deletedAtUnixNano db.nextRunEventId
  match db.runEvents.find? fun old => old.eventKey = event.eventKey with
  | some old => ({ db with nextRunEventId := db.nextRunEventId + 1 }, old.id)
  | none =>
    ({ db with
        nextRunEventId := db.nextRunEventId + 1
        runEvents := db.runEvents ++ [event] },
      event.id)

def RunHead.setDeleted (deletedAtUnixNano : Int) (reason : Option String) (eventId : Nat)
    (head : RunHead) : RunHead :=
  { head with
    deletedAtUnixNano := some deletedAtUnixNano
    deletionReason := reason
    lastEventType := .tombstone
    lastEventTimeUnixNano := deletedAtUnixNano
    lastRunEventId := some eventId }

def RunLocator.setTombstone (deletedAtUnixNano : Int) (eventId : Nat) (locator : RunLocator) :
    RunLocator :=
  { locator with
    eventType := .tombstone
    eventTimeUnixNano := deletedAtUnixNano
    runEventId := some eventId }

def TraceLocator.setTombstone (deletedAtUnixNano : Int) (eventId : Nat)
    (locator : TraceLocator) : TraceLocator :=
  { locator with
    eventType := .tombstone
    eventTimeUnixNano := deletedAtUnixNano
    runEventId := some eventId }

/-- What `delete_run_in_tx` writes for a run whose head has no deletion mark. -/
def Db.writeDeletion (db : Db) (k : RunKey) (head : RunHead) (deletedAtUnixNano : Int)
    (reason : Option String) : Db :=
  let (db, eventId) := db.insertTombstone k head deletedAtUnixNano
  { db with
    runDeletions := db.runDeletions.insert k ⟨deletedAtUnixNano, reason⟩
    runHeads := db.runHeads.modify k (RunHead.setDeleted deletedAtUnixNano reason eventId)
    runLocators := db.runLocators.modify k (RunLocator.setTombstone deletedAtUnixNano eventId)
    traceLocators :=
      db.traceLocators.modify k (TraceLocator.setTombstone deletedAtUnixNano eventId) }

/-- `delete_run_in_tx`. The flag tells whether the run was deleted by this call. -/
def Db.deleteRunInTx (x : Externals) (db : Db) (k : RunKey) (deletedAtUnixNano : Int)
    (reason : Option String) : Db × Bool :=
  match db.runHeads[k]? with
  | none => (db, false)
  | some head =>
    if head.deletedAtUnixNano.isSome then (db, false)
    else
      ((db.writeDeletion k head deletedAtUnixNano reason).refreshTraceTreeMetadata x
        k.projectName k.traceId, true)

/-- The runs that `expire_project_runs_before` selects. -/
def Db.expiryCandidates (db : Db) (projectName : String) (cutoffUnixNano : Int) :
    List (RunKey × RunHead) :=
  db.runHeads.toList.filter fun row =>
    row.1.projectName = projectName ∧ row.2.startTimeUnixNano < cutoffUnixNano ∧
      row.2.deletedAtUnixNano = none

/-- `expire_project_runs_before`: the runs that start before the cutoff, deleted one by one in
one transaction. -/
def Db.expireProjectRunsBefore (x : Externals) (db : Db) (projectName : String)
    (cutoffUnixNano deletedAtUnixNano : Int) : Db :=
  (db.expiryCandidates projectName cutoffUnixNano).foldl (fun db row =>
    (db.deleteRunInTx x row.1 deletedAtUnixNano (some "retention_expired")).1) db

end KevinDb
