import KevinDb.Compaction.System
import KevinDb.Thread.Rows

namespace KevinDb
set_option autoImplicit true
open Std

/-- The tables that the threads are made of, and those that they are read from. The tags and the
metadata of a run are kept as the list of their rows. -/
structure ThreadTables where
  runTags : Table RunKey (List String)
  runMetadata : Table RunKey (List (String × String))
  runPreviews : Table RunKey RunPreview
  threads : Table ThreadKey ThreadRow
  threadTraces : Table ThreadTraceKey ThreadTraceRow

def ThreadTables.empty : ThreadTables := ⟨∅, ∅, ∅, ∅, ∅⟩

/-- `replace_run_scalar_indexes` and `replace_run_preview`. -/
def ThreadTables.replaceRun (reader : PayloadReader) (record : SpanRecord)
    (tables : ThreadTables) : ThreadTables :=
  let attributes := reader.parseAttributes record.attributesJson
  { tables with
    runTags := tables.runTags.insert record.runKey (extractTags reader attributes)
    runMetadata := tables.runMetadata.insert record.runKey (extractMetadata reader attributes)
    runPreviews :=
      tables.runPreviews.insert record.runKey (reader.runPreview record.attributesJson) }

/-- The thread ids that the joined rows of a run give. -/
def ThreadTables.joinedThreadIds (tables : ThreadTables) (k : RunKey) : List (Option String) :=
  KevinDb.joinedThreadIds (tables.runMetadata[k]?.getD []) (tables.runTags[k]?.getD [])

/-- The threads of a run in the sense of `load_trace_thread_runs`. -/
def ThreadTables.threadIds (tables : ThreadTables) (k : RunKey) : List String :=
  (tables.joinedThreadIds k).filterMap id

/-- The rows of the join for a run. -/
def ThreadTables.runRows (tables : ThreadTables) (row : RunKey × RunHead) : List ThreadRunRow :=
  let preview := tables.runPreviews[row.1]?.getD ⟨none, none, none, none⟩
  (tables.joinedThreadIds row.1).map fun threadId => .ofHead row.1.spanId row.2 preview threadId

def RunKey.inTrace (projectName traceId : String) (k : RunKey) : Bool :=
  k.projectName = projectName ∧ k.traceId = traceId

/-- The live runs of a trace. -/
def Db.liveHeads (db : Db) (projectName traceId : String) : List (RunKey × RunHead) :=
  db.runHeads.toList.filter fun row =>
    row.1.inTrace projectName traceId && db.isLive row.1 row.2

/-- `load_trace_thread_runs`. -/
def ThreadTables.loadTraceThreadRuns (tables : ThreadTables) (db : Db)
    (projectName traceId : String) : List ThreadRunRow :=
  ((db.liveHeads projectName traceId).flatMap tables.runRows).insertionSort ThreadRunRow.before

def ThreadTraceKey.inTrace (projectName traceId : String) (key : ThreadTraceKey) : Bool :=
  key.projectName = projectName ∧ key.traceId = traceId

/-- `ensure_thread_row`. -/
def ThreadTables.ensureThreadRow (tables : ThreadTables) (key : ThreadKey) : ThreadTables :=
  { tables with threads := tables.threads.insert key (tables.threads[key]?.getD .new) }

/-- `upsert_thread_trace`. -/
def ThreadTables.upsertThreadTrace (tables : ThreadTables) (key : ThreadTraceKey)
    (trace : ThreadTraceRow) : ThreadTables :=
  { tables with threadTraces := tables.threadTraces.insert key trace }

/-- A turn of the loop of `refresh_trace_thread_metadata` over the threads of the runs. -/
def ThreadTables.upsertThread (projectName traceId : String) (tables : ThreadTables)
    (entry : String × List ThreadRunRow) : ThreadTables :=
  let tables := tables.ensureThreadRow ⟨projectName, entry.1⟩
  match buildThreadTraceUpsert (entry.2.insertionSort ThreadRunRow.before) with
  | none => tables
  | some trace => tables.upsertThreadTrace ⟨projectName, entry.1, traceId⟩ trace

/-- The traces of a thread, in their order. -/
def ThreadTables.tracesOf (tables : ThreadTables) (key : ThreadKey) : List TraceSummary :=
  ((tables.threadTraces.toList.filter fun row => row.1.thread = key).map fun row =>
    (row.1.traceId, row.2)).insertionSort traceBefore

/-- `refresh_thread_summary`. -/
def ThreadTables.refreshThreadSummary (tables : ThreadTables) (key : ThreadKey) : ThreadTables :=
  if tables.tracesOf key = [] then { tables with threads := tables.threads.erase key }
  else
    { tables with
      threads := tables.threads.modify key fun _ => .ofTraces (tables.tracesOf key) }

/-- The runs of a trace by their thread. -/
def runsByThread (runs : List ThreadRunRow) : Table String (List ThreadRunRow) :=
  groupFold Prod.fst [] (fun group (row : String × ThreadRunRow) => group ++ [row.2])
    (runs.filterMap fun run => run.threadId.map fun threadId => (threadId, run))

/-- `delete_existing_trace_thread_rows`, without its result. -/
def ThreadTables.clearTrace (tables : ThreadTables) (projectName traceId : String) : ThreadTables :=
  { tables with
    threadTraces := tables.threadTraces.filter fun key _ => !key.inTrace projectName traceId }

/-- The threads that have a row of the trace. -/
def ThreadTables.oldThreadIds (tables : ThreadTables) (projectName traceId : String) :
    List String :=
  (tables.threadTraces.keys.filter fun key => key.inTrace projectName traceId).map
    ThreadTraceKey.threadId

/-- `refresh_trace_thread_metadata`: the rows of the trace go, those of its live runs come, and the
threads of either are summed up again. -/
def ThreadTables.refreshTraceThreadMetadata (db : Db) (tables : ThreadTables)
    (projectName traceId : String) : ThreadTables :=
  let cleared := tables.clearTrace projectName traceId
  let groups := runsByThread (cleared.loadTraceThreadRuns db projectName traceId)
  let affectedThreads :=
    (tables.oldThreadIds projectName traceId ∪ groups.keys).insertionSort (· ≤ ·)
  affectedThreads.foldl (fun tables threadId =>
      tables.refreshThreadSummary ⟨projectName, threadId⟩)
    (groups.toList.foldl (ThreadTables.upsertThread projectName traceId) cleared)

/-- The rows that the loop of `persist_metadata` replaces: those of the runs whose heads it
updates. -/
def ThreadTables.replaceRows (x : Externals) (reader : PayloadReader) (segmentId : Nat) :
    Db → Nat → List SpanRecord → ThreadTables → ThreadTables
  | _, _, [], tables => tables
  | db, rowIndex, record :: records, tables =>
    let (db, updated) := db.applyEvent x segmentId rowIndex record
    ThreadTables.replaceRows x reader segmentId db (rowIndex + 1) records
      (if updated then tables.replaceRun reader record else tables)

/-- The thread tables after `persist_metadata`. A refresh of the tree of a trace writes no heads of
other traces, so each trace is refreshed here from the heads that the transaction leaves. -/
def ThreadTables.persistMetadata (x : Externals) (reader : PayloadReader) (tables : ThreadTables)
    (db after : Db) (records : List SpanRecord) : ThreadTables :=
  match (db.persistRows x db.nextTraceSegmentId 0 records []).2 with
  | none => tables
  | some traces =>
    traces.foldl (fun tables trace => tables.refreshTraceThreadMetadata after trace.1 trace.2)
      (tables.replaceRows x reader db.nextTraceSegmentId db 0 records)

/-- The thread tables after `delete_run_in_tx`, given the tables of the runs it leaves. -/
def ThreadTables.deleteRun (tables : ThreadTables) (deleted : Db × Bool) (k : RunKey) :
    ThreadTables :=
  if deleted.2 then tables.refreshTraceThreadMetadata deleted.1 k.projectName k.traceId
  else tables

/-- `expire_project_runs_before` with its refreshes. -/
def ThreadTables.expire (x : Externals) (tables : ThreadTables) (db : Db) (projectName : String)
    (cutoffUnixNano deletedAtUnixNano : Int) : Db × ThreadTables :=
  (db.expiryCandidates projectName cutoffUnixNano).foldl (fun state row =>
    let deleted := state.1.deleteRunInTx x row.1 deletedAtUnixNano (some "retention_expired")
    (deleted.1, state.2.deleteRun deleted row.1)) (db, tables)

/-- The system with its thread tables. -/
structure ThreadSystem where
  system : System
  tables : ThreadTables

def ThreadSystem.initial : ThreadSystem := ⟨.initial, .empty⟩

/-- The thread tables after an action that leaves the given system. -/
def ThreadSystem.refreshed (x : Externals) (reader : PayloadReader) (maxSpansPerSegment : Nat)
    (s : ThreadSystem) (after : System) (action : Action) : ThreadTables :=
  match action with
  | .ingest .. | .persist .. =>
    s.tables.persistMetadata x reader s.system.world.db after.world.db
      (s.system.committed maxSpansPerSegment action)
  | .delete k deletedAtUnixNano reason =>
    s.tables.deleteRun (s.system.world.db.deleteRunInTx x k deletedAtUnixNano reason) k
  | .expire projectName cutoffUnixNano deletedAtUnixNano =>
    (s.tables.expire x s.system.world.db projectName cutoffUnixNano deletedAtUnixNano).2
  | _ => s.tables

def ThreadSystem.step (x : Externals) (reader : PayloadReader) (maxSpansPerSegment : Nat)
    (s : ThreadSystem) (action : Action) : Option ThreadSystem :=
  (s.system.step x maxSpansPerSegment action).map fun after =>
    ⟨after, s.refreshed x reader maxSpansPerSegment after action⟩

end KevinDb
