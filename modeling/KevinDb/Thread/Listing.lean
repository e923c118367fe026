import KevinDb.Lib.Keyset
import KevinDb.Lib.SqlText
import KevinDb.Lib.Text
import KevinDb.Query.Planner
import KevinDb.Thread.Tables

namespace KevinDb
set_option autoImplicit true
open Std

/-- The order of the texts in the database: of any collation that tells texts apart. -/
structure Collation where
  compare : String → String → Ordering
  transCmp : TransCmp compare
  lawfulEqCmp : LawfulEqCmp compare

structure ThreadTraceQuery where
  projectName : String
  threadId : String
  filter : Option FilterExpr
  pageSize : Nat
  cursor : Option String

structure ThreadListQuery where
  projectName : String
  filter : Option FilterExpr
  minStartTimeUnixNano : Option Int
  maxStartTimeUnixNano : Option Int
  pageSize : Nat
  cursor : Option String

structure ThreadTraceSummary where
  threadId : String
  traceId : String
  rootRunId : String
  rootSpanId : String
  name : String
  startTimeUnixNano : Int
  endTimeUnixNano : Int
  latencyNanos : Int
  preview : RunPreview
  totals : ThreadTotals
deriving DecidableEq

structure ThreadSummary where
  threadId : String
  traceId : Option String
  firstTraceId : Option String
  lastTraceId : Option String
  count : Nat
  minStartTimeUnixNano : Option Int
  maxStartTimeUnixNano : Option Int
  firstInputs : Option String
  lastOutputs : Option String
  lastError : Option String
  promptTokens : Option Int
  completionTokens : Option Int
  totalTokens : Option Int
  totalCost : Option ℚ
  latencyP50 : Option ℚ
  latencyP99 : Option ℚ
  numErroredTurns : Nat
deriving DecidableEq

/-- `thread_trace_from_row`. -/
def ThreadTraceSummary.ofRow (row : ThreadTraceKey × ThreadTraceRow) : ThreadTraceSummary where
  threadId := row.1.threadId
  traceId := row.1.traceId
  rootRunId := row.2.rootRunId
  rootSpanId := row.2.rootSpanId
  name := row.2.name
  startTimeUnixNano := row.2.startTimeUnixNano
  endTimeUnixNano := row.2.endTimeUnixNano
  latencyNanos := row.2.latencyNanos
  preview := row.2.preview
  totals := row.2.totals

/-- `thread_summary_from_row`. -/
def ThreadSummary.ofRow (row : ThreadKey × ThreadRow) : ThreadSummary where
  threadId := row.1.threadId
  traceId := row.2.lastTraceId
  firstTraceId := row.2.firstTraceId
  lastTraceId := row.2.lastTraceId
  count := row.2.count
  minStartTimeUnixNano := row.2.minStartTimeUnixNano
  maxStartTimeUnixNano := row.2.maxStartTimeUnixNano
  firstInputs := row.2.firstInputs
  lastOutputs := row.2.lastOutputs
  lastError := row.2.lastError
  promptTokens := row.2.totals.promptTokens
  completionTokens := row.2.totals.completionTokens
  totalTokens := row.2.totals.totalTokens
  totalCost := row.2.totals.totalCost
  latencyP50 := row.2.latencyP50
  latencyP99 := row.2.latencyP99
  numErroredTurns := row.2.numErroredTurns

structure TraceCursor where
  startTimeUnixNano : Int
  traceId : String
deriving DecidableEq, Repr

structure ThreadCursor where
  maxStartTimeUnixNano : Int
  threadId : String
deriving DecidableEq, Repr

/-- The time and the id of a cursor of a kind. -/
def decodeCursor (kind invalid invalidTime : String) (value : String) :
    Except String (Int × String) :=
  match splitN ':' 3 value.toList with
  | [first, start, id] =>
    if first = kind.toList then
      match parseI64 (String.ofList start) with
      | some time => .ok (time, String.ofList id)
      | none => .error invalidTime
    else .error invalid
  | _ => .error invalid

def encodeCursor (kind : String) (time : Int) (id : String) : String :=
  kind ++ ":" ++ toString time ++ ":" ++ id

def TraceCursor.decode (value : String) : Except String TraceCursor :=
  (decodeCursor "trace" "invalid thread trace cursor" "invalid thread trace cursor start time"
    value).map fun (start, traceId) => ⟨start, traceId⟩

def TraceCursor.encode (cursor : TraceCursor) : String :=
  encodeCursor "trace" cursor.startTimeUnixNano cursor.traceId

def ThreadCursor.decode (value : String) : Except String ThreadCursor :=
  (decodeCursor "thread" "invalid thread cursor" "invalid thread cursor start time"
    value).map fun (start, threadId) => ⟨start, threadId⟩

def ThreadCursor.encode (cursor : ThreadCursor) : String :=
  encodeCursor "thread" cursor.maxStartTimeUnixNano cursor.threadId

def TraceCursor.ofSummary (trace : ThreadTraceSummary) : TraceCursor :=
  ⟨trace.startTimeUnixNano, trace.traceId⟩

/-- `ThreadCursor::from`. A thread without a time has none. -/
def ThreadCursor.ofSummary (thread : ThreadSummary) : Option ThreadCursor :=
  thread.maxStartTimeUnixNano.map fun start => ⟨start, thread.threadId⟩

def defaultThreadPageSize : Nat := 20

def maxThreadPageSize : Nat := 100

def normalizedPageSize (pageSize : Nat) : Nat := max 1 (min pageSize maxThreadPageSize)

/-- The errors of a listing: of its cursor, and of its filter. -/
inductive ListingError where
  | cursor (message : String)
  | filter (error : FilterError)

/-- The filter of a listing, compiled for its project. -/
def listingFilterSql (formats : FilterFormats) (projectName : String) :
    Option FilterExpr → Except ListingError (Option HeadPredicate)
  | none => .ok none
  | some filter =>
    match compileExpr formats [projectName] filter with
    | .error error => .error (.filter error)
    | .ok sql => .ok (some sql)

/-- The subquery of the filters: the root run of a row of `thread_traces` is not deleted and
satisfies the filter. -/
def Db.rootRunSatisfies (engine : QueryEngine) (db : Db) (sql : HeadPredicate)
    (row : ThreadTraceKey × ThreadTraceRow) : Bool :=
  let k : RunKey := ⟨row.1.projectName, row.1.traceId, row.2.rootSpanId⟩
  db.runHeads[k]?.any fun head =>
    head.deletedAtUnixNano.isNone && (engine.tables.filterRun k head).satisfies engine.rules sql

/-- A text column is the text that a literal in the query stands for. -/
def equalsLiteral (column value : String) : Bool := literalValue (sqlStringLiteral value) = some column

/-- A text column comes after the text that a literal in the query stands for. -/
def Collation.afterLiteral (collation : Collation) (column value : String) : Bool :=
  (literalValue (sqlStringLiteral value)).any fun value => collation.compare column value = .gt

/-- The predicate of `thread_trace_sql` for a cursor. -/
def TraceCursor.admits (collation : Collation) (cursor : TraceCursor)
    (row : ThreadTraceKey × ThreadTraceRow) : Bool :=
  row.2.startTimeUnixNano > cursor.startTimeUnixNano ||
    (row.2.startTimeUnixNano = cursor.startTimeUnixNano &&
      collation.afterLiteral row.1.traceId cursor.traceId)

/-- The predicate of `thread_sql` for a cursor. Nothing is less than or equal to `NULL`. -/
def ThreadCursor.admits (collation : Collation) (cursor : ThreadCursor)
    (row : ThreadKey × ThreadRow) : Bool :=
  row.2.maxStartTimeUnixNano.any fun start => start < cursor.maxStartTimeUnixNano ||
    (start = cursor.maxStartTimeUnixNano && collation.afterLiteral row.1.threadId cursor.threadId)

/-- The predicates of `thread_trace_sql` but for the cursor. -/
def ThreadTraceQuery.admits (engine : QueryEngine) (db : Db) (query : ThreadTraceQuery)
    (sql : Option HeadPredicate) (row : ThreadTraceKey × ThreadTraceRow) : Bool :=
  equalsLiteral row.1.projectName query.projectName &&
    equalsLiteral row.1.threadId query.threadId && sql.all fun sql => db.rootRunSatisfies engine sql row

/-- The predicates of `thread_sql` but for the cursor. -/
def ThreadListQuery.admits (engine : QueryEngine) (db : Db) (tables : ThreadTables)
    (query : ThreadListQuery) (sql : Option HeadPredicate) (row : ThreadKey × ThreadRow) : Bool :=
  equalsLiteral row.1.projectName query.projectName &&
    (query.minStartTimeUnixNano.all fun min => row.2.maxStartTimeUnixNano.any fun start =>
      min ≤ start) &&
    (query.maxStartTimeUnixNano.all fun max => row.2.minStartTimeUnixNano.any fun start =>
      start ≤ max) &&
    sql.all fun sql => tables.threadTraces.toList.any fun trace =>
      equalsLiteral trace.1.projectName query.projectName &&
        trace.1.threadId = row.1.threadId && db.rootRunSatisfies engine sql trace

/-- `ORDER BY` of `thread_trace_sql`. -/
def ThreadTraceSummary.compare (collation : Collation) : ThreadTraceSummary → ThreadTraceSummary →
    Ordering :=
  compareLex (compareOn startTimeUnixNano) fun left right =>
    collation.compare left.traceId right.traceId

/-- `ORDER BY` of `thread_sql`: the latest threads first, those without a time last. -/
def ThreadSummary.compare (collation : Collation) : ThreadSummary → ThreadSummary → Ordering :=
  compareLex (fun left right =>
      Ord.compare right.maxStartTimeUnixNano left.maxStartTimeUnixNano)
    fun left right => collation.compare left.threadId right.threadId

/-- `query_thread_trace_rows`, as summaries. -/
def ThreadTables.queryThreadTraceRows (engine : QueryEngine) (collation : Collation) (db : Db)
    (tables : ThreadTables) (query : ThreadTraceQuery) (limit : Nat) :
    Except ListingError (List ThreadTraceSummary) := do
  let cursor ← match query.cursor with
    | none => .ok none
    | some cursor => ((TraceCursor.decode cursor).mapError .cursor).map some
  let sql ← listingFilterSql engine.formats query.projectName query.filter
  let rows := tables.threadTraces.toList.filter fun row =>
    query.admits engine db sql row && cursor.all fun cursor => cursor.admits collation row
  return (ordered (ThreadTraceSummary.compare collation) (rows.map .ofRow)).take limit

/-- `query_thread_rows`, as summaries. -/
def ThreadTables.queryThreadRows (engine : QueryEngine) (collation : Collation) (db : Db)
    (tables : ThreadTables) (query : ThreadListQuery) (limit : Nat) :
    Except ListingError (List ThreadSummary) := do
  let cursor ← match query.cursor with
    | none => .ok none
    | some cursor => ((ThreadCursor.decode cursor).mapError .cursor).map some
  let sql ← listingFilterSql engine.formats query.projectName query.filter
  let rows := tables.threads.toList.filter fun row =>
    query.admits engine db tables sql row && cursor.all fun cursor => cursor.admits collation row
  return (ordered (ThreadSummary.compare collation) (rows.map .ofRow)).take limit

/-- `page_thread_trace_rows`. -/
def pageThreadTraceRows (limit : Nat) (rows : List ThreadTraceSummary) :
    List ThreadTraceSummary × Option String :=
  cutPage (fun trace => some (TraceCursor.ofSummary trace).encode) limit rows

/-- `page_thread_rows`. -/
def pageThreadRows (limit : Nat) (rows : List ThreadSummary) :
    List ThreadSummary × Option String :=
  cutPage (fun thread => (ThreadCursor.ofSummary thread).map ThreadCursor.encode) limit rows

def ThreadTables.listThreadTraces (engine : QueryEngine) (collation : Collation) (db : Db)
    (tables : ThreadTables) (query : ThreadTraceQuery) :
    Except ListingError (List ThreadTraceSummary × Option String) := do
  let limit := normalizedPageSize query.pageSize
  return pageThreadTraceRows limit
    (← tables.queryThreadTraceRows engine collation db query (limit + 1))

def ThreadTables.listThreads (engine : QueryEngine) (collation : Collation) (db : Db)
    (tables : ThreadTables) (query : ThreadListQuery) :
    Except ListingError (List ThreadSummary × Option String) := do
  let limit := normalizedPageSize query.pageSize
  return pageThreadRows limit (← tables.queryThreadRows engine collation db query (limit + 1))

end KevinDb
