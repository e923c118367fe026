import KevinDb.Query.List
import KevinDb.Query.Phase6

namespace KevinDb
set_option autoImplicit true
open Sql

inductive TreeFilterScope where
  | trace
  | root
  | child
  | descendant
deriving DecidableEq, Repr

inductive TreeFilterMode where
  | showAll
  | filteredOnly
  | mostRelevant
deriving DecidableEq, Repr

structure TreeFilterExpr where
  scope : TreeFilterScope
  mode : TreeFilterMode
  predicate : FilterExpr

structure RunQuery where
  projectNames : List String
  traceId : Option String
  parentRunId : Option String
  parentSpanId : Option String
  runType : Option String
  isRoot : Option Bool
  error : Option Bool
  startTimeMinUnixNano : Option Int
  startTimeMaxUnixNano : Option Int
  limit : Option Nat
  offset : Option Nat
  retentionCutoffUnixNano : Option Int
  includeDeleted : Bool
  filter : Option FilterExpr
  traceFilter : Option FilterExpr
  treeFilter : Option TreeFilterExpr
  newestFirst : Bool

/-- `RunQuery::new`. -/
def RunQuery.new (projectName : String) : RunQuery where
  projectNames := [projectName]
  traceId := none
  parentRunId := none
  parentSpanId := none
  runType := none
  isRoot := none
  error := none
  startTimeMinUnixNano := none
  startTimeMaxUnixNano := none
  limit := none
  offset := none
  retentionCutoffUnixNano := none
  includeDeleted := false
  filter := none
  traceFilter := none
  treeFilter := none
  newestFirst := false

/-- The columns that `run_query_predicates` compares, of a head and of a segment row alike. -/
inductive RunColumn where
  | projectName
  | traceId
  | parentRunId
  | parentSpanId
  | runType
  | isRoot
  | status
  | startTimeUnixNano
deriving DecidableEq, Repr

def nullable (value : Option String) : Value := (value.map Value.text).getD .null

def RunHead.runColumn (k : RunKey) (head : RunHead) : RunColumn → Value
  | .projectName => .text k.projectName
  | .traceId => .text k.traceId
  | .parentRunId => nullable head.parentRunId
  | .parentSpanId => nullable head.parentSpanId
  | .runType => .text head.runType
  | .isRoot => .boolean head.isRoot
  | .status => .text head.status.asStr
  | .startTimeUnixNano => .integer head.startTimeUnixNano

def RunSummary.runColumn (run : RunSummary) : RunColumn → Value
  | .projectName => .text run.projectName
  | .traceId => .text run.traceId
  | .parentRunId => nullable run.parentRunId
  | .parentSpanId => nullable run.parentSpanId
  | .runType => .text run.runType
  | .isRoot => .boolean run.isRoot
  | .status => .text run.status.asStr
  | .startTimeUnixNano => .integer run.startTimeUnixNano

/-- A comparison with a value that a query may leave out. -/
def optionalPredicate (op : Operator) (column : RunColumn) (value : Option Value) :
    List (Comparison RunColumn) :=
  (value.map fun value => .compare op column value).toList

def projectPredicate (projectNames : List String) : List (Comparison RunColumn) :=
  if projectNames = [] then [] else [.isIn .projectName (projectNames.map Value.text)]

def errorPredicate : Option Bool → List (Comparison RunColumn)
  | none => []
  | some true => [.compare .eq .status (.text "error")]
  | some false => [.compare .neq .status (.text "error")]

def runQueryPredicates (query : RunQuery) : List (Comparison RunColumn) :=
  projectPredicate query.projectNames ++
  optionalPredicate .eq .traceId (query.traceId.map Value.text) ++
  optionalPredicate .eq .parentRunId (query.parentRunId.map Value.text) ++
  optionalPredicate .eq .parentSpanId (query.parentSpanId.map Value.text) ++
  optionalPredicate .eq .runType (query.runType.map Value.text) ++
  optionalPredicate .eq .isRoot (query.isRoot.map Value.boolean) ++
  errorPredicate query.error ++
  optionalPredicate .gte .startTimeUnixNano (query.startTimeMinUnixNano.map Value.integer) ++
  optionalPredicate .lte .startTimeUnixNano (query.startTimeMaxUnixNano.map Value.integer)

/-- `run_query_where_sql`, evaluated on a segment row. -/
def RunQuery.keeps (rules : TextRules) (query : RunQuery) (run : RunSummary) : Bool :=
  (runQueryPredicates query).all fun comparison => comparison.truth rules run.runColumn = some true

/-- The rows of the index tables, which ingestion writes beside the heads, and of feedback. -/
structure FilterTables where
  tags : RunKey → List TagRow
  metadata : RunKey → List MetadataRow
  feedback : List FeedbackRow

/-- What queries are evaluated with. A search predicate selects among candidates. -/
structure QueryEngine where
  formats : FilterFormats
  rules : TextRules
  tables : FilterTables
  searchCandidates : SearchPredicate → List RunCandidate → Option (List RunCandidate)

def RunHead.column (k : RunKey) (head : RunHead) : HeadColumn → Value
  | .nonemptyRunId => if head.runId = "" then .null else .text head.runId
  | .generatedRunId => .text head.generatedRunId
  | .projectName => .text k.projectName
  | .traceId => .text k.traceId
  | .parentRunId => nullable head.parentRunId
  | .parentSpanId => nullable head.parentSpanId
  | .name => .text head.name
  | .runType => .text head.runType
  | .status => .text head.status.asStr
  | .startTimeUnixNano => .integer head.startTimeUnixNano
  | .endTimeUnixNano => .integer head.endTimeUnixNano
  | .isRoot => .boolean head.isRoot
  | .rootRunId => .text head.rootRunId
  | .rootSpanId => .text head.rootSpanId
  | .latencyNanos => .integer head.metrics.latencyNanos
  | .promptTokens => (head.metrics.promptTokens.map Value.integer).getD .null
  | .completionTokens => (head.metrics.completionTokens.map Value.integer).getD .null
  | .totalTokens => (head.metrics.totalTokens.map Value.integer).getD .null
  | .totalCost => (head.metrics.totalCost.map Value.real).getD .null
  | .modelName => nullable head.metrics.modelName
  | .providerName => nullable head.metrics.providerName

/-- A head with the rows of the index tables that filters on it read. -/
def FilterTables.filterRun (tables : FilterTables) (k : RunKey) (head : RunHead) : FilterRun where
  column := head.column k
  tags := tables.tags k
  metadata := tables.metadata k
  feedback := tables.feedback

/-- A conjunct of `run_head_where_sql`. -/
inductive HeadClause where
  | query (comparison : Comparison RunColumn)
  | segmentInUse
  | notDeleted
  | notInDeletions
  | startsFrom (cutoffUnixNano : Int)
  | filter (sql : HeadPredicate)
  | traceFilter (sql : HeadPredicate)
  | treeFilter (scope : TreeFilterScope) (mode : TreeFilterMode) (includeDeleted : Bool)
      (sql : HeadPredicate)

def prefilterClauses (formats : FilterFormats) (query : RunQuery) :
    Except FilterError (List HeadClause) :=
  match query.filter with
  | none => .ok []
  | some filter => do
    let prefilter ← filter.compileRunHeadPrefilterForProjects formats query.projectNames
    return (prefilter.map HeadClause.filter).toList

def traceFilterClauses (formats : FilterFormats) (query : RunQuery) :
    Except FilterError (List HeadClause) :=
  match query.traceFilter with
  | none => .ok []
  | some filter => do return [.traceFilter (← compileExpr formats query.projectNames filter)]

def treeFilterClauses (formats : FilterFormats) (query : RunQuery) :
    Except FilterError (List HeadClause) :=
  match query.treeFilter with
  | none => .ok []
  | some filter => do
    return [.treeFilter filter.scope filter.mode query.includeDeleted
      (← compileExpr formats query.projectNames filter.predicate)]

/-- The conjuncts of `run_head_where_sql` that need no compiler. -/
def plainClauses (query : RunQuery) : List HeadClause :=
  (runQueryPredicates query).map HeadClause.query ++ [.segmentInUse] ++
    (if query.includeDeleted then [] else [.notDeleted, .notInDeletions]) ++
    (query.retentionCutoffUnixNano.map HeadClause.startsFrom).toList

def filterClauses (formats : FilterFormats) (query : RunQuery) :
    Except FilterError (List HeadClause) := do
  let filter ← prefilterClauses formats query
  let traceFilter ← traceFilterClauses formats query
  let treeFilter ← treeFilterClauses formats query
  return filter ++ traceFilter ++ treeFilter

def runHeadWhereSql (formats : FilterFormats) (query : RunQuery) :
    Except FilterError (List HeadClause) := do
  return plainClauses query ++ (← filterClauses formats query)

/-- `planner_run_key_sql`. -/
def RunKey.sql (k : RunKey) : String :=
  k.projectName ++ "\u001f" ++ k.traceId ++ "\u001f" ++ k.spanId

def TreeFilterScope.holds (returned target : RunTreeIndexNode) : TreeFilterScope → Bool
  | .trace => true
  | .root => target.depth = 0
  | .child => target.parentSpanId = some returned.spanId
  | .descendant =>
    target.subtreeStart > returned.subtreeStart ∧ target.subtreeEnd < returned.subtreeEnd

def TreeFilterMode.holds (returned target : RunTreeIndexNode) : TreeFilterMode → Bool
  | .showAll => true
  | .filteredOnly => target.spanId = returned.spanId
  | .mostRelevant =>
    returned.subtreeStart ≤ target.subtreeStart ∧ returned.subtreeEnd ≥ target.subtreeEnd

/-- The clause of `run_head_where_sql` is true for a head on the segment. -/
def HeadClause.holds (engine : QueryEngine) (db : Db) (k : RunKey) (head : RunHead)
    (segment : TraceSegment) : HeadClause → Bool
  | .query comparison => comparison.truth engine.rules (head.runColumn k) = some true
  | .segmentInUse => segment.compactedAtUnixNano = none
  | .notDeleted => head.deletedAtUnixNano = none
  | .notInDeletions => db.runDeletions[k]? = none
  | .startsFrom cutoffUnixNano => cutoffUnixNano ≤ head.startTimeUnixNano
  | .filter sql => (engine.tables.filterRun k head).satisfies engine.rules sql
  | .traceFilter sql => db.runHeads.toList.any fun row =>
      row.1.projectName = k.projectName && row.1.traceId = k.traceId && row.2.isRoot &&
        (engine.tables.filterRun row.1 row.2).satisfies engine.rules sql
  | .treeFilter scope mode includeDeleted sql =>
    db.runTreeNodes.toList.any fun returned =>
      returned.1.sql = k.sql && returned.1.projectName = k.projectName &&
        returned.1.traceId = k.traceId &&
        db.runTreeNodes.toList.any fun target =>
          target.1.projectName = returned.1.projectName && target.1.traceId = returned.1.traceId &&
            scope.holds returned.2 target.2 && mode.holds returned.2 target.2 &&
            match db.runHeads[target.1]? with
            | none => false
            | some head => (includeDeleted || head.deletedAtUnixNano.isNone) &&
                (engine.tables.filterRun target.1 head).satisfies engine.rules sql

/-- `run_head_where_sql` admits a head, joined with its segment. -/
def Db.admits (engine : QueryEngine) (db : Db) (clauses : List HeadClause)
    (row : RunKey × RunHead) : Bool :=
  match db.traceSegments[row.2.lastTraceSegmentId]? with
  | none => false
  | some segment => clauses.all (HeadClause.holds engine db row.1 row.2 segment)

/-- The heads that the plan of a query admits. A query of no projects has an empty plan. -/
def Db.admitted (engine : QueryEngine) (db : Db) (query : RunQuery) :
    Except FilterError (List (RunKey × RunHead)) :=
  if query.projectNames = [] then .ok []
  else do
    let clauses ← runHeadWhereSql engine.formats query
    return db.runHeads.toList.filter (db.admits engine clauses)

/-- The search predicate of the filter of a query. -/
def RunQuery.searchPredicate (formats : FilterFormats) (query : RunQuery) :
    Except FilterError (Option SearchPredicate) :=
  match query.filter with
  | none => .ok none
  | some filter => filter.phase6SearchPredicate formats

/-- The order of the candidates: start time, span id, row index. -/
def RunQuery.candidateBefore (query : RunQuery) (left right : RunKey × RunHead) : Prop :=
  (if query.newestFirst then right.2.startTimeUnixNano < left.2.startTimeUnixNano
    else left.2.startTimeUnixNano < right.2.startTimeUnixNano) ∨
  left.2.startTimeUnixNano = right.2.startTimeUnixNano ∧
    (left.1.spanId < right.1.spanId ∨ left.1.spanId = right.1.spanId ∧
      left.2.lastRowIndex ≤ right.2.lastRowIndex)

instance (query : RunQuery) : DecidableRel query.candidateBefore := fun left right =>
  inferInstanceAs (Decidable ((if query.newestFirst then
    right.2.startTimeUnixNano < left.2.startTimeUnixNano
      else left.2.startTimeUnixNano < right.2.startTimeUnixNano) ∨ _))

/-- `limit.saturating_add(offset)`, unless it is zero or the filter searches. -/
def RunQuery.candidateLimit (query : RunQuery) (predicate : Option SearchPredicate) : Option Nat :=
  if predicate.isSome then none
  else (query.limit.map fun limit => min (2 ^ 64 - 1) (limit + query.offset.getD 0)).filter (0 < ·)

/-- Take as many elements as a limit says, if there is one. -/
def takeLimit (limit : Option Nat) (rows : List ρ) : List ρ :=
  match limit with
  | none => rows
  | some limit => rows.take limit

/-- The candidate that a head names, with the segment it is on. -/
def Db.candidateOf (db : Db) (row : RunKey × RunHead) : Option RunCandidate :=
  db.traceSegments[row.2.lastTraceSegmentId]?.map fun segment =>
    ⟨row.1, segment.uri, row.2.lastRowIndex⟩

/-- The plan of `load_run_query_plan`, narrowed by the search index if the filter searches. -/
def Db.runQueryPlan (engine : QueryEngine) (db : Db) (query : RunQuery) :
    Option (List RunCandidate) := do
  let admitted ← (db.admitted engine query).toOption
  let predicate ← (query.searchPredicate engine.formats).toOption
  let candidates := (takeLimit (query.candidateLimit predicate)
    (admitted.insertionSort query.candidateBefore)).filterMap db.candidateOf
  match predicate with
  | none => some candidates
  | some predicate => engine.searchCandidates predicate candidates

/-- The order of `run_head_datafusion_sql`. -/
def RunQuery.before (query : RunQuery) (left right : RunSummary) : Prop :=
  (if query.newestFirst then right.startTimeUnixNano < left.startTimeUnixNano
    else left.startTimeUnixNano < right.startTimeUnixNano) ∨
  left.startTimeUnixNano = right.startTimeUnixNano ∧ left.spanId ≤ right.spanId

instance (query : RunQuery) : DecidableRel query.before := fun left right =>
  inferInstanceAs (Decidable ((if query.newestFirst then
    right.startTimeUnixNano < left.startTimeUnixNano
      else left.startTimeUnixNano < right.startTimeUnixNano) ∨ _))

def runMatchesRetentionFilter (run : RunSummary) (query : RunQuery) : Bool :=
  query.retentionCutoffUnixNano.all fun cutoff => cutoff ≤ run.startTimeUnixNano

/-- `list_runs`. It fails when a filter does not compile or a segment cannot be read. -/
def World.queryRuns (engine : QueryEngine) (w : World) (query : RunQuery) :
    Option (List RunSummary) := do
  let candidates ← w.db.runQueryPlan engine query
  let rows ← candidates.mapM w.candidateRow
  let versions := (latestVersions (rows.filterMap id)).toList
  let runs := (versions.map fun version => RunSummary.ofRecord version.2.1).filter
    (query.keeps engine.rules)
  let page := takeLimit query.limit ((runs.insertionSort query.before).drop (query.offset.getD 0))
  return page.filter fun run => run.runKey ∈ candidates.map RunCandidate.runKey &&
    (query.includeDeleted || w.db.runDeletions[run.runKey]?.isNone) &&
    runMatchesRetentionFilter run query

end KevinDb
