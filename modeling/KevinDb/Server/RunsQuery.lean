import KevinDb.Query.RandomAccess
import KevinDb.Query.SearchPlan
import KevinDb.Server.Projects

namespace KevinDb
set_option autoImplicit true

/-- The object-store reads of a load. -/
structure ReadCost where
  requests : Nat
  bytes : Nat
deriving DecidableEq, Repr

/-- What the run handlers are given. The texts of the errors of the UUID library and the cost of
loading a run by its id are the server's. -/
structure RunsServer where
  state : ServerState
  uuidError : String → String
  engine : QueryEngine
  stored : StoredSegments
  readCost : String → ReadCost

/-- A request of `POST /runs/query`, its times and filters parsed. -/
structure RunsQueryRequest where
  runIds : List String
  projectName : List String
  session : List String
  query : Option String
  referenceExampleId : List String
  traceId : Option String
  parentRunId : Option String
  parentSpanId : Option String
  runType : Option String
  isRoot : Option Bool
  error : Option Bool
  startTimeMinUnixNano : Option Int
  startTimeMaxUnixNano : Option Int
  limit : Option Nat
  offset : Option Nat
  cursor : Option String
  filter : Option FilterExpr
  traceFilter : Option FilterExpr
  treeFilter : Option TreeFilterExpr

def RunsQueryRequest.rejectUnsupported (request : RunsQueryRequest) : Except String Unit :=
  if request.query.any fun query => trim query ≠ "" then
    .error "query is not supported; use filter/search predicates instead"
  else if request.referenceExampleId.any fun value => trim value ≠ "" then
    .error "reference_example filters are not supported"
  else .ok ()

def RunsQueryRequest.cursorOffset (request : RunsQueryRequest) : Option Nat :=
  (request.cursor.filter fun cursor => trim cursor ≠ "").bind parseUsize

/-- The `offset` of `query_runs`. -/
def RunsQueryRequest.pageOffset (request : RunsQueryRequest) : Option Nat :=
  request.cursorOffset.or request.offset

def canonicalUuid (server : RunsServer) (value field : String) : Except String String :=
  match server.state.uuids.parseStr value with
  | some id => .ok id.hyphenated
  | none => .error s!"{field} must be a UUID: {server.uuidError value}"

def normalizeTraceFilter (server : RunsServer) (traceId : Option String) : Option String :=
  traceId.map fun traceId =>
    ((server.state.uuids.parseStr traceId).map Uuid.simple).getD traceId

/-- The projects of a request. -/
def RunsServer.projectNames (server : RunsServer) (request : RunsQueryRequest) : List String :=
  dedupe (request.projectName ++ server.state.resolveProjectSelectors request.session)

/-- What `query_runs` checks first: the run ids and the parent that it queries. -/
def RunsServer.check (server : RunsServer) (request : RunsQueryRequest) :
    Except String (List String × Option String) := do
  request.rejectUnsupported
  let directRunIds ← request.runIds.mapM (canonicalUuid server · "run_id")
  if server.projectNames request = [] ∧ directRunIds = [] then
    .error "project_name, session, or run_ids is required"
  else
    let parentRunId ← request.parentRunId.mapM (canonicalUuid server · "parent_run_id")
    return (directRunIds, parentRunId)

def RunsServer.runQuery (server : RunsServer) (request : RunsQueryRequest)
    (parentRunId : Option String) : RunQuery where
  projectNames := server.projectNames request
  traceId := normalizeTraceFilter server request.traceId
  parentRunId := parentRunId
  parentSpanId := request.parentSpanId
  runType := request.runType
  isRoot := request.isRoot
  error := request.error
  startTimeMinUnixNano := request.startTimeMinUnixNano
  startTimeMaxUnixNano := request.startTimeMaxUnixNano
  limit := request.limit.map fun limit => min (2 ^ 64 - 1) (limit + 1)
  offset := request.pageOffset
  retentionCutoffUnixNano := none
  includeDeleted := false
  filter := request.filter
  traceFilter := request.traceFilter
  treeFilter := request.treeFilter
  newestFirst := true

def maxRunQueryCandidateSegments : Nat := 128
def maxRunQueryObjectStoreRequests : Nat := maxRunQueryCandidateSegments * (48 + 4)

def RunsQueryRequest.maxCandidateRuns (request : RunsQueryRequest) : Nat :=
  min (2 ^ 64 - 1) (min (2 ^ 64 - 1) (request.limit.getD 1000 + request.pageOffset.getD 0) + 1)

def RunsQueryRequest.limits (request : RunsQueryRequest) : RunQueryLimits where
  maxCandidateSegments := some maxRunQueryCandidateSegments
  maxCandidateRuns := some request.maxCandidateRuns
  maxEstimatedObjectStoreRequests := some maxRunQueryObjectStoreRequests
  maxCandidateBytes := some (128 * 1024 * 1024)

structure RunsResponse where
  runs : List RunSummary
  next : Option String
deriving DecidableEq, Repr

def RunsResponse.fromRunsWithLimit (limit offset : Option Nat) (runs : List RunSummary) :
    RunsResponse :=
  match limit with
  | none => ⟨runs, none⟩
  | some limit =>
    if limit < runs.length then
      ⟨runs.take limit, some (toString (min (2 ^ 64 - 1) (offset.getD 0 + limit)))⟩
    else ⟨runs, none⟩

def ReadCost.add (total next : ReadCost) : ReadCost where
  requests := min (2 ^ 64 - 1) (total.requests + next.requests)
  bytes := min (2 ^ 64 - 1) (total.bytes + next.bytes)

def maxDirectRunRequests : Nat := maxRunQueryCandidateSegments * 48
def maxDirectRunBytes : Nat := 128 * 1024 * 1024

def enforceDirectRuntimeLimits (total : ReadCost) : Except String Unit := do
  rejectAbove "actual object-store requests" total.requests (some (Int.ofNat maxDirectRunRequests))
  rejectAbove "actual bytes read" total.bytes (some (Int.ofNat maxDirectRunBytes))

/-- The loop of `load_direct_runs`. -/
def World.loadEachRun (readCost : String → ReadCost) (w : World) (total : ReadCost) :
    List String → Except String (List RunSummary)
  | [] => .ok []
  | runId :: runIds => do
    let run ← (w.loadRunById runId).elim (.error "load requested run") .ok
    let total := total.add (readCost runId)
    enforceDirectRuntimeLimits total
    let rest ← w.loadEachRun readCost total runIds
    return run.toList ++ rest

def World.loadDirectRuns (readCost : String → ReadCost) (w : World) (runIds : List String) :
    Except String (List RunSummary) := do
  rejectAbove "direct run_ids" runIds.length (some (Int.ofNat maxRunQueryCandidateSegments))
  w.loadEachRun readCost ⟨0, 0⟩ runIds

/-- An answer of `query_runs`. -/
def World.QueryRuns (server : RunsServer) (w : World) (request : RunsQueryRequest)
    (answer : Except String RunsResponse) : Prop :=
  match server.check request with
  | .error message => answer = .error message
  | .ok (directRunIds, parentRunId) =>
    if directRunIds ≠ [] then
      answer = (w.loadDirectRuns server.readCost directRunIds).map
        (.fromRunsWithLimit request.limit request.pageOffset)
    else
      ∃ runs, w.ListRunsWithin server.engine server.stored (server.runQuery request parentRunId)
          request.limits runs ∧
        answer = runs.map (.fromRunsWithLimit request.limit request.pageOffset)

/-- A response is a page of runs, and leads on exactly if more match. -/
def RunsResponse.IsPage (response : RunsResponse) (ordered : List RunSummary)
    (limit : Option Nat) (offset : Nat) : Prop :=
  response.runs = takeLimit limit (ordered.drop offset) ∧
    response.next = limit.bind fun limit =>
      if offset + limit < ordered.length then some (toString (offset + limit)) else none

/-- The request is answered, and always with its page of an order of the runs. -/
def World.AnswersPage (server : RunsServer) (w : World) (request : RunsQueryRequest)
    (parentRunId : Option String) (runs : List RunSummary) : Prop :=
  (∃ answer, w.QueryRuns server request answer) ∧
    ∀ answer, w.QueryRuns server request answer → ∃ response ordered,
      answer = .ok response ∧
        Arranges (server.runQuery request parentRunId).before runs ordered ∧
        response.IsPage ordered request.limit (request.pageOffset.getD 0)

/-- The runs that a client has received when it has followed the cursors to the end. -/
inductive World.Follows (server : RunsServer) (w : World) :
    RunsQueryRequest → List RunSummary → Prop where
  | last (h : w.QueryRuns server request (.ok ⟨runs, none⟩)) : w.Follows server request runs
  | next (h : w.QueryRuns server request (.ok ⟨runs, some cursor⟩))
      (hrest : w.Follows server { request with cursor := some cursor } rest) :
      w.Follows server request (runs ++ rest)

section search

variable {server : RunsServer} {request : RunsQueryRequest} {w : World} {x : Externals}
  {ordered runs : List RunSummary} {predicate : SearchPredicate} {parentRunId : Option String}
  {rows : List (RunKey × RunHead)}

/-- The response to the listing of one run more than a page. -/
theorem RunsResponse.isPage_fromRunsWithLimit (limit offset : Option Nat)
    (hlength : ordered.length < 2 ^ 64) :
    (RunsResponse.fromRunsWithLimit limit offset
      (takeLimit (limit.map fun limit => min (2 ^ 64 - 1) (limit + 1))
        (ordered.drop (offset.getD 0)))).IsPage ordered limit (offset.getD 0) := by
  cases limit with
  | none => exact ⟨rfl, rfl⟩
  | some limit =>
    have hdrop : (ordered.drop (offset.getD 0)).length = ordered.length - offset.getD 0 :=
      List.length_drop
    rw [Option.map_some, takeLimit, RunsResponse.fromRunsWithLimit, List.length_take, hdrop]
    by_cases hmore : offset.getD 0 + limit < ordered.length
    · rw [if_pos (by omega)]
      refine ⟨?_, ?_⟩
      · rw [List.take_take, Nat.min_eq_left (by omega)]
        rfl
      · have hend : min (2 ^ 64 - 1) (offset.getD 0 + limit) = offset.getD 0 + limit := by omega
        rw [Option.bind_some, if_pos hmore, hend]
    · rw [if_neg (by omega)]
      refine ⟨?_, ?_⟩
      · rw [takeLimit, List.take_of_length_le (by omega), List.take_of_length_le (by omega)]
      · rw [Option.bind_some, if_neg hmore]

theorem World.queryRuns_iff (hcheck : server.check request = .ok ([], parentRunId))
    {answer : Except String RunsResponse} :
    w.QueryRuns server request answer ↔
      ∃ runs, w.ListRunsWithin server.engine server.stored (server.runQuery request parentRunId)
          request.limits runs ∧
        answer = runs.map (.fromRunsWithLimit request.limit request.pageOffset) := by
  rw [World.QueryRuns, hcheck]
  exact Iff.rfl

theorem RunsQueryRequest.le_maxCandidateRuns {n : Nat} (hn : n < 2 ^ 64) :
    n ≤ request.maxCandidateRuns ↔
      n ≤ request.limit.getD 1000 + request.pageOffset.getD 0 + 1 := by
  rw [RunsQueryRequest.maxCandidateRuns]
  omega

/-- A search within its other limits is answered with its page exactly if it finds no more
candidates than one beyond the end of the page. -/
theorem World.Consistent.answersPage_iff (server : RunsServer) (request : RunsQueryRequest)
    (hw : w.Consistent x)
    (hcheck : server.check request = .ok ([], parentRunId))
    (hpredicate : (server.runQuery request parentRunId).searchPredicate server.engine.formats =
      .ok (some predicate))
    (hrows : w.db.admitted server.engine (server.runQuery request parentRunId) = .ok rows)
    (hlength : rows.length < 2 ^ 64)
    (hload : ∀ row ∈ rows, ∀ candidate ∈ w.db.candidateOf row,
      ∃ found, server.stored.loadMatchingRows predicate candidate.uri = .ok found)
    (hlimits : ∀ segments,
      w.db.PlanResult server.engine (server.runQuery request parentRunId) segments →
      server.stored.checkPlan request.limits (some predicate) segments = .ok ()) :
    w.AnswersPage server request parentRunId
        ((w.db.searched server.stored predicate rows).filterMap
          (w.matchingRun server.engine (server.runQuery request parentRunId))) ↔
      (w.db.searched server.stored predicate rows).length ≤
        request.limit.getD 1000 + request.pageOffset.getD 0 + 1 := by
  obtain ⟨⟨result, hresult⟩, hevery⟩ := hw.listRunsWithin hpredicate hrows hlength hload hlimits
    (rfl : request.limits.maxCandidateRuns = some request.maxCandidateRuns)
  have hsearched : (w.db.searched server.stored predicate rows).length < 2 ^ 64 :=
    (List.length_filter_le _ _).trans_lt hlength
  rw [← RunsQueryRequest.le_maxCandidateRuns hsearched]
  constructor
  · intro ⟨_, hpage⟩
    by_contra hmany
    have herror := hevery result hresult
    rw [if_neg hmany] at herror
    obtain ⟨message, rfl⟩ := herror
    obtain ⟨response, _, hresponse, -⟩ :=
      hpage _ ((World.queryRuns_iff hcheck).2 ⟨_, hresult, rfl⟩)
    cases hresponse
  · intro hle
    refine ⟨⟨_, (World.queryRuns_iff hcheck).2 ⟨result, hresult, rfl⟩⟩, ?_⟩
    intro answer hanswer
    obtain ⟨result, hresult, rfl⟩ := (World.queryRuns_iff hcheck).1 hanswer
    have hlisted := hevery result hresult
    rw [if_pos hle] at hlisted
    obtain ⟨ordered, harranges, rfl⟩ := hlisted
    refine ⟨_, ordered, rfl, harranges, RunsResponse.isPage_fromRunsWithLimit _ _ ?_⟩
    rw [harranges.perm.length_eq]
    exact (List.length_filterMap_le _ _).trans_lt hsearched

/-- In every reachable store, a search whose segments, bytes and object-store requests are within
their limits is answered with its page exactly if the search finds no more candidates than one
beyond the end of the page. -/
theorem System.search_page_answered (server : RunsServer) (request : RunsQueryRequest) {s : System}
    (h : Transition.run (System.step x maxSpansPerSegment) .initial actions = some s)
    (hcheck : server.check request = .ok ([], parentRunId))
    (hpredicate : (server.runQuery request parentRunId).searchPredicate server.engine.formats =
      .ok (some predicate))
    (hrows : s.world.db.admitted server.engine (server.runQuery request parentRunId) = .ok rows)
    (hlength : rows.length < 2 ^ 64)
    (hload : ∀ row ∈ rows, ∀ candidate ∈ s.world.db.candidateOf row,
      ∃ found, server.stored.loadMatchingRows predicate candidate.uri = .ok found)
    (hlimits : ∀ segments,
      s.world.db.PlanResult server.engine (server.runQuery request parentRunId) segments →
      server.stored.checkPlan request.limits (some predicate) segments = .ok ()) :
    s.world.AnswersPage server request parentRunId
        ((s.world.db.searched server.stored predicate rows).filterMap
          (s.world.matchingRun server.engine (server.runQuery request parentRunId))) ↔
      (s.world.db.searched server.stored predicate rows).length ≤
        request.limit.getD 1000 + request.pageOffset.getD 0 + 1 := by
  have hw : s.world.Consistent x := Transition.run_invariant_of_step
    (fun s : System => s.world.Consistent x)
    (World.Consistent.step x maxSpansPerSegment) (.empty x) h
  exact hw.answersPage_iff server request hcheck hpredicate hrows hlength hload hlimits

end search

/-- Small segments, and indexes that find their first three rows. -/
def StoredSegments.sample : StoredSegments where
  totalBytes _ := 0
  searchIndexBytes _ := 0
  hasSearchIndex _ := true
  loadMatchingRows _ _ := .ok [0, 1, 2]

def RunsServer.sample : RunsServer where
  state := .alone
  uuidError _ := ""
  engine := .sample
  stored := .sample
  readCost _ := ⟨0, 0⟩

/-- Search a project for a path. -/
def RunsQueryRequest.sample : RunsQueryRequest where
  runIds := []
  projectName := ["p"]
  session := []
  query := none
  referenceExampleId := []
  traceId := none
  parentRunId := none
  parentSpanId := none
  runType := none
  isRoot := none
  error := none
  startTimeMinUnixNano := none
  startTimeMaxUnixNano := none
  limit := some 1
  offset := none
  cursor := none
  filter := some (.jsonKey none "a")
  traceFilter := none
  treeFilter := none

theorem StoredSegments.sample_checkPlan {db : Db} {engine : QueryEngine} {query : RunQuery}
    {rows : List (RunKey × RunHead)} {segments : List SegmentSource}
    (hrows : db.admitted engine query = .ok rows) (hlength : rows.length ≤ 3)
    (h : db.PlanResult engine query segments) (predicate : SearchPredicate) :
    StoredSegments.sample.checkPlan RunsQueryRequest.sample.limits (some predicate) segments =
      .ok () := by
  obtain ⟨rows', predicate', ordered, hrows', -, harranges, hperm⟩ := h
  obtain rfl : rows = rows' := Except.ok.inj (hrows.symm.trans hrows')
  have hsegments : segments.length ≤ 3 := by
    calc segments.length
      _ ≤ (segments.flatMap SegmentSource.candidates).length := by
        have hcounts : segments.length =
            (segments.map fun segment => segment.candidates.length).length :=
          (List.length_map _).symm
        rw [List.length_flatMap, hcounts]
        apply List.length_le_sum_of_one_le
        intro count hcount
        obtain ⟨segment, hsegment, rfl⟩ := List.mem_map.1 hcount
        have hne := segmentSources_nonempty segment (hperm.mem_iff.1 hsegment)
        rw [SegmentSource.candidates, List.length_map]
        exact List.length_pos_iff.2 hne
      _ ≤ ordered.length := by
        rw [((hperm.flatMap_right _).trans (segmentSources_candidates _)).length_eq]
        exact (List.length_filterMap_le _ _).trans (takeLimit_sublist _ _).length_le
      _ ≤ 3 := harranges.perm.length_eq.trans_le hlength
  have hbytes : (segments.map fun segment => StoredSegments.sample.totalBytes segment.uri +
      StoredSegments.sample.searchIndexBytes segment.uri).sum = 0 := by
    simp [StoredSegments.sample]
  have hindexed : segments.countP (StoredSegments.sample.hasSearchIndex ·.uri) ≤ 3 :=
    List.countP_le_length.trans hsegments
  simp only [StoredSegments.checkPlan, Option.isSome_some, if_true, hbytes, enforceLimits,
    RunsQueryRequest.limits, Option.map_some, Option.map_none]
  rw [(rejectAbove_eq_ok _ _ _).2 (by
      rw [maxRunQueryCandidateSegments]
      omega),
    (rejectAbove_eq_ok _ _ _).2 (by
      rw [estimateVortexObjectStoreRequests, estimateSearchIndexObjectStoreRequests,
        maxRunQueryObjectStoreRequests, maxRunQueryCandidateSegments]
      omega)]
  rfl

theorem System.search_page_answered_sample :
    ∃ s rows, Transition.run (System.step .sample 1) .initial
        [.ingest ⟨"p", 0⟩ ⟨1, 1⟩ [.sample "t" "s" "n" .«end» 10 30] none] = some s ∧
      s.world.db.admitted .sample (RunsServer.sample.runQuery .sample none) = .ok rows ∧
      rows.length = 1 ∧
      (s.world.AnswersPage .sample .sample none
          ((s.world.db.searched .sample (.jsonKey "a") rows).filterMap
            (s.world.matchingRun .sample (RunsServer.sample.runQuery .sample none))) ↔
        (s.world.db.searched .sample (.jsonKey "a") rows).length ≤ 1 + 0 + 1) := by
  have hrun : (Transition.run (System.step .sample 1) .initial
      [.ingest ⟨"p", 0⟩ ⟨1, 1⟩ [.sample "t" "s" "n" .«end» 10 30] none]).map
      (fun s => (s.world.db.admitted .sample
        (RunsServer.sample.runQuery .sample none)).toOption.map List.length) = some (some 1) := by
    decide +kernel
  obtain ⟨s, hs, hrows⟩ := Option.map_eq_some_iff.1 hrun
  obtain ⟨rows, hrows, hlength⟩ := Option.map_eq_some_iff.1 hrows
  have hrows := eq_ok_of_toOption hrows
  refine ⟨s, rows, hs, hrows, hlength, ?_⟩
  exact System.search_page_answered .sample .sample hs rfl rfl hrows (by omega)
    (fun _ _ _ _ => ⟨_, rfl⟩)
    fun _ hsegments => StoredSegments.sample_checkPlan hrows (by omega) hsegments _

/-- A search for pages of one run that finds three is rejected: its cap is two. -/
theorem System.search_page_rejected :
    ∃ s rows, Transition.run (System.step .sample 3) .initial
        [.ingest ⟨"p", 0⟩ ⟨1, 1⟩ [.sample "t" "r" "n" .«end» 10 30,
          .sample "t" "s" "n" .«end» 11 30, .sample "t" "u" "n" .«end» 12 30] none] = some s ∧
      s.world.db.admitted .sample (RunsServer.sample.runQuery .sample none) = .ok rows ∧
      (∀ segments,
        s.world.db.PlanResult .sample (RunsServer.sample.runQuery .sample none) segments →
        StoredSegments.sample.checkPlan RunsQueryRequest.sample.limits (some (.jsonKey "a"))
          segments = .ok ()) ∧
      ¬ s.world.AnswersPage .sample .sample none
        ((s.world.db.searched .sample (.jsonKey "a") rows).filterMap
          (s.world.matchingRun .sample (RunsServer.sample.runQuery .sample none))) := by
  have hrun : (Transition.run (System.step .sample 3) .initial
      [.ingest ⟨"p", 0⟩ ⟨1, 1⟩ [.sample "t" "r" "n" .«end» 10 30,
        .sample "t" "s" "n" .«end» 11 30, .sample "t" "u" "n" .«end» 12 30] none]).map
      (fun s => (s.world.db.admitted .sample
        (RunsServer.sample.runQuery .sample none)).toOption.map fun rows =>
          (rows.length, (s.world.db.searched .sample (.jsonKey "a") rows).length)) =
        some (some (3, 3)) := by
    decide +kernel
  obtain ⟨s, hs, hrows⟩ := Option.map_eq_some_iff.1 hrun
  obtain ⟨rows, hrows, hlengths⟩ := Option.map_eq_some_iff.1 hrows
  have hrows := eq_ok_of_toOption hrows
  obtain ⟨hlength, hsearched⟩ := Prod.mk.inj hlengths
  have hlimits (segments : List SegmentSource) (hsegments : s.world.db.PlanResult .sample
      (RunsServer.sample.runQuery .sample none) segments) :=
    StoredSegments.sample_checkPlan hrows (by omega) hsegments (.jsonKey "a")
  have hw : s.world.Consistent .sample := Transition.run_invariant_of_step
    (fun s : System => s.world.Consistent .sample)
    (World.Consistent.step .sample 3) (.empty .sample) hs
  refine ⟨s, rows, hs, hrows, hlimits, fun hpage => ?_⟩
  have hle : (s.world.db.searched .sample (.jsonKey "a") rows).length ≤ 1 + 0 + 1 :=
    (hw.answersPage_iff .sample .sample rfl rfl hrows (by omega) (fun _ _ _ _ => ⟨_, rfl⟩)
      hlimits).1 hpage
  omega

end KevinDb
