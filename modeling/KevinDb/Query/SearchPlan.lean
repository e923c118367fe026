import KevinDb.Lib.Result
import KevinDb.Query.Distributed
import KevinDb.Query.Paging

namespace KevinDb
set_option autoImplicit true

structure RunQueryLimits where
  maxCandidateSegments : Option Nat
  maxCandidateRuns : Option Nat
  maxEstimatedObjectStoreRequests : Option Nat
  maxCandidateBytes : Option Int
deriving DecidableEq, Repr

/-- A limit of a query, checked. -/
def rejectAbove (what : String) (actual : Int) : Option Int → Except String Unit
  | none => .ok ()
  | some limit =>
    if limit < actual then .error s!"query rejected: {what} {actual} exceed limit {limit}"
    else .ok ()

def enforceLimits (limits : RunQueryLimits)
    (candidateSegments candidateRuns estimatedObjectStoreRequests : Nat) (candidateBytes : Int)
    (maxCandidateRuns : Option Nat) : Except String Unit := do
  rejectAbove "candidate segments" candidateSegments (limits.maxCandidateSegments.map Int.ofNat)
  rejectAbove "candidate runs" candidateRuns (maxCandidateRuns.map Int.ofNat)
  rejectAbove "estimated object-store requests" estimatedObjectStoreRequests
    (limits.maxEstimatedObjectStoreRequests.map Int.ofNat)
  rejectAbove "candidate bytes" candidateBytes limits.maxCandidateBytes

/-- The segments as the store keeps them: their sizes in `trace_segments`, and what
`load_matching_rows` finds for a predicate in the index of a segment. -/
structure StoredSegments where
  totalBytes : String → Int
  searchIndexBytes : String → Int
  hasSearchIndex : String → Bool
  loadMatchingRows : SearchPredicate → String → Except String (List Nat)

def estimateSearchIndexObjectStoreRequests (indexedSegments : Nat) : Nat :=
  min (2 ^ 64 - 1) (indexedSegments * 4)

/-- The checks of `load_run_query_plan`. The candidate runs of a search are not limited here. -/
def StoredSegments.checkPlan (stored : StoredSegments) (limits : RunQueryLimits)
    (predicate : Option SearchPredicate) (segments : List SegmentSource) : Except String Unit :=
  let candidateBytes := (segments.map fun segment => stored.totalBytes segment.uri +
    if predicate.isSome then stored.searchIndexBytes segment.uri else 0).sum
  let estimatedObjectStoreRequests := estimateVortexObjectStoreRequests segments.length +
    if predicate.isSome then
      estimateSearchIndexObjectStoreRequests (segments.countP (stored.hasSearchIndex ·.uri))
    else 0
  enforceLimits limits segments.length (candidateRunKeys segments).dedup.length
    estimatedObjectStoreRequests candidateBytes
    (if predicate.isSome then none else limits.maxCandidateRuns)

def filterCandidateRows (rows : List SegmentCandidateRow) (matchingRows : List Nat) :
    List SegmentCandidateRow :=
  rows.filter fun row => row.rowIndex < 2 ^ 32 && row.rowIndex ∈ matchingRows

/-- The loop of `apply_phase6_search_indexes`. -/
def searchSegments (load : String → Except String (List Nat)) :
    List SegmentSource → Except String (List SegmentSource)
  | [] => .ok []
  | segment :: segments => do
    let matchingRows ← load segment.uri
    let candidateRows := filterCandidateRows segment.candidateRows matchingRows
    let rest ← searchSegments load segments
    return if candidateRows.isEmpty then rest else { segment with candidateRows } :: rest

def StoredSegments.applyPhase6SearchIndexes (stored : StoredSegments) (limits : RunQueryLimits)
    (predicate : Option SearchPredicate) (segments : List SegmentSource) :
    Except String (List SegmentSource) :=
  match predicate with
  | none => .ok segments
  | some predicate => do
    let found ← searchSegments (stored.loadMatchingRows predicate) segments
    rejectAbove "candidate runs" (candidateRunKeys found).dedup.length
      (limits.maxCandidateRuns.map Int.ofNat)
    return found

/-- The segments that are read for a plan. -/
def StoredSegments.searchPlan (stored : StoredSegments) (limits : RunQueryLimits)
    (predicate : Option SearchPredicate) (segments : List SegmentSource) :
    Except String (List SegmentSource) := do
  stored.checkPlan limits predicate segments
  stored.applyPhase6SearchIndexes limits predicate segments

/-- A result of `list_runs_with_diagnostics`. -/
def World.ListRunsWithin (engine : QueryEngine) (stored : StoredSegments) (w : World)
    (query : RunQuery) (limits : RunQueryLimits) (result : Except String (List RunSummary)) :
    Prop :=
  ∃ segments predicate, w.db.PlanResult engine query segments ∧
    query.searchPredicate engine.formats = .ok predicate ∧
    match stored.searchPlan limits predicate segments with
    | .error message => result = .error message
    | .ok found => ∃ runs, w.ListRuns engine.rules query found runs ∧ result = .ok runs

/-- The index of its segment finds a candidate. -/
def StoredSegments.finds (stored : StoredSegments) (predicate : SearchPredicate)
    (candidate : RunCandidate) : Bool :=
  candidate.rowIndex < 2 ^ 32 &&
    (stored.loadMatchingRows predicate candidate.uri).toOption.any (candidate.rowIndex ∈ ·)

/-- The heads whose candidates a search finds. -/
def Db.searched (db : Db) (stored : StoredSegments) (predicate : SearchPredicate)
    (rows : List (RunKey × RunHead)) : List (RunKey × RunHead) :=
  rows.filter fun row => (db.candidateOf row).any (stored.finds predicate)

variable {stored : StoredSegments} {limits : RunQueryLimits} {predicate : SearchPredicate}
  {segments : List SegmentSource} {x : Externals} {engine : QueryEngine} {w : World}
  {query : RunQuery} {rows heads : List (RunKey × RunHead)}

theorem rejectAbove_eq_ok (what : String) (actual : Nat) (limit : Nat) :
    rejectAbove what actual (some (Int.ofNat limit)) = .ok () ↔ actual ≤ limit := by
  rw [rejectAbove]
  split
  · next h => exact iff_of_false nofun (Int.ofNat_lt.1 h).not_ge
  · next h => exact iff_of_true rfl (Nat.not_lt.1 fun hlt => h (Int.ofNat_lt.2 hlt))

/-- The segments that are left have the candidates that their indexes find. -/
theorem searchSegments_spec (stored : StoredSegments) (predicate : SearchPredicate)
    (hload : ∀ segment ∈ segments,
      ∃ found, stored.loadMatchingRows predicate segment.uri = .ok found) :
    ∃ found, searchSegments (stored.loadMatchingRows predicate) segments = .ok found ∧
      (∀ segment ∈ found, segment.candidateRows ≠ []) ∧
      found.flatMap SegmentSource.candidates =
        (segments.flatMap SegmentSource.candidates).filter (stored.finds predicate) := by
  induction segments with
  | nil => exact ⟨[], rfl, nofun, rfl⟩
  | cons segment segments ih =>
    rw [List.forall_mem_cons] at hload
    obtain ⟨matchingRows, hfirst⟩ := hload.1
    obtain ⟨rest, hrest, hnonempty, hcandidates⟩ := ih hload.2
    have hfilter : segment.candidates.filter (stored.finds predicate) =
        (filterCandidateRows segment.candidateRows matchingRows).map fun row =>
          ⟨row.runKey, segment.uri, row.rowIndex⟩ := by
      rw [SegmentSource.candidates, List.filter_map, filterCandidateRows]
      congr 2
      funext row
      simp [StoredSegments.finds, hfirst, Except.toOption]
    rw [searchSegments, hfirst, hrest, List.flatMap_cons, List.filter_append, hfilter,
      ← hcandidates]
    by_cases hempty : filterCandidateRows segment.candidateRows matchingRows = []
    · refine ⟨rest, ?_, hnonempty, ?_⟩
      · simp [hempty, bind, Except.bind, pure, Except.pure]
      · rw [hempty]
        rfl
    · refine ⟨{ segment with
        candidateRows := filterCandidateRows segment.candidateRows matchingRows } :: rest,
        ?_, ?_, ?_⟩
      · simp [hempty, bind, Except.bind, pure, Except.pure]
      · rw [List.forall_mem_cons]
        exact ⟨hempty, hnonempty⟩
      · rw [List.flatMap_cons, SegmentSource.candidates]

theorem Db.searched_candidates (db : Db) (stored : StoredSegments) (predicate : SearchPredicate)
    (rows : List (RunKey × RunHead)) :
    (db.searched stored predicate rows).filterMap db.candidateOf =
      (rows.filterMap db.candidateOf).filter (stored.finds predicate) := by
  rw [List.filter_filterMap, Db.searched, List.filterMap_filter]
  apply List.filterMap_congr
  intro row _
  cases db.candidateOf row with
  | none => simp
  | some candidate => simp [Option.filter_some]

/-- Every order of the candidates of a search gives a plan to list, of the heads that it finds. -/
theorem World.Consistent.searchPlan (hw : w.Consistent x)
    (hpredicate : query.searchPredicate engine.formats = .ok (some predicate))
    (hrows : w.db.admitted engine query = .ok rows) (hlength : rows.length < 2 ^ 64)
    (hload : ∀ row ∈ rows, ∀ candidate ∈ w.db.candidateOf row,
      ∃ found, stored.loadMatchingRows predicate candidate.uri = .ok found)
    (hsegments : w.db.PlanResult engine query segments) :
    ∃ found, searchSegments (stored.loadMatchingRows predicate) segments = .ok found ∧
      (candidateRunKeys found).dedup.length =
        (w.db.searched stored predicate rows).length ∧
      w.IsPlan engine.rules query found ∧
      (w.keptRuns engine.rules query (found.flatMap SegmentSource.candidates)).Perm
        ((w.db.searched stored predicate rows).filterMap (w.matchingRun engine query)) := by
  obtain ⟨rows', predicate', ordered, hrows', hpredicate', harranges, hperm⟩ := hsegments
  obtain rfl : rows = rows' := Except.ok.inj (hrows.symm.trans hrows')
  obtain rfl : some predicate = predicate' := Except.ok.inj (hpredicate.symm.trans hpredicate')
  have hcandidates : (segments.flatMap SegmentSource.candidates).Perm
      (rows.filterMap w.db.candidateOf) :=
    ((hperm.flatMap_right _).trans (segmentSources_candidates _)).trans
      (harranges.perm.filterMap _)
  have hindexed : ∀ segment ∈ segments,
      ∃ found, stored.loadMatchingRows predicate segment.uri = .ok found := by
    intro segment hsegment
    have hne := segmentSources_nonempty segment (hperm.mem_iff.1 hsegment)
    obtain ⟨row, hrow⟩ := List.exists_mem_of_ne_nil _ hne
    have hmem : (⟨row.runKey, segment.uri, row.rowIndex⟩ : RunCandidate) ∈
        segments.flatMap SegmentSource.candidates :=
      List.mem_flatMap.2 ⟨segment, hsegment, List.mem_map_of_mem hrow⟩
    obtain ⟨head, hhead, hcandidate⟩ := List.mem_filterMap.1 (hcandidates.mem_iff.1 hmem)
    exact hload head hhead _ hcandidate
  obtain ⟨found, hfound, hnonempty, hfilter⟩ := searchSegments_spec stored predicate hindexed
  have hsub : (w.db.searched stored predicate rows).Sublist rows := List.filter_sublist
  have hheads : (found.flatMap SegmentSource.candidates).Perm
      ((w.db.searched stored predicate rows).filterMap w.db.candidateOf) := by
    rw [hfilter, Db.searched_candidates]
    exact hcandidates.filter _
  have hplan : w.IsPlan engine.rules query found :=
    hw.isPlan hrows hlength hsub.subperm hnonempty hheads
  refine ⟨found, hfound, ?_, hplan, ?_⟩
  · rw [List.dedup_eq_self.2 hplan.names.keys_nodup, candidateRunKeys_eq,
      (hheads.map RunCandidate.runKey).length_eq,
      (hw.candidateVersions hrows fun row hrow => hsub.subset hrow).1, List.length_map]
  · rw [World.filterMap_matchingRun,
      ← hw.keptRuns_heads hrows fun row hrow => hsub.subset hrow]
    exact World.keptRuns_perm hheads

theorem World.exists_planResult (w : World)
    (hpredicate : query.searchPredicate engine.formats = .ok (some predicate))
    (hrows : w.db.admitted engine query = .ok rows) :
    ∃ segments, w.db.PlanResult engine query segments :=
  ⟨_, rows, some predicate, _, hrows, hpredicate, Arranges.insertionSort rows, .refl _⟩

/-- A search within its other limits is rejected if it finds more candidates than the limit, and
listed as a page of an order of the runs it finds if not. -/
theorem World.Consistent.listRunsWithin (hw : w.Consistent x)
    (hpredicate : query.searchPredicate engine.formats = .ok (some predicate))
    (hrows : w.db.admitted engine query = .ok rows) (hlength : rows.length < 2 ^ 64)
    (hload : ∀ row ∈ rows, ∀ candidate ∈ w.db.candidateOf row,
      ∃ found, stored.loadMatchingRows predicate candidate.uri = .ok found)
    (hlimits : ∀ segments, w.db.PlanResult engine query segments →
      stored.checkPlan limits (some predicate) segments = .ok ())
    {cap : Nat} (hcap : limits.maxCandidateRuns = some cap) :
    (∃ result, w.ListRunsWithin engine stored query limits result) ∧
      ∀ result, w.ListRunsWithin engine stored query limits result →
        if (w.db.searched stored predicate rows).length ≤ cap then
          ∃ ordered, Arranges query.before
              ((w.db.searched stored predicate rows).filterMap (w.matchingRun engine query))
              ordered ∧
            result = .ok (takeLimit query.limit (ordered.drop (query.offset.getD 0)))
        else ∃ message, result = .error message := by
  have hplanned : ∀ segments, w.db.PlanResult engine query segments →
      ∃ found, w.IsPlan engine.rules query found ∧
        (w.keptRuns engine.rules query (found.flatMap SegmentSource.candidates)).Perm
          ((w.db.searched stored predicate rows).filterMap (w.matchingRun engine query)) ∧
        if (w.db.searched stored predicate rows).length ≤ cap then
          stored.searchPlan limits (some predicate) segments = .ok found
        else ∃ message, stored.searchPlan limits (some predicate) segments = .error message := by
    intro segments hsegments
    obtain ⟨found, hfound, hcount, hplan, hperm⟩ :=
      hw.searchPlan hpredicate hrows hlength hload hsegments
    refine ⟨found, hplan, hperm, ?_⟩
    have hsearch : stored.searchPlan limits (some predicate) segments =
        (rejectAbove "candidate runs" (w.db.searched stored predicate rows).length
          (some (Int.ofNat cap))).map fun _ => found := by
      rw [StoredSegments.searchPlan, hlimits segments hsegments,
        StoredSegments.applyPhase6SearchIndexes, hfound, hcap]
      simp only [bind, Except.bind, hcount, Option.map_some]
      rfl
    rw [hsearch]
    split
    · next hle =>
      rw [(rejectAbove_eq_ok _ _ _).2 hle]
      rfl
    · next hle =>
      cases hreject : rejectAbove "candidate runs" (w.db.searched stored predicate rows).length
          (some (Int.ofNat cap)) with
      | error message => exact ⟨message, rfl⟩
      | ok _ => exact absurd ((rejectAbove_eq_ok _ _ _).1 hreject) hle
  constructor
  · obtain ⟨segments, hsegments⟩ := w.exists_planResult hpredicate hrows
    obtain ⟨found, hplan, -, hsearch⟩ := hplanned segments hsegments
    split at hsearch
    · obtain ⟨runs, hruns⟩ := hplan.exists_listRuns
      refine ⟨.ok runs, segments, some predicate, hsegments, hpredicate, ?_⟩
      rw [hsearch]
      exact ⟨runs, hruns, rfl⟩
    · obtain ⟨message, hsearch⟩ := hsearch
      refine ⟨.error message, segments, some predicate, hsegments, hpredicate, ?_⟩
      rw [hsearch]
  · rintro result ⟨segments, predicate', hsegments, hpredicate', hresult⟩
    obtain rfl : some predicate = predicate' := Except.ok.inj (hpredicate.symm.trans hpredicate')
    obtain ⟨found, hplan, hperm, hsearch⟩ := hplanned segments hsegments
    split
    · next hle =>
      rw [if_pos hle] at hsearch
      rw [hsearch] at hresult
      obtain ⟨runs, hruns, rfl⟩ := hresult
      obtain ⟨ordered, harranges, rfl⟩ := hruns.arranges hplan
      exact ⟨ordered, ⟨harranges.perm.trans hperm, harranges.sorted⟩, rfl⟩
    · next hle =>
      rw [if_neg hle] at hsearch
      obtain ⟨message, hsearch⟩ := hsearch
      rw [hsearch] at hresult
      exact ⟨message, hresult⟩

end KevinDb
