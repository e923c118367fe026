import KevinDb.Lib.Grouping
import KevinDb.Lib.Ranking
import KevinDb.Query.RootFilter

namespace KevinDb
set_option autoImplicit true
open Sql

structure SegmentCandidateRow where
  runKey : RunKey
  rowIndex : Nat
deriving DecidableEq, Repr

structure SegmentSource where
  uri : String
  candidateRows : List SegmentCandidateRow
deriving DecidableEq, Repr

def SegmentSource.candidates (segment : SegmentSource) : List RunCandidate :=
  segment.candidateRows.map fun row => ⟨row.runKey, segment.uri, row.rowIndex⟩

/-- The segments of a plan, in the order of their URIs. -/
def segmentSources (candidates : List RunCandidate) : List SegmentSource :=
  (groupRows RunCandidate.uri candidates).toList.map fun entry =>
    ⟨entry.1, entry.2.map fun candidate => ⟨candidate.runKey, candidate.rowIndex⟩⟩

def candidateRunKeys (segments : List SegmentSource) : List RunKey :=
  segments.flatMap fun segment => segment.candidateRows.map SegmentCandidateRow.runKey

/-- The comparisons of `run_source_pushdown_where_sql`. -/
def runSourcePushdownPredicates (query : RunQuery) : List (Comparison RunColumn) :=
  projectPredicate query.projectNames ++
  optionalPredicate .eq .traceId (query.traceId.map Value.text) ++
  optionalPredicate .eq .parentRunId (query.parentRunId.map Value.text) ++
  optionalPredicate .eq .parentSpanId (query.parentSpanId.map Value.text) ++
  optionalPredicate .eq .runType (query.runType.map Value.text) ++
  optionalPredicate .gte .startTimeUnixNano (query.startTimeMinUnixNano.map Value.integer) ++
  optionalPredicate .lte .startTimeUnixNano (query.startTimeMaxUnixNano.map Value.integer)

def RunQuery.pushesDown (rules : TextRules) (query : RunQuery) (run : RunSummary) : Bool :=
  (runSourcePushdownPredicates query).all fun comparison =>
    comparison.truth rules run.runColumn = some true

/-- The rows that `segment_source_sql` selects. -/
def World.segmentRows (rules : TextRules) (w : World) (query : RunQuery)
    (sourceKeys : Option (List RunKey)) (segment : SegmentSource) :
    Option (List (SpanRecord × Nat)) :=
  (w.readSegment segment.uri).map fun records => records.zipIdx.filter fun row =>
    query.pushesDown rules (.ofRecord row.1) && (sourceKeys.all fun keys => row.1.runKey ∈ keys) &&
      (segment.candidateRows.isEmpty ||
        row.2 ∈ segment.candidateRows.map SegmentCandidateRow.rowIndex)

/-- `run_head_datafusion_sql` before its `ORDER BY`. -/
def World.batchRuns (rules : TextRules) (w : World) (query : RunQuery) (keys : List RunKey)
    (batch : List SegmentSource) : Option (List RunSummary) := do
  let sourceKeys :=
    if batch.any (·.candidateRows.isEmpty) ∧ keys ≠ [] then some keys else none
  let rows ← batch.mapM (w.segmentRows rules query sourceKeys)
  return ((latestVersions rows.flatten).toList.map fun version =>
    RunSummary.ofRecord version.2.1).filter (query.keeps rules)

/-- A result of `run_head_datafusion_sql`. Its `ORDER BY` leaves the order of ties open. -/
def World.BatchResult (rules : TextRules) (w : World) (query : RunQuery) (keys : List RunKey)
    (batch : List SegmentSource) (runs : List RunSummary) : Prop :=
  ∃ found ordered, w.batchRuns rules query keys batch = some found ∧
    Arranges query.before found ordered ∧ runs = takeLimit query.limit ordered

/-- `datafusion_batch_query`, and `worker_query` alike. -/
def RunQuery.batchQuery (query : RunQuery) : RunQuery :=
  { query with
    limit := query.limit.map fun limit => min (2 ^ 64 - 1) (limit + query.offset.getD 0)
    offset := none }

/-- `page_datafusion_runs`. -/
def RunQuery.page (query : RunQuery) (runs : List RunSummary) : List RunSummary :=
  takeLimit query.limit ((runs.insertionSort query.before).drop (query.offset.getD 0))

def maxDatafusionSegmentsPerBatch : Nat := 8

/-- A result of `query_segment_sources_with_datafusion_timed`. -/
def World.SegmentsResult (rules : TextRules) (w : World) (query : RunQuery) (keys : List RunKey)
    (segments : List SegmentSource) (runs : List RunSummary) : Prop :=
  ∃ results, List.Forall₂ (w.BatchResult rules query.batchQuery keys)
      (chunks maxDatafusionSegmentsPerBatch segments) results ∧
    runs = query.page results.flatten

/-- `load_deleted_run_keys`. -/
def Db.isDeletedFor (db : Db) (query : RunQuery) (k : RunKey) : Bool :=
  k.projectName ∈ query.projectNames && (query.traceId.all fun traceId => k.traceId = traceId) &&
    db.runDeletions[k]?.isSome

/-- The last filters of `list_runs`. -/
def Db.shows (db : Db) (query : RunQuery) (keys : List RunKey) (run : RunSummary) : Bool :=
  run.runKey ∈ keys && (query.includeDeleted || !db.isDeletedFor query run.runKey) &&
    runMatchesRetentionFilter run query

/-- A result of `list_runs` on a plan. -/
def World.ListRuns (rules : TextRules) (w : World) (query : RunQuery)
    (segments : List SegmentSource) (runs : List RunSummary) : Prop :=
  ∃ paged, w.SegmentsResult rules query (candidateRunKeys segments) segments paged ∧
    runs = paged.filter (w.db.shows query (candidateRunKeys segments))

/-- A plan of `load_run_query_plan`, before the search index. The `ORDER BY` of the candidates
leaves the order of ties open, and the segments may be read in any order. -/
def Db.PlanResult (engine : QueryEngine) (db : Db) (query : RunQuery)
    (segments : List SegmentSource) : Prop :=
  ∃ rows predicate ordered, db.admitted engine query = .ok rows ∧
    query.searchPredicate engine.formats = .ok predicate ∧
    Arranges query.candidateBefore rows ordered ∧
    segments.Perm (segmentSources
      ((takeLimit (query.candidateLimit predicate) ordered).filterMap db.candidateOf))

/-- A candidate names the row of its run. -/
def World.namesRow (w : World) (candidate : RunCandidate) : Prop :=
  ∃ record, w.candidateRow candidate = some (some (record, candidate.rowIndex)) ∧
    record.runKey = candidate.runKey

/-- The segments of a plan: each has candidates, and each candidate names the row of a run of its
own. -/
structure World.Names (w : World) (segments : List SegmentSource) : Prop where
  nonempty : ∀ segment ∈ segments, segment.candidateRows ≠ []
  namesRow : ∀ segment ∈ segments, ∀ candidate ∈ segment.candidates, w.namesRow candidate
  keys_nodup : (candidateRunKeys segments).Nodup

def World.candidateVersion (w : World) (candidate : RunCandidate) : Option (SpanRecord × Nat) :=
  (w.candidateRow candidate).join

/-- The runs that the candidates name and the query keeps. -/
def World.keptRuns (rules : TextRules) (w : World) (query : RunQuery)
    (candidates : List RunCandidate) : List RunSummary :=
  ((candidates.filterMap w.candidateVersion).map fun version =>
    RunSummary.ofRecord version.1).filter (query.keeps rules)

theorem exists_forall₂ {R : α → β → Prop} {l : List α} (h : ∀ a ∈ l, ∃ b, R a b) :
    ∃ l', List.Forall₂ R l l' := by
  induction l with
  | nil => exact ⟨[], .nil⟩
  | cons a l ih =>
    rw [List.forall_mem_cons] at h
    obtain ⟨b, hb⟩ := h.1
    obtain ⟨l', hl'⟩ := ih h.2
    exact ⟨b :: l', .cons hb hl'⟩

theorem exists_of_forall₂ {R : α → β → Prop} {l : List α} {l' : List β}
    (h : List.Forall₂ R l l') (hb : b ∈ l') : ∃ a ∈ l, R a b := by
  induction h with
  | nil => cases hb
  | cons hfirst hrest ih =>
    rcases List.mem_cons.1 hb with rfl | hb
    · exact ⟨_, List.mem_cons_self, hfirst⟩
    · obtain ⟨a, ha, hrel⟩ := ih hb
      exact ⟨a, List.mem_cons_of_mem _ ha, hrel⟩

section segments

variable {rules : TextRules} {w : World} {query : RunQuery} {keys : List RunKey}
  {segment : SegmentSource} {segments : List SegmentSource} {candidates : List RunCandidate}

theorem RunQuery.pushesDown_of_keeps {run : RunSummary} (h : query.keeps rules run) :
    query.pushesDown rules run := by
  rw [RunQuery.keeps, List.all_eq_true] at h
  rw [RunQuery.pushesDown, List.all_eq_true]
  intro comparison hmem
  apply h
  simp only [runSourcePushdownPredicates, runQueryPredicates, List.mem_append] at hmem ⊢
  tauto

theorem candidateRunKeys_eq :
    candidateRunKeys segments = (segments.flatMap SegmentSource.candidates).map
      RunCandidate.runKey := by
  rw [candidateRunKeys, List.map_flatMap]
  congr 1
  funext segment
  rw [SegmentSource.candidates, List.map_map]
  rfl

/-- The candidates of the segments are those that they are made of. -/
theorem segmentSources_candidates (candidates : List RunCandidate) :
    ((segmentSources candidates).flatMap SegmentSource.candidates).Perm candidates := by
  have hsame : (segmentSources candidates).flatMap SegmentSource.candidates =
      (groupRows RunCandidate.uri candidates).toList.flatMap Prod.snd := by
    rw [segmentSources, List.flatMap_map]
    apply List.flatMap_congr
    rintro ⟨uri, group⟩ hentry
    obtain ⟨-, rfl⟩ := (get_groupRows_eq_some uri).1
      (Std.TreeMap.mem_toList_iff_getElem?_eq_some.1 hentry)
    rw [SegmentSource.candidates, List.map_map]
    conv_rhs => rw [← List.map_id (candidates.filter _)]
    apply List.map_congr_left
    intro candidate hmem
    rw [← of_decide_eq_true (List.mem_filter.1 hmem).2]
    rfl
  rw [hsame]
  exact flatMap_groupRows_perm _ _

theorem segmentSources_nonempty : ∀ segment ∈ segmentSources candidates,
    segment.candidateRows ≠ [] := by
  intro segment hsegment
  obtain ⟨⟨uri, group⟩, hentry, rfl⟩ := List.mem_map.1 hsegment
  obtain ⟨⟨candidate, hmem, huri⟩, rfl⟩ := (get_groupRows_eq_some uri).1
    (Std.TreeMap.mem_toList_iff_getElem?_eq_some.1 hentry)
  rw [ne_eq, List.map_eq_nil_iff]
  exact List.ne_nil_of_mem (List.mem_filter.2 ⟨hmem, decide_eq_true huri⟩)

theorem World.namesRow.candidateVersion {candidate : RunCandidate} (h : w.namesRow candidate) :
    ∃ version, w.candidateVersion candidate = some version ∧
      version.1.runKey = candidate.runKey := by
  obtain ⟨record, hrow, hkey⟩ := h
  refine ⟨(record, candidate.rowIndex), ?_, hkey⟩
  rw [World.candidateVersion, hrow]
  rfl

/-- The versions of candidates that name their rows have the keys of the candidates. -/
theorem World.candidateVersion_keys (h : ∀ candidate ∈ candidates, w.namesRow candidate) :
    (candidates.filterMap w.candidateVersion).map (fun version => version.1.runKey) =
      candidates.map RunCandidate.runKey := by
  induction candidates with
  | nil => rfl
  | cons candidate candidates ih =>
    obtain ⟨version, hversion, hkey⟩ := (h candidate List.mem_cons_self).candidateVersion
    rw [List.filterMap_cons_some hversion, List.map_cons, List.map_cons, hkey,
      ih fun other hother => h other (List.mem_cons_of_mem _ hother)]

/-- A segment is read as the rows of its candidates. -/
theorem World.segmentRows_perm (hne : segment.candidateRows ≠ [])
    (hnames : ∀ candidate ∈ segment.candidates, w.namesRow candidate)
    (hkeys : (segment.candidates.map RunCandidate.runKey).Nodup) :
    ∃ rows, w.segmentRows rules query none segment = some rows ∧
      rows.Perm ((segment.candidates.filterMap w.candidateVersion).filter fun version =>
        query.pushesDown rules (.ofRecord version.1)) := by
  obtain ⟨records, hread⟩ : ∃ records, w.readSegment segment.uri = some records := by
    obtain ⟨row, hrow⟩ := List.exists_mem_of_ne_nil _ hne
    obtain ⟨record, hrow, -⟩ := hnames _ (List.mem_map_of_mem hrow)
    obtain ⟨records, hread, -⟩ := Option.map_eq_some_iff.1 hrow
    exact ⟨records, hread⟩
  refine ⟨_, by rw [World.segmentRows, hread]; rfl, ?_⟩
  have hrow (row : SegmentCandidateRow) (version : SpanRecord × Nat) :
      w.candidateVersion ⟨row.runKey, segment.uri, row.rowIndex⟩ = some version ↔
        records[row.rowIndex]? = some version.1 ∧ row.rowIndex = version.2 := by
    rw [World.candidateVersion, World.candidateRow, hread]
    simp [Option.join, Prod.ext_iff]
  have hnodup : (segment.candidates.filterMap w.candidateVersion).Nodup := by
    apply List.Nodup.of_map (fun version : SpanRecord × Nat => version.1.runKey)
    rw [World.candidateVersion_keys hnames]
    exact hkeys
  apply (List.perm_ext_iff_of_nodup _ (hnodup.filter _)).2
  · rintro ⟨record, i⟩
    simp only [List.mem_filter, List.mem_zipIdx_iff_getElem?, List.mem_filterMap,
      SegmentSource.candidates, List.mem_map, Bool.and_eq_true, Option.all_none, Bool.or_eq_true,
      decide_eq_true_eq, List.isEmpty_iff, hne, false_or, exists_exists_and_eq_and, hrow]
    constructor
    · rintro ⟨hget, ⟨hpushes, -⟩, row, hmem, rfl⟩
      exact ⟨⟨row, hmem, hget, rfl⟩, hpushes⟩
    · rintro ⟨⟨row, hmem, hget, rfl⟩, hpushes⟩
      exact ⟨hget, ⟨hpushes, trivial⟩, row, hmem, rfl⟩
  · apply List.Nodup.filter
    apply List.Nodup.of_map Prod.snd
    rw [List.zipIdx_map_snd]
    exact List.nodup_range'

/-- The rows that run versions are numbered in are what the latest versions are. -/
theorem latestVersions_perm {versions : List (SpanRecord × Nat)}
    (hkeys : (versions.map fun version => version.1.runKey).Nodup) :
    ((latestVersions versions).toList.map Prod.snd).Perm versions := by
  have hnodup := hkeys.of_map (fun version : SpanRecord × Nat => version.1.runKey)
  apply (List.perm_ext_iff_of_nodup _ hnodup).2
  · intro version
    rw [List.mem_map]
    constructor
    · rintro ⟨⟨k, version⟩, hmem, rfl⟩
      exact ((mem_latestVersions hkeys).1 hmem).1
    · intro hmem
      exact ⟨(version.1.runKey, version), (mem_latestVersions hkeys).2 ⟨hmem, rfl⟩, rfl⟩
  · apply List.Nodup.map_on _
      (List.Nodup.of_map Prod.fst (Std.TreeMap.map_fst_toList_eq_keys ▸ Std.TreeMap.nodup_keys))
    rintro ⟨k, version⟩ hmem ⟨k', version'⟩ hmem' rfl
    rw [← ((mem_latestVersions hkeys).1 hmem).2, ← ((mem_latestVersions hkeys).1 hmem').2]

/-- The rows of the segments of a batch. -/
theorem World.batchRows_perm (rules : TextRules) (query : RunQuery) (hnames : w.Names segments) :
    ∃ rows, segments.mapM (w.segmentRows rules query none) = some rows ∧
      rows.flatten.Perm (((segments.flatMap SegmentSource.candidates).filterMap
        w.candidateVersion).filter fun version => query.pushesDown rules (.ofRecord version.1)) := by
  obtain ⟨hnonempty, hnamed, hkeys⟩ := hnames
  rw [candidateRunKeys_eq] at hkeys
  induction segments with
  | nil => exact ⟨[], rfl, .nil⟩
  | cons segment segments ih =>
    rw [List.flatMap_cons, List.map_append, List.nodup_append] at hkeys
    obtain ⟨hfirst, hrest, -⟩ := hkeys
    rw [List.forall_mem_cons] at hnonempty hnamed
    obtain ⟨rows, hrows, hperm⟩ := World.segmentRows_perm hnonempty.1 hnamed.1 hfirst
    obtain ⟨rest, hmap, hpermRest⟩ := ih hnonempty.2 hnamed.2 hrest
    refine ⟨rows :: rest, ?_, ?_⟩
    · rw [List.mapM_cons, hrows, hmap]
      rfl
    · rw [List.flatMap_cons, List.filterMap_append, List.filter_append, List.flatten_cons]
      exact hperm.append hpermRest

theorem World.Names.any_isEmpty (hnames : w.Names segments) :
    segments.any (·.candidateRows.isEmpty) = false := by
  rw [List.any_eq_false]
  intro segment hsegment
  simpa using hnames.nonempty segment hsegment

/-- The latest versions of a batch are the rows that its candidates name, where the query keeps
them. -/
theorem World.batchVersions_perm (rules : TextRules) (query : RunQuery) (hnames : w.Names segments) :
    ∃ rows, segments.mapM (w.segmentRows rules query none) = some rows ∧
      (((latestVersions rows.flatten).toList.map Prod.snd).filter fun version =>
        query.keeps rules (.ofRecord version.1)).Perm
        (((segments.flatMap SegmentSource.candidates).filterMap w.candidateVersion).filter
          fun version => query.keeps rules (.ofRecord version.1)) := by
  obtain ⟨rows, hrows, hperm⟩ := World.batchRows_perm rules query hnames
  have hnamed : ∀ candidate ∈ segments.flatMap SegmentSource.candidates, w.namesRow candidate := by
    intro candidate hmem
    obtain ⟨segment, hsegment, hmem⟩ := List.mem_flatMap.1 hmem
    exact hnames.namesRow segment hsegment candidate hmem
  have hversions := World.candidateVersion_keys hnamed
  have hkeys := hnames.keys_nodup
  rw [candidateRunKeys_eq, ← hversions] at hkeys
  refine ⟨rows, hrows, ?_⟩
  generalize (segments.flatMap SegmentSource.candidates).filterMap w.candidateVersion = versions at *
  have hlatest := latestVersions_perm ((((hperm.map fun version =>
    version.1.runKey).nodup_iff).2 (hkeys.sublist (List.filter_sublist.map _))))
  have hkept : (versions.filter fun version => query.pushesDown rules (.ofRecord version.1)).filter
      (fun version => query.keeps rules (.ofRecord version.1)) =
      versions.filter fun version => query.keeps rules (.ofRecord version.1) := by
    rw [List.filter_filter]
    apply List.filter_congr
    intro version _
    rw [Bool.and_eq_left_iff_imp]
    exact RunQuery.pushesDown_of_keeps
  rw [← hkept]
  exact (hlatest.trans hperm).filter _

/-- A batch finds the runs that its candidates name and the query keeps. -/
theorem World.batchRuns_perm (rules : TextRules) (query : RunQuery) (keys : List RunKey)
    (hnames : w.Names segments) :
    ∃ found, w.batchRuns rules query keys segments = some found ∧
      found.Perm (w.keptRuns rules query (segments.flatMap SegmentSource.candidates)) := by
  obtain ⟨rows, hrows, hperm⟩ := World.batchVersions_perm rules query hnames
  refine ⟨((latestVersions rows.flatten).toList.map fun version =>
    RunSummary.ofRecord version.2.1).filter (query.keeps rules), ?_, ?_⟩
  · rw [World.batchRuns, hnames.any_isEmpty]
    simp [hrows]
  · have hversions : ((latestVersions rows.flatten).toList.map fun version =>
          RunSummary.ofRecord version.2.1) =
        ((latestVersions rows.flatten).toList.map Prod.snd).map fun version =>
          RunSummary.ofRecord version.1 := by
      rw [List.map_map]
      rfl
    have hfilter : ∀ versions : List (SpanRecord × Nat), (versions.map fun version =>
          RunSummary.ofRecord version.1).filter (query.keeps rules) =
        (versions.filter fun version => query.keeps rules (.ofRecord version.1)).map fun version =>
          RunSummary.ofRecord version.1 := fun _ => List.filter_map
    rw [hversions, World.keptRuns, hfilter, hfilter]
    exact hperm.map _

theorem World.Names.of_sublist (hnames : w.Names segments) {batch : List SegmentSource}
    (hbatch : batch.Sublist segments) : w.Names batch where
  nonempty := fun segment hsegment => hnames.nonempty segment (hbatch.subset hsegment)
  namesRow := fun segment hsegment => hnames.namesRow segment (hbatch.subset hsegment)
  keys_nodup := hnames.keys_nodup.sublist (hbatch.flatMap _)

theorem World.Names.perm (hnames : w.Names segments) {segments' : List SegmentSource}
    (hperm : segments'.Perm segments) : w.Names segments' where
  nonempty := fun segment hsegment => hnames.nonempty segment (hperm.subset hsegment)
  namesRow := fun segment hsegment => hnames.namesRow segment (hperm.subset hsegment)
  keys_nodup := ((hperm.flatMap_right _).nodup_iff).2 hnames.keys_nodup

theorem takeLimit_sublist (limit : Option Nat) (rows : List ρ) :
    (takeLimit limit rows).Sublist rows := by
  cases limit with
  | none => exact .refl _
  | some limit => exact List.take_sublist _ _

instance : Std.Total query.before := by
  constructor
  intro a b
  have hspan := le_total a.spanId b.spanId
  rw [RunQuery.before, RunQuery.before]
  grind

instance : IsTrans RunSummary query.before := by
  constructor
  intro a b c hab hbc
  rw [RunQuery.before] at hab hbc ⊢
  have hspan := @le_trans _ _ a.spanId b.spanId c.spanId
  grind

instance : Std.Total query.candidateBefore := by
  constructor
  intro a b
  have hspan := lt_trichotomy a.1.spanId b.1.spanId
  rw [RunQuery.candidateBefore, RunQuery.candidateBefore]
  grind

instance : IsTrans (RunKey × RunHead) query.candidateBefore := by
  constructor
  intro a b c hab hbc
  rw [RunQuery.candidateBefore] at hab hbc ⊢
  have hspan := @lt_trans _ _ a.1.spanId b.1.spanId c.1.spanId
  grind

theorem takeLimit_eq_take {rows : List ρ} {bound : Nat} (h : rows.length ≤ bound)
    (limit : Option Nat) : takeLimit limit rows = rows.take (limit.getD bound) := by
  cases limit with
  | none => exact (List.take_of_length_le h).symm
  | some limit => rfl

/-- The cut of the batches leaves the page as it is. -/
theorem RunQuery.page_of_cut {ordered sorted : List RunSummary} (hlength : ordered.length < 2 ^ 64)
    (hle : sorted.length ≤ ordered.length)
    (hcut : ordered.take (query.batchQuery.limit.getD ordered.length) =
      sorted.take (query.batchQuery.limit.getD ordered.length)) :
    takeLimit query.limit (sorted.drop (query.offset.getD 0)) =
      takeLimit query.limit (ordered.drop (query.offset.getD 0)) := by
  have hwhole (k : Nat) (hk : ordered.length ≤ k) (h : ordered.take k = sorted.take k) :
      sorted = ordered := by
    rwa [List.take_of_length_le hk, List.take_of_length_le (hle.trans hk), eq_comm] at h
  rw [RunQuery.batchQuery] at hcut
  cases hlimit : query.limit with
  | none =>
    rw [hlimit] at hcut
    rw [hwhole _ le_rfl hcut]
  | some limit =>
    rw [hlimit] at hcut
    replace hcut : ordered.take (min (2 ^ 64 - 1) (limit + query.offset.getD 0)) =
      sorted.take (min (2 ^ 64 - 1) (limit + query.offset.getD 0)) := hcut
    by_cases hsaturates : limit + query.offset.getD 0 ≤ 2 ^ 64 - 1
    · rw [Nat.min_eq_right hsaturates] at hcut
      exact (page_of_take_eq hcut (Nat.add_comm _ _).le).symm
    · rw [Nat.min_eq_left (by omega)] at hcut
      rw [hwhole _ (by omega) hcut]

theorem World.keptRuns_flatten (w : World) (rules : TextRules) (query : RunQuery)
    (batches : List (List SegmentSource)) :
    (batches.map fun batch => w.keptRuns rules query
      (batch.flatMap SegmentSource.candidates)).flatten =
      w.keptRuns rules query (batches.flatten.flatMap SegmentSource.candidates) := by
  induction batches with
  | nil => rfl
  | cons batch batches ih =>
    rw [List.map_cons, List.flatten_cons, ih, List.flatten_cons, List.flatMap_append,
      World.keptRuns, World.keptRuns, World.keptRuns, List.filterMap_append, List.map_append,
      List.filter_append]

theorem World.length_keptRuns_le (w : World) (rules : TextRules) (query : RunQuery)
    (candidates : List RunCandidate) :
    (w.keptRuns rules query candidates).length ≤ candidates.length := by
  refine (List.length_filter_le _ _).trans ?_
  rw [List.length_map]
  exact List.length_filterMap_le _ _

/-- Parts of a plan whose runs come sorted, cut where the page may end, give a page of an order of
all runs. -/
theorem World.page_arranges {batches : List (List SegmentSource)} {results : List (List RunSummary)}
    (hlength : (batches.flatten.flatMap SegmentSource.candidates).length < 2 ^ 64)
    (h : List.Forall₂ (fun batch result => ∃ ordered, Arranges query.before
        (w.keptRuns rules query (batch.flatMap SegmentSource.candidates)) ordered ∧
      result = takeLimit query.batchQuery.limit ordered) batches results) :
    ∃ ordered, Arranges query.before
        (w.keptRuns rules query (batches.flatten.flatMap SegmentSource.candidates)) ordered ∧
      query.page results.flatten = takeLimit query.limit (ordered.drop (query.offset.getD 0)) := by
  have hflatten := w.keptRuns_flatten rules query batches
  have htotal := (w.length_keptRuns_le rules query
    (batches.flatten.flatMap SegmentSource.candidates)).trans_lt hlength
  rw [← hflatten] at htotal ⊢
  have hparts : List.Forall₂ (fun part result => ∃ l, Arranges query.before part l ∧
      result = l.take (query.batchQuery.limit.getD
        ((batches.map fun batch => w.keptRuns rules query
          (batch.flatMap SegmentSource.candidates)).flatten.length)))
      (batches.map fun batch => w.keptRuns rules query
        (batch.flatMap SegmentSource.candidates)) results := by
    rw [List.forall₂_map_left_iff]
    rw [List.forall₂_iff_zip] at h ⊢
    refine ⟨h.1, fun {batch result} hmem => ?_⟩
    obtain ⟨ordered, harranges, rfl⟩ := h.2 hmem
    refine ⟨ordered, harranges, takeLimit_eq_take ?_ _⟩
    rw [harranges.perm.length_eq]
    apply (List.sublist_flatten_of_mem _).length_le
    exact List.mem_map.2 ⟨batch, (List.of_mem_zip hmem).1, rfl⟩
  obtain ⟨ordered, harranges, hle, hcut⟩ := exists_arranges_of_parts hparts
  refine ⟨ordered, harranges, ?_⟩
  rw [← harranges.perm.length_eq] at htotal hcut
  rw [RunQuery.page]
  apply RunQuery.page_of_cut htotal _ hcut
  rwa [(List.perm_insertionSort _ _).length_eq]

theorem World.BatchResult.arranges (hnames : w.Names segments) {runs : List RunSummary}
    (h : w.BatchResult rules query keys segments runs) :
    ∃ ordered, Arranges query.before
        (w.keptRuns rules query (segments.flatMap SegmentSource.candidates)) ordered ∧
      runs = takeLimit query.limit ordered := by
  obtain ⟨found, ordered, hfound, harranges, rfl⟩ := h
  obtain ⟨found', hfound', hperm⟩ := World.batchRuns_perm rules query keys hnames
  rw [hfound] at hfound'
  obtain rfl := Option.some.inj hfound'
  exact ⟨ordered, ⟨harranges.perm.trans hperm, harranges.sorted⟩, rfl⟩

theorem World.keptRuns_perm {candidates' : List RunCandidate}
    (h : candidates.Perm candidates') :
    (w.keptRuns rules query candidates).Perm (w.keptRuns rules query candidates') :=
  ((h.filterMap _).map _).filter _

theorem World.keptRuns_sublist {candidates' : List RunCandidate}
    (h : candidates.Sublist candidates') :
    (w.keptRuns rules query candidates).Sublist (w.keptRuns rules query candidates') :=
  ((h.filterMap _).map _).filter _

theorem World.keptRuns_subset {candidates' : List RunCandidate} (h : candidates ⊆ candidates') :
    w.keptRuns rules query candidates ⊆ w.keptRuns rules query candidates' := by
  intro run hrun
  simp only [World.keptRuns, List.mem_filter, List.mem_map, List.mem_filterMap] at hrun ⊢
  obtain ⟨⟨version, ⟨candidate, hmem, hversion⟩, hrun⟩, hkeeps⟩ := hrun
  exact ⟨⟨version, ⟨candidate, h hmem, hversion⟩, hrun⟩, hkeeps⟩

/-- The segments give a page of an order of the runs that their candidates name. -/
theorem World.SegmentsResult.arranges (hnames : w.Names segments)
    (hlength : (segments.flatMap SegmentSource.candidates).length < 2 ^ 64)
    {runs : List RunSummary} (h : w.SegmentsResult rules query keys segments runs) :
    ∃ ordered, Arranges query.before
        (w.keptRuns rules query (segments.flatMap SegmentSource.candidates)) ordered ∧
      runs = takeLimit query.limit (ordered.drop (query.offset.getD 0)) := by
  obtain ⟨results, hresults, rfl⟩ := h
  have hflatten := flatten_chunks (by decide : 0 < maxDatafusionSegmentsPerBatch) segments
  rw [← hflatten] at hlength
  have hbatches : List.Forall₂ (fun batch result => ∃ ordered, Arranges query.before
        (w.keptRuns rules query (batch.flatMap SegmentSource.candidates)) ordered ∧
      result = takeLimit query.batchQuery.limit ordered)
      (chunks maxDatafusionSegmentsPerBatch segments) results := by
    rw [List.forall₂_iff_zip] at hresults ⊢
    refine ⟨hresults.1, fun {batch result} hmem => (hresults.2 hmem).arranges ?_⟩
    apply hnames.of_sublist
    rw [← hflatten]
    exact List.sublist_flatten_of_mem (List.of_mem_zip hmem).1
  have hpage := World.page_arranges hlength hbatches
  rwa [hflatten] at hpage

/-- Segments that name their rows can be read. -/
theorem World.Names.exists_segmentsResult (hnames : w.Names segments) (rules : TextRules)
    (query : RunQuery) (keys : List RunKey) :
    ∃ runs, w.SegmentsResult rules query keys segments runs := by
  have hbatches : ∀ batch ∈ chunks maxDatafusionSegmentsPerBatch segments,
      ∃ runs, w.BatchResult rules query.batchQuery keys batch runs := by
    intro batch hbatch
    have hsub : batch.Sublist segments := by
      rw [← flatten_chunks (by decide : 0 < maxDatafusionSegmentsPerBatch) segments]
      exact List.sublist_flatten_of_mem hbatch
    obtain ⟨found, hfound, -⟩ := World.batchRuns_perm rules query.batchQuery keys
      (hnames.of_sublist hsub)
    exact ⟨_, found, _, hfound, Arranges.insertionSort found, rfl⟩
  obtain ⟨results, hresults⟩ := exists_forall₂ hbatches
  exact ⟨_, results, hresults, rfl⟩

/-- What a listing relies on in its plan: the candidates name rows of shown runs, and their number
is a `usize`. -/
structure World.IsPlan (rules : TextRules) (w : World) (query : RunQuery)
    (segments : List SegmentSource) : Prop where
  names : w.Names segments
  shows : ∀ run ∈ w.keptRuns rules query (segments.flatMap SegmentSource.candidates),
    w.db.shows query (candidateRunKeys segments) run
  length_lt : (segments.flatMap SegmentSource.candidates).length < 2 ^ 64

/-- A listing is a page of an order of the runs that the plan names. -/
theorem World.ListRuns.arranges (hplan : w.IsPlan rules query segments) {runs : List RunSummary}
    (h : w.ListRuns rules query segments runs) :
    ∃ ordered, Arranges query.before
        (w.keptRuns rules query (segments.flatMap SegmentSource.candidates)) ordered ∧
      runs = takeLimit query.limit (ordered.drop (query.offset.getD 0)) := by
  obtain ⟨paged, hpaged, rfl⟩ := h
  obtain ⟨ordered, harranges, rfl⟩ := hpaged.arranges hplan.names hplan.length_lt
  refine ⟨ordered, harranges, List.filter_eq_self.2 fun run hrun => hplan.shows run ?_⟩
  exact harranges.perm.mem_iff.1 (List.mem_of_mem_drop ((takeLimit_sublist _ _).subset hrun))

theorem World.IsPlan.exists_listRuns (hplan : w.IsPlan rules query segments) :
    ∃ runs, w.ListRuns rules query segments runs := by
  obtain ⟨paged, hpaged⟩ := hplan.names.exists_segmentsResult rules query
    (candidateRunKeys segments)
  exact ⟨_, paged, hpaged, rfl⟩

theorem filterMap_join_of_mapM {f : α → Option (Option β)} {l : List α} {l' : List (Option β)}
    (h : l.mapM f = some l') : l.filterMap (fun a => (f a).join) = l'.filterMap id := by
  induction l generalizing l' with
  | nil =>
    obtain rfl := Option.some.inj h
    rfl
  | cons a l ih =>
    rw [List.mapM_cons] at h
    obtain ⟨b, hb, h⟩ := Option.bind_eq_some_iff.1 h
    obtain ⟨rest, hrest, h⟩ := Option.bind_eq_some_iff.1 h
    obtain rfl := Option.some.inj h
    rw [List.filterMap_cons, List.filterMap_cons, ih hrest, hb]
    rfl

section heads

variable {x : Externals} {engine : QueryEngine} {rows heads : List (RunKey × RunHead)}

/-- The candidates of heads have the versions that the heads name. -/
theorem World.Consistent.candidateVersions (hw : w.Consistent x)
    (hrows : w.db.admitted engine query = .ok rows) (hsub : ∀ row ∈ heads, row ∈ rows) :
    (heads.filterMap w.db.candidateOf).map RunCandidate.runKey = heads.map Prod.fst ∧
      (heads.filterMap w.db.candidateOf).filterMap w.candidateVersion =
        heads.filterMap w.headRow := by
  have hheads : ∀ row ∈ heads, w.db.runHeads[row.1]? = some row.2 ∧
      ∃ segment, w.db.traceSegments[row.2.lastTraceSegmentId]? = some segment := fun row hrow =>
    ⟨(Db.mem_admitted hrows (hsub row hrow)).1, (Db.mem_admitted hrows (hsub row hrow)).2.1⟩
  obtain ⟨hkeys, hread⟩ := hw.mapM_candidateRow hheads
  refine ⟨hkeys, ?_⟩
  rw [show w.candidateVersion = fun candidate => (w.candidateRow candidate).join from rfl,
    filterMap_join_of_mapM hread, List.filterMap_map]
  rfl

/-- The runs that the candidates of heads name. -/
theorem World.Consistent.keptRuns_heads (hw : w.Consistent x)
    (hrows : w.db.admitted engine query = .ok rows) (hsub : ∀ row ∈ heads, row ∈ rows) :
    w.keptRuns rules query (heads.filterMap w.db.candidateOf) =
      (heads.filterMap fun row => w.content row.2).filter (query.keeps rules) := by
  rw [World.keptRuns, (hw.candidateVersions hrows hsub).2, List.map_filterMap]
  congr 1
  apply List.filterMap_congr
  intro row _
  rw [World.headRow, World.content, Option.map_map]
  rfl

theorem World.Consistent.namesRow (hw : w.Consistent x)
    (hrows : w.db.admitted engine query = .ok rows) (hsub : ∀ row ∈ heads, row ∈ rows) :
    ∀ candidate ∈ heads.filterMap w.db.candidateOf, w.namesRow candidate := by
  intro candidate hcandidate
  obtain ⟨row, hrow, hcandidate⟩ := List.mem_filterMap.1 hcandidate
  obtain ⟨segment, hsegment, rfl⟩ := Option.map_eq_some_iff.1 hcandidate
  obtain ⟨record, hrecord, hkey⟩ :=
    hw.row_of_runHeads (Db.mem_admitted hrows (hsub row hrow)).1
  obtain ⟨segment', records, hsegment', hobject, hget⟩ := World.rowAt_eq_some.1 hrecord
  rw [hsegment] at hsegment'
  cases hsegment'
  refine ⟨record, ?_, hkey⟩
  simp [World.candidateRow, World.readSegment, hobject, hget]

/-- The candidates of a plan for admitted heads, of which an index may have dropped some. -/
theorem World.Consistent.names (hw : w.Consistent x)
    (hrows : w.db.admitted engine query = .ok rows) (hheads : heads.Subperm rows)
    (hnonempty : ∀ segment ∈ segments, segment.candidateRows ≠ [])
    (hsegments : (segments.flatMap SegmentSource.candidates).Perm
      (heads.filterMap w.db.candidateOf)) :
    w.Names segments ∧ (candidateRunKeys segments).Perm (heads.map Prod.fst) := by
  have hsub : ∀ row ∈ heads, row ∈ rows := fun row hrow => hheads.subset hrow
  have hkeys : (candidateRunKeys segments).Perm (heads.map Prod.fst) := by
    rw [candidateRunKeys_eq, ← (hw.candidateVersions hrows hsub).1]
    exact hsegments.map _
  refine ⟨⟨hnonempty, ?_, ?_⟩, hkeys⟩
  · intro segment hsegment candidate hcandidate
    apply hw.namesRow hrows hsub
    exact hsegments.mem_iff.1 (List.mem_flatMap.2 ⟨segment, hsegment, hcandidate⟩)
  · rw [hkeys.nodup_iff]
    obtain ⟨chosen, hperm, hchosen⟩ := hheads
    rw [← (hperm.map Prod.fst).nodup_iff]
    exact (Db.admitted_keys hrows).sublist (hchosen.map _)

/-- The plans for admitted heads, of which an index may have dropped candidates. -/
theorem World.Consistent.isPlan (hw : w.Consistent x)
    (hrows : w.db.admitted engine query = .ok rows) (hlength : rows.length < 2 ^ 64)
    (hheads : heads.Subperm rows) (hnonempty : ∀ segment ∈ segments, segment.candidateRows ≠ [])
    (hsegments : (segments.flatMap SegmentSource.candidates).Perm
      (heads.filterMap w.db.candidateOf)) : w.IsPlan engine.rules query segments := by
  have hsub : ∀ row ∈ heads, row ∈ rows := fun row hrow => hheads.subset hrow
  obtain ⟨hnames, hkeys⟩ := hw.names hrows hheads hnonempty hsegments
  refine ⟨hnames, ?_, ?_⟩
  · intro run hrun
    have hrun := ((World.keptRuns_perm hsegments).mem_iff).1 hrun
    rw [hw.keptRuns_heads hrows hsub, List.mem_filter, List.mem_filterMap] at hrun
    obtain ⟨⟨row, hrow, hcontent⟩, -⟩ := hrun
    obtain ⟨hkey, hlive, hretention⟩ := hw.admitted_checks hrows (hsub row hrow) hcontent
    have hcandidate : run.runKey ∈ candidateRunKeys segments := by
      rw [hkeys.mem_iff, hkey]
      exact List.mem_map_of_mem hrow
    have hdeleted : (query.includeDeleted || !w.db.isDeletedFor query run.runKey) = true := by
      rw [Bool.or_eq_true] at hlive ⊢
      apply hlive.imp_right
      intro hnone
      rw [Option.isNone_iff_eq_none] at hnone
      simp [Db.isDeletedFor, hnone]
    rw [Db.shows, hdeleted, hretention, decide_eq_true hcandidate]
    rfl
  · rw [hsegments.length_eq]
    exact ((List.length_filterMap_le _ _).trans hheads.length_le).trans_lt hlength

/-- A run has the key and the start time of its head. -/
theorem World.Consistent.content_eq (hw : w.Consistent x)
    (hrows : w.db.admitted engine query = .ok rows) {row : RunKey × RunHead} (hrow : row ∈ rows)
    {run : RunSummary} (hcontent : w.content row.2 = some run) :
    run.runKey = row.1 ∧ run.startTimeUnixNano = row.2.startTimeUnixNano := by
  have hk := (Db.mem_admitted hrows hrow).1
  have hstart := hw.runColumn_eq hk hcontent .startTimeUnixNano nofun
  exact ⟨hw.content_key (Db.head_of_runHeads hk) hcontent, (Value.integer.inj hstart).symm⟩

/-- The plans of `load_run_query_plan` are plans to list. -/
theorem Db.PlanResult.isPlan (hw : w.Consistent x)
    (hrows : w.db.admitted engine query = .ok rows) (hlength : rows.length < 2 ^ 64)
    (h : w.db.PlanResult engine query segments) : w.IsPlan engine.rules query segments := by
  obtain ⟨rows', predicate, ordered, hrows', -, harranges, hsegments⟩ := h
  obtain rfl : rows = rows' := Except.ok.inj (hrows.symm.trans hrows')
  apply hw.isPlan hrows hlength
    ((takeLimit_sublist _ _).subperm.trans harranges.perm.subperm)
  · intro segment hsegment
    exact segmentSources_nonempty segment (hsegments.mem_iff.1 hsegment)
  · exact (hsegments.flatMap_right _).trans (segmentSources_candidates _)

end heads

end segments

end KevinDb
