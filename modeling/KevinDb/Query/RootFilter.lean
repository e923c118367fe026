import KevinDb.Compaction.Content
import KevinDb.Ingest.Roots
import KevinDb.Lib.Result
import KevinDb.Query.Live
import KevinDb.Query.Planner

namespace KevinDb
set_option autoImplicit true
open Sql

variable {x : Externals} {w : World} {k : RunKey} {head : RunHead} {run : RunSummary}
  {engine : QueryEngine} {query : RunQuery}

/-- The same query with another choice of `is_root`. -/
def RunQuery.withRoot (query : RunQuery) (isRoot : Option Bool) : RunQuery :=
  { query with isRoot }

def RunQuery.unlimited (query : RunQuery) : RunQuery := { query with limit := none, offset := none }

/-- The head says of its run what the row does. -/
theorem World.Consistent.runColumn_eq (hw : w.Consistent x) (hk : w.db.runHeads[k]? = some head)
    (hcontent : w.content head = some run) (column : RunColumn) (hroot : column ≠ .isRoot) :
    head.runColumn k column = run.runColumn column := by
  obtain ⟨record, hrow, rfl⟩ := World.content_eq_some.1 hcontent
  obtain ⟨record', hrow', rfl, hwritten⟩ := hw.head_row k _ (Db.head_of_runHeads hk)
  rw [show w.rowAt head.forgetTree.lastTraceSegmentId head.forgetTree.lastRowIndex = _ from hrow]
    at hrow'
  cases hrow'
  have hparentRunId : head.parentRunId = record.parentRunId := congrArg RunHead.parentRunId hwritten
  have hparent : head.parentSpanId = record.parentSpanId := congrArg RunHead.parentSpanId hwritten
  have hrunType : head.runType = record.runType := congrArg RunHead.runType hwritten
  have hstatus : head.status = statusFromRecord record := congrArg RunHead.status hwritten
  have hstart : head.startTimeUnixNano = record.startTimeUnixNano :=
    congrArg RunHead.startTimeUnixNano hwritten
  cases column with
  | isRoot => exact absurd rfl hroot
  | projectName => rfl
  | traceId => rfl
  | parentRunId => exact congrArg nullable hparentRunId
  | parentSpanId => exact congrArg nullable hparent
  | runType => exact congrArg Value.text hrunType
  | status => exact congrArg (fun status => Value.text status.asStr) hstatus
  | startTimeUnixNano => exact congrArg Value.integer hstart

theorem World.Consistent.isRoot_content (hw : w.Consistent x) (hk : w.db.runHeads[k]? = some head)
    (hcontent : w.content head = some run) : run.isRoot = head.parentSpanId.isNone := by
  have hsame := hw.runColumn_eq hk hcontent .parentSpanId nofun
  obtain ⟨record, hrow, rfl⟩ := World.content_eq_some.1 hcontent
  have hnull : ∀ value : Option String, nullable value = .null ↔ value = none := by
    intro value
    cases value with
    | none => exact iff_of_true rfl rfl
    | some text => exact iff_of_false nofun nofun
  rw [Bool.eq_iff_iff, Option.isNone_iff_eq_none, ← hnull,
    show nullable head.parentSpanId = nullable record.parentSpanId from hsame, hnull]
  exact Option.isNone_iff_eq_none

theorem column_of_optionalPredicate (h : c ∈ optionalPredicate op column value) :
    c.column = column := by
  rw [optionalPredicate, Option.mem_toList, Option.map_eq_some_iff] at h
  obtain ⟨value, -, rfl⟩ := h
  rfl

theorem column_of_projectPredicate (h : c ∈ projectPredicate projectNames) :
    c.column = .projectName := by
  unfold projectPredicate at h
  split at h
  · cases h
  · rw [List.mem_singleton.1 h]
    rfl

theorem column_of_errorPredicate (h : c ∈ errorPredicate error) : c.column = .status := by
  unfold errorPredicate at h
  split at h
  · cases h
  · rw [List.mem_singleton.1 h]
    rfl
  · rw [List.mem_singleton.1 h]
    rfl

/-- Without a choice of `is_root` no conjunct is about it. -/
theorem column_withRoot_none (h : c ∈ runQueryPredicates (query.withRoot none)) :
    c.column ≠ .isRoot := by
  simp only [runQueryPredicates, List.mem_append, RunQuery.withRoot] at h
  rcases h with (((((((h | h) | h) | h) | h) | h) | h) | h) | h
  · rw [column_of_projectPredicate h]
    intro heq
    cases heq
  · rw [column_of_optionalPredicate h]
    intro heq
    cases heq
  · rw [column_of_optionalPredicate h]
    intro heq
    cases heq
  · rw [column_of_optionalPredicate h]
    intro heq
    cases heq
  · rw [column_of_optionalPredicate h]
    intro heq
    cases heq
  · cases h
  · rw [column_of_errorPredicate h]
    intro heq
    cases heq
  · rw [column_of_optionalPredicate h]
    intro heq
    cases heq
  · rw [column_of_optionalPredicate h]
    intro heq
    cases heq

theorem mem_runQueryPredicates_withRoot {isRoot : Option Bool} :
    c ∈ runQueryPredicates (query.withRoot isRoot) ↔
      c ∈ runQueryPredicates (query.withRoot none) ∨
        ∃ flag ∈ isRoot, c = .compare .eq .isRoot (.boolean flag) := by
  have hroot : c ∈ optionalPredicate .eq .isRoot (isRoot.map Value.boolean) ↔
      ∃ flag ∈ isRoot, c = .compare .eq .isRoot (.boolean flag) := by
    cases isRoot with
    | none => simp [optionalPredicate]
    | some flag => simp [optionalPredicate]
  have hnone : c ∉ optionalPredicate .eq .isRoot (Option.map Value.boolean none) := List.not_mem_nil
  simp only [runQueryPredicates, List.mem_append, RunQuery.withRoot, hroot, hnone, or_false]
  generalize (∃ flag ∈ isRoot, c = .compare .eq .isRoot (.boolean flag)) = choice
  rw [or_right_comm (b := choice), or_right_comm (b := choice), or_right_comm (b := choice)]

/-- A row that says whether it is a root meets the conjuncts with a choice of `is_root` if it meets
the others and says the same. -/
theorem runQueryPredicates_withRoot (rules : TextRules) {row : RunColumn → Value} {flag : Bool}
    (hrow : row .isRoot = .boolean flag) (isRoot : Option Bool) :
    (∀ c ∈ runQueryPredicates (query.withRoot isRoot), c.truth rules row = some true) ↔
      (∀ c ∈ runQueryPredicates (query.withRoot none), c.truth rules row = some true) ∧
        ∀ choice ∈ isRoot, flag = choice := by
  have hchoice : ∀ choice, (Comparison.compare Operator.eq RunColumn.isRoot
      (.boolean choice)).truth rules row = some true ↔ flag = choice := by
    intro choice
    have hflag : Value.boolean flag ≠ .null := nofun
    have hvalue : Value.boolean choice ≠ .null := nofun
    rw [Comparison.truth, hrow, Operator.apply_eq_true hflag hvalue, Value.boolean.injEq]
  constructor
  · intro h
    refine ⟨fun c hc => h c (mem_runQueryPredicates_withRoot.2 (.inl hc)), fun choice hmem => ?_⟩
    exact (hchoice choice).1 (h _ (mem_runQueryPredicates_withRoot.2 (.inr ⟨choice, hmem, rfl⟩)))
  · rintro ⟨hplain, hroot⟩ c hc
    rcases mem_runQueryPredicates_withRoot.1 hc with hc | ⟨choice, hmem, rfl⟩
    · exact hplain c hc
    · exact (hchoice choice).2 (hroot choice hmem)

theorem RunQuery.keeps_iff {rules : TextRules} : query.keeps rules run ↔
    ∀ c ∈ runQueryPredicates query, c.truth rules run.runColumn = some true := by
  rw [RunQuery.keeps, List.all_eq_true]
  exact forall₂_congr fun _ _ => decide_eq_true_iff

theorem RunQuery.keeps_withRoot (rules : TextRules) (isRoot : Option Bool) :
    (query.withRoot isRoot).keeps rules run ↔
      (query.withRoot none).keeps rules run ∧ ∀ choice ∈ isRoot, run.isRoot = choice := by
  rw [RunQuery.keeps_iff, RunQuery.keeps_iff]
  exact runQueryPredicates_withRoot rules rfl isRoot

/-- What a clause asks of a head. -/
theorem plainClauses_holds {db : Db} {segment : TraceSegment} :
    (∀ clause ∈ plainClauses query, clause.holds engine db k head segment) ↔
      (∀ c ∈ runQueryPredicates query, c.truth engine.rules (head.runColumn k) = some true) ∧
      segment.compactedAtUnixNano = none ∧
      (query.includeDeleted = false → db.isLive k head) ∧
      ∀ cutoff ∈ query.retentionCutoffUnixNano, cutoff ≤ head.startTimeUnixNano := by
  have hdeleted : (∀ clause ∈ (if query.includeDeleted then []
      else [HeadClause.notDeleted, HeadClause.notInDeletions]),
        clause.holds engine db k head segment) ↔
      (query.includeDeleted = false → db.isLive k head) := by
    cases query.includeDeleted with
    | true => simp
    | false => simp [HeadClause.holds, Db.isLive]
  have hcutoff : (∀ clause ∈ (query.retentionCutoffUnixNano.map HeadClause.startsFrom).toList,
        clause.holds engine db k head segment) ↔
      ∀ cutoff ∈ query.retentionCutoffUnixNano, cutoff ≤ head.startTimeUnixNano := by
    cases query.retentionCutoffUnixNano with
    | none => simp
    | some cutoff => simp [HeadClause.holds]
  rw [← hdeleted, ← hcutoff]
  simp only [plainClauses, List.forall_mem_append, List.forall_mem_map, List.forall_mem_singleton,
    HeadClause.holds, decide_eq_true_eq, and_assoc]

theorem runHeadWhereSql_eq_ok {formats : FilterFormats} :
    runHeadWhereSql formats query = .ok clauses ↔
      ∃ filters, filterClauses formats query = .ok filters ∧
        clauses = plainClauses query ++ filters := by
  constructor
  · intro h
    obtain ⟨filters, hfilters, h⟩ := bind_eq_ok h
    cases h
    exact ⟨filters, hfilters, rfl⟩
  · rintro ⟨filters, hfilters, rfl⟩
    rw [runHeadWhereSql, hfilters]
    rfl

variable {db : Db} {rows : List (RunKey × RunHead)} {row : RunKey × RunHead}

theorem Db.admits_append {plain filters : List HeadClause} :
    db.admits engine (plain ++ filters) row ↔ ∃ segment,
      db.traceSegments[row.2.lastTraceSegmentId]? = some segment ∧
        (∀ clause ∈ plain, clause.holds engine db row.1 row.2 segment) ∧
        ∀ clause ∈ filters, clause.holds engine db row.1 row.2 segment := by
  rw [Db.admits]
  split
  next hnone => simp [hnone]
  next segment hsegment =>
    simp only [hsegment, Option.some.injEq, exists_eq_left', List.all_eq_true,
      List.forall_mem_append]

/-- A choice of `is_root` admits those of the heads that say the same. -/
theorem Db.admitted_withRoot (h : db.admitted engine (query.withRoot none) = .ok rows)
    (isRoot : Option Bool) :
    db.admitted engine (query.withRoot isRoot) =
      .ok (rows.filter fun row => isRoot.all fun choice => row.2.isRoot = choice) := by
  unfold Db.admitted at h ⊢
  split at h
  next hnames =>
    cases h
    rw [if_pos (show (query.withRoot isRoot).projectNames = [] from hnames)]
    rfl
  next hnames =>
    obtain ⟨clauses, hclauses, h⟩ := bind_eq_ok h
    cases h
    obtain ⟨filters, hfilters, rfl⟩ := runHeadWhereSql_eq_ok.1 hclauses
    have hclauses : runHeadWhereSql engine.formats (query.withRoot isRoot) =
        .ok (plainClauses (query.withRoot isRoot) ++ filters) :=
      runHeadWhereSql_eq_ok.2 ⟨filters, hfilters, rfl⟩
    rw [if_neg (show (query.withRoot isRoot).projectNames ≠ [] from hnames), hclauses,
      List.filter_filter]
    refine congrArg Except.ok (List.filter_congr fun row _ => ?_)
    rw [Bool.eq_iff_iff, Bool.and_eq_true, Db.admits_append, Db.admits_append, Option.all_eq_true]
    simp only [plainClauses_holds, decide_eq_true_eq]
    rw [← exists_and_left]
    refine exists_congr fun segment => ?_
    have hroot : row.2.runColumn row.1 .isRoot = .boolean row.2.isRoot := rfl
    rw [runQueryPredicates_withRoot engine.rules hroot isRoot]
    rw [show (query.withRoot isRoot).includeDeleted = (query.withRoot none).includeDeleted from rfl,
      show (query.withRoot isRoot).retentionCutoffUnixNano =
        (query.withRoot none).retentionCutoffUnixNano from rfl]
    constructor
    · rintro ⟨hsegment, ⟨⟨hplain, hchoice⟩, hrest⟩, hfilter⟩
      exact ⟨hchoice, hsegment, ⟨hplain, hrest⟩, hfilter⟩
    · rintro ⟨hchoice, hsegment, ⟨hplain, hrest⟩, hfilter⟩
      exact ⟨hsegment, ⟨⟨hplain, hchoice⟩, hrest⟩, hfilter⟩

theorem Db.admitted_keys (h : db.admitted engine query = .ok rows) :
    (rows.map Prod.fst).Nodup := by
  unfold Db.admitted at h
  split at h
  · cases h
    exact List.nodup_nil
  · obtain ⟨clauses, -, h⟩ := bind_eq_ok h
    cases h
    have hsub := (List.filter_sublist (p := db.admits engine clauses) (l := db.runHeads.toList)).map
      Prod.fst
    apply hsub.nodup
    rw [List.Nodup, List.pairwise_map]
    apply (Std.TreeMap.ordered_keys_toList (t := db.runHeads)).imp
    intro a b hlt heq
    have hsame : compare b.1 b.1 = .eq := Std.ReflCmp.compare_self
    rw [heq, hsame] at hlt
    cases hlt

/-- What an admitted head meets. -/
theorem Db.mem_admitted (h : db.admitted engine query = .ok rows) (hrow : row ∈ rows) :
    db.runHeads[row.1]? = some row.2 ∧
      (∃ segment, db.traceSegments[row.2.lastTraceSegmentId]? = some segment) ∧
      (∀ c ∈ runQueryPredicates query, c.truth engine.rules (row.2.runColumn row.1) = some true) ∧
      (query.includeDeleted = false → db.isLive row.1 row.2) ∧
      ∀ cutoff ∈ query.retentionCutoffUnixNano, cutoff ≤ row.2.startTimeUnixNano := by
  unfold Db.admitted at h
  split at h
  · cases h
    cases hrow
  · obtain ⟨clauses, hclauses, h⟩ := bind_eq_ok h
    cases h
    obtain ⟨filters, -, rfl⟩ := runHeadWhereSql_eq_ok.1 hclauses
    obtain ⟨hmem, hadmits⟩ := List.mem_filter.1 hrow
    obtain ⟨segment, hsegment, hplain, -⟩ := Db.admits_append.1 hadmits
    obtain ⟨hpredicates, -, hlive, hcutoff⟩ := plainClauses_holds.1 hplain
    exact ⟨Std.TreeMap.mem_toList_iff_getElem?_eq_some.1 hmem, ⟨segment, hsegment⟩, hpredicates,
      hlive, hcutoff⟩

/-- The row of a head with its index. -/
def World.headRow (w : World) (row : RunKey × RunHead) : Option (SpanRecord × Nat) :=
  (w.rowAt row.2.lastTraceSegmentId row.2.lastRowIndex).map fun record =>
    (record, row.2.lastRowIndex)

/-- The candidates of admitted heads are read as the rows that the heads name. -/
theorem World.Consistent.mapM_candidateRow (hw : w.Consistent x)
    (hrows : ∀ row ∈ rows, w.db.runHeads[row.1]? = some row.2 ∧
      ∃ segment, w.db.traceSegments[row.2.lastTraceSegmentId]? = some segment) :
    (rows.filterMap w.db.candidateOf).map RunCandidate.runKey = rows.map Prod.fst ∧
      (rows.filterMap w.db.candidateOf).mapM w.candidateRow =
        some (rows.map w.headRow) := by
  induction rows with
  | nil => exact ⟨rfl, rfl⟩
  | cons row rows ih =>
    obtain ⟨hkeys, hmap⟩ := ih fun other hother => hrows other (List.mem_cons_of_mem _ hother)
    obtain ⟨hk, segment, hsegment⟩ := hrows row List.mem_cons_self
    obtain ⟨record, hrow, -⟩ := hw.row_of_runHeads hk
    obtain ⟨segment', records, hsegment', hobject, hget⟩ := World.rowAt_eq_some.1 hrow
    rw [hsegment] at hsegment'
    cases hsegment'
    have hcandidate : w.db.candidateOf row = some ⟨row.1, segment.uri, row.2.lastRowIndex⟩ := by
      rw [Db.candidateOf, hsegment]
      rfl
    have hread : w.candidateRow ⟨row.1, segment.uri, row.2.lastRowIndex⟩ =
        some (w.headRow row) := by
      simp [World.candidateRow, World.readSegment, hobject, hget, World.headRow, hrow]
    rw [List.filterMap_cons_some hcandidate, List.map_cons, List.mapM_cons, hread, hmap, hkeys]
    exact ⟨rfl, rfl⟩

theorem mem_latestVersions {versions : List (SpanRecord × Nat)}
    (hkeys : (versions.map fun version => version.1.runKey).Nodup) :
    (k, version) ∈ (latestVersions versions).toList ↔
      version ∈ versions ∧ version.1.runKey = k := by
  rw [Std.TreeMap.mem_toList_iff_getElem?_eq_some, latestVersions,
    Table.get_foldl_upsert versions (fun version => version.1.runKey) laterVersion hkeys]

/-- The rows of admitted heads, with their keys. -/
theorem World.Consistent.headRows (hw : w.Consistent x)
    (hrows : ∀ row ∈ rows, w.db.runHeads[row.1]? = some row.2) :
    (rows.filterMap w.headRow).map (fun version => version.1.runKey) = rows.map Prod.fst := by
  induction rows with
  | nil => rfl
  | cons row rows ih =>
    obtain ⟨record, hrow, hkey⟩ := hw.row_of_runHeads (hrows row List.mem_cons_self)
    have hhead : w.headRow row = some (record, row.2.lastRowIndex) := by
      rw [World.headRow, hrow]
      rfl
    rw [List.filterMap_cons_some hhead, List.map_cons, List.map_cons, hkey,
      ih fun other hother => hrows other (List.mem_cons_of_mem _ hother)]

theorem World.content_headRow :
    w.content row.2 = some run ↔ ∃ version, w.headRow row = some version ∧
      RunSummary.ofRecord version.1 = run := by
  rw [World.content_eq_some]
  constructor
  · rintro ⟨record, hrow, hrun⟩
    refine ⟨(record, row.2.lastRowIndex), ?_, hrun⟩
    rw [World.headRow, hrow]
    rfl
  · rintro ⟨version, hversion, hrun⟩
    obtain ⟨record, hrow, rfl⟩ := Option.map_eq_some_iff.1 hversion
    exact ⟨record, hrow, hrun⟩

/-- The last checks of `list_runs` pass for the runs of admitted heads. -/
theorem World.Consistent.admitted_checks (hw : w.Consistent x)
    (hrows : w.db.admitted engine query = .ok rows) (hrow : row ∈ rows)
    (hcontent : w.content row.2 = some run) :
    run.runKey = row.1 ∧ (query.includeDeleted || w.db.runDeletions[run.runKey]?.isNone) ∧
      runMatchesRetentionFilter run query := by
  obtain ⟨hk, -, -, hlive, hcutoff⟩ := Db.mem_admitted hrows hrow
  have hkey : run.runKey = row.1 := hw.content_key (Db.head_of_runHeads hk) hcontent
  refine ⟨hkey, ?_, ?_⟩
  · rw [hkey]
    cases hdeleted : query.includeDeleted with
    | true => rfl
    | false => exact (Bool.and_eq_true _ _ ▸ hlive hdeleted).2
  · have hstart := hw.runColumn_eq hk hcontent .startTimeUnixNano nofun
    replace hstart : row.2.startTimeUnixNano = run.startTimeUnixNano := Value.integer.inj hstart
    rw [runMatchesRetentionFilter, Option.all_eq_true]
    intro cutoff hmem
    exact decide_eq_true (hstart ▸ hcutoff cutoff hmem)

/-- Without a limit a query gives the admitted runs whose rows it keeps. -/
theorem World.Consistent.queryRuns_unlimited (hw : w.Consistent x)
    (hsearch : query.searchPredicate engine.formats = .ok none)
    (hrows : w.db.admitted engine query = .ok rows) (hlimit : query.limit = none)
    (hoffset : query.offset = none) :
    ∃ runs, w.queryRuns engine query = some runs ∧ runs.Nodup ∧ ∀ run, run ∈ runs ↔
      ∃ row ∈ rows, w.content row.2 = some run ∧ query.keeps engine.rules run := by
  have hperm := List.perm_insertionSort query.candidateBefore rows
  have hnone : query.candidateLimit none = none := by
    rw [RunQuery.candidateLimit, hlimit]
    rfl
  have hplan : w.db.runQueryPlan engine query =
      some ((rows.insertionSort query.candidateBefore).filterMap w.db.candidateOf) := by
    rw [Db.runQueryPlan, hrows, hsearch]
    change some ((takeLimit (query.candidateLimit none) _).filterMap _) = _
    rw [hnone]
    rfl
  have hsorted : ∀ row ∈ rows.insertionSort query.candidateBefore, row ∈ rows :=
    fun row hrow => hperm.mem_iff.1 hrow
  have hkeys := (hperm.map Prod.fst).nodup_iff.2 (Db.admitted_keys hrows)
  generalize rows.insertionSort query.candidateBefore = sorted at *
  have hmem := fun row hrow => Db.mem_admitted hrows (hsorted row hrow)
  obtain ⟨hcandidates, hread⟩ :=
    hw.mapM_candidateRow fun row hrow => ⟨(hmem row hrow).1, (hmem row hrow).2.1⟩
  have hversions : ∀ version, version ∈ sorted.filterMap w.headRow ↔
      ∃ row ∈ rows, w.headRow row = some version := by
    intro version
    rw [List.mem_filterMap]
    simp only [hperm.mem_iff]
  rw [← hw.headRows fun row hrow => (hmem row hrow).1] at hkeys
  let shown := ((latestVersions (sorted.filterMap w.headRow)).toList.map fun version =>
    RunSummary.ofRecord version.2.1).filter (query.keeps engine.rules)
  have hshown : ∀ run, run ∈ shown ↔
      ∃ row ∈ rows, w.content row.2 = some run ∧ query.keeps engine.rules run := by
    intro run
    rw [List.mem_filter, List.mem_map]
    constructor
    · rintro ⟨⟨⟨k, version⟩, hversion, hrun⟩, hkeeps⟩
      obtain ⟨row, hrow, hread⟩ := (hversions version).1 ((mem_latestVersions hkeys).1 hversion).1
      exact ⟨row, hrow, World.content_headRow.2 ⟨version, hread, hrun⟩, hkeeps⟩
    · rintro ⟨row, hrow, hcontent, hkeeps⟩
      obtain ⟨version, hread, hrun⟩ := World.content_headRow.1 hcontent
      exact ⟨⟨(_, version), (mem_latestVersions hkeys).2
        ⟨(hversions version).2 ⟨row, hrow, hread⟩, rfl⟩, hrun⟩, hkeeps⟩
  have hnodup : shown.Nodup := by
    apply List.Nodup.filter
    rw [List.Nodup, List.pairwise_map]
    apply (Std.TreeMap.ordered_keys_toList (t := latestVersions _)).imp_of_mem
    rintro ⟨k, version⟩ ⟨k', version'⟩ hversion hversion' hlt heq
    have hk := ((mem_latestVersions hkeys).1 hversion).2
    have hk' := ((mem_latestVersions hkeys).1 hversion').2
    replace heq : version.1.runKey = version'.1.runKey := congrArg RunSummary.runKey heq
    have hsame : compare k' k' = .eq := Std.ReflCmp.compare_self
    rw [← hk, ← hk', heq, hk', hsame] at hlt
    cases hlt
  refine ⟨shown.insertionSort query.before, ?_,
    (List.perm_insertionSort _ _).nodup_iff.2 hnodup, fun run => ?_⟩
  · have hchecks : ∀ run ∈ shown.insertionSort query.before,
        (decide (run.runKey ∈ sorted.map Prod.fst) &&
          (query.includeDeleted || w.db.runDeletions[run.runKey]?.isNone) &&
          runMatchesRetentionFilter run query) = true := by
      intro run hrun
      obtain ⟨row, hrow, hcontent, -⟩ := (hshown run).1 ((List.mem_insertionSort _).1 hrun)
      obtain ⟨hkey, hdeleted, hretention⟩ := hw.admitted_checks hrows hrow hcontent
      rw [hdeleted, hretention, hkey, Bool.and_true, Bool.and_true, decide_eq_true_eq]
      exact List.mem_map_of_mem (hperm.mem_iff.2 hrow)
    rw [World.queryRuns, hplan]
    simp only [Option.bind_eq_bind, Option.bind_some, hread, hcandidates, List.filterMap_map,
      Function.id_comp, hlimit, hoffset, Option.getD_none, List.drop_zero, takeLimit,
      Option.pure_def]
    exact congrArg some (List.filter_eq_self.2 hchecks)
  · rw [List.mem_insertionSort, hshown]

/-- The flag `is_root` of the head says whether its run names a parent: of a live run because the
tree has the parent, of a deleted one because the head still says so. -/
def Db.rootShown (db : Db) (row : RunKey × RunHead) : Prop :=
  if db.isLive row.1 row.2 then row.2.parentSpanId.isSome → db.hasTreeParent row.1 row.2
  else row.2.isRoot = row.2.parentSpanId.isNone

theorem Db.Fresh.rootShown_iff (hdb : db.Fresh) (hk : db.runHeads[row.1]? = some row.2) :
    db.rootShown row ↔ row.2.isRoot = row.2.parentSpanId.isNone := by
  unfold Db.rootShown
  split
  next hlive =>
    have hfresh := hdb row.1 row.2 (Db.liveHead_eq_some.2 ⟨hk, hlive⟩) List.not_mem_nil
    have hparent : db.hasTreeParent row.1 row.2 → row.2.parentSpanId.isSome := by
      rintro ⟨parent, hparent, -⟩
      rw [hparent]
      rfl
    rw [← hfresh] at hparent ⊢
    cases hroot : row.2.isRoot with
    | false =>
      rw [Option.isSome_iff_ne_none] at hparent
      cases hspan : row.2.parentSpanId with
      | none => exact absurd hspan (hparent hroot)
      | some parent => simp
    | true =>
      cases row.2.parentSpanId with
      | none => simp
      | some parent => simp
  next => rfl

/-- Every run that the plan of the query admits meets the query on its segment row. -/
def World.keepsAdmitted (engine : QueryEngine) (w : World) (query : RunQuery) : Prop :=
  ∃ rows, w.db.admitted engine query = .ok rows ∧
    ∀ row ∈ rows, ∃ run, w.content row.2 = some run ∧ query.keeps engine.rules run

/-- The roots and the others that a query finds are together what it finds without a choice. -/
def World.partitionsByRoot (engine : QueryEngine) (w : World) (query : RunQuery) : Prop :=
  ∃ all roots others, w.queryRuns engine (query.withRoot none) = some all ∧
    w.queryRuns engine (query.withRoot (some true)) = some roots ∧
    w.queryRuns engine (query.withRoot (some false)) = some others ∧ all.Perm (roots ++ others)

theorem World.Consistent.admitted_content (hw : w.Consistent x)
    (hrows : w.db.admitted engine (query.withRoot none) = .ok rows) (hrow : row ∈ rows) :
    ∃ run, w.content row.2 = some run ∧ (query.withRoot none).keeps engine.rules run ∧
      run.isRoot = row.2.parentSpanId.isNone := by
  obtain ⟨hk, -, hpredicates, -⟩ := Db.mem_admitted hrows hrow
  obtain ⟨record, -, hcontent⟩ := hw.content_isSome (Db.head_of_runHeads hk)
  refine ⟨_, hcontent, RunQuery.keeps_iff.2 fun c hc => ?_, hw.isRoot_content hk hcontent⟩
  rw [← hpredicates c hc]
  exact (Comparison.truth_congr c
    (hw.runColumn_eq hk hcontent c.column (column_withRoot_none hc))).symm

theorem World.keepsAdmitted_of_isRoot (hw : w.Consistent x)
    (hrows : w.db.admitted engine (query.withRoot none) = .ok rows)
    (hroots : ∀ row ∈ rows, row.2.isRoot = row.2.parentSpanId.isNone) (isRoot : Option Bool) :
    w.keepsAdmitted engine (query.withRoot isRoot) := by
  refine ⟨_, Db.admitted_withRoot hrows isRoot, fun row hrow => ?_⟩
  obtain ⟨hrow, hchoice⟩ := List.mem_filter.1 hrow
  obtain ⟨run, hcontent, hkeeps, hroot⟩ := hw.admitted_content hrows hrow
  refine ⟨run, hcontent, (RunQuery.keeps_withRoot _ _).2 ⟨hkeeps, fun choice hmem => ?_⟩⟩
  rw [hroot, ← hroots row hrow]
  exact of_decide_eq_true ((Option.all_eq_true _ _).1 hchoice choice hmem)

theorem World.Consistent.queryRuns_withRoot (hw : w.Consistent x)
    (hsearch : query.searchPredicate engine.formats = .ok none)
    (hrows : w.db.admitted engine (query.withRoot none) = .ok rows) (isRoot : Option Bool) :
    ∃ runs, w.queryRuns engine (query.unlimited.withRoot isRoot) = some runs ∧ runs.Nodup ∧
      ∀ run, run ∈ runs ↔ ∃ row ∈ rows, w.content row.2 = some run ∧
        ∀ choice ∈ isRoot, row.2.isRoot = choice ∧ run.isRoot = choice := by
  have hadmitted : w.db.admitted engine (query.unlimited.withRoot isRoot) =
      .ok (rows.filter fun row => isRoot.all fun choice => row.2.isRoot = choice) :=
    Db.admitted_withRoot hrows isRoot
  replace hsearch : (query.unlimited.withRoot isRoot).searchPredicate engine.formats = .ok none :=
    hsearch
  obtain ⟨runs, hruns, hnodup, hmem⟩ := hw.queryRuns_unlimited hsearch hadmitted rfl rfl
  refine ⟨runs, hruns, hnodup, fun run => ?_⟩
  rw [hmem]
  constructor
  · rintro ⟨row, hrow, hcontent, hkeeps⟩
    obtain ⟨hrow, hchoice⟩ := List.mem_filter.1 hrow
    refine ⟨row, hrow, hcontent, fun choice hmem => ⟨?_, ?_⟩⟩
    · exact of_decide_eq_true ((Option.all_eq_true _ _).1 hchoice choice hmem)
    · exact ((RunQuery.keeps_withRoot engine.rules isRoot).1 hkeeps).2 choice hmem
  · rintro ⟨row, hrow, hcontent, hchoice⟩
    obtain ⟨run', hcontent', hkeeps, -⟩ := hw.admitted_content hrows hrow
    rw [hcontent] at hcontent'
    cases hcontent'
    refine ⟨row, List.mem_filter.2 ⟨hrow, (Option.all_eq_true _ _).2 fun choice hmem =>
      decide_eq_true (hchoice choice hmem).1⟩, hcontent, ?_⟩
    exact (RunQuery.keeps_withRoot engine.rules isRoot).2
      ⟨hkeeps, fun choice hmem => (hchoice choice hmem).2⟩

/-- Queries for roots and for others partition the runs exactly if the heads of all of them say
whether they name a parent. -/
theorem World.partitionsByRoot_iff (hw : w.Consistent x)
    (hsearch : query.searchPredicate engine.formats = .ok none)
    (hrows : w.db.admitted engine (query.withRoot none) = .ok rows) :
    w.partitionsByRoot engine query.unlimited ↔
      ∀ row ∈ rows, row.2.isRoot = row.2.parentSpanId.isNone := by
  obtain ⟨all, hall, hallNodup, hallMem⟩ := hw.queryRuns_withRoot hsearch hrows none
  obtain ⟨roots, hroots, hrootsNodup, hrootsMem⟩ := hw.queryRuns_withRoot hsearch hrows (some true)
  obtain ⟨others, hothers, hothersNodup, hothersMem⟩ :=
    hw.queryRuns_withRoot hsearch hrows (some false)
  simp only [Option.mem_def, Option.some.injEq, forall_eq', reduceCtorEq, false_implies,
    implies_true, and_true] at hallMem hrootsMem hothersMem
  have hflag : ∀ row ∈ rows, ∀ run, w.content row.2 = some run →
      run.isRoot = row.2.parentSpanId.isNone := by
    intro row hrow run hcontent
    obtain ⟨run', hcontent', -, hroot⟩ := hw.admitted_content hrows hrow
    rw [hcontent] at hcontent'
    cases hcontent'
    exact hroot
  constructor
  · rintro ⟨all', roots', others', hall', hroots', hothers', hperm⟩ row hrow
    rw [hall] at hall'
    rw [hroots] at hroots'
    rw [hothers] at hothers'
    cases hall'
    cases hroots'
    cases hothers'
    obtain ⟨run, hcontent, -, hroot⟩ := hw.admitted_content hrows hrow
    -- A run comes from one head only.
    have hsame : ∀ other ∈ rows, w.content other.2 = some run → other.2 = row.2 := by
      intro other hother hcontent'
      obtain ⟨hk, -⟩ := Db.mem_admitted hrows hrow
      obtain ⟨hk', -⟩ := Db.mem_admitted hrows hother
      have hkey := hw.content_key (Db.head_of_runHeads hk) hcontent
      rw [hw.content_key (Db.head_of_runHeads hk') hcontent'] at hkey
      rw [hkey, hk] at hk'
      exact (Option.some.inj hk').symm
    rcases List.mem_append.1 (hperm.mem_iff.1 ((hallMem run).2 ⟨row, hrow, hcontent⟩)) with h | h
    · obtain ⟨other, hother, hcontent', hhead, hrun⟩ := (hrootsMem run).1 h
      rw [← hroot, hrun, ← hsame other hother hcontent', hhead]
    · obtain ⟨other, hother, hcontent', hhead, hrun⟩ := (hothersMem run).1 h
      rw [← hroot, hrun, ← hsame other hother hcontent', hhead]
  · intro hagree
    refine ⟨all, roots, others, hall, hroots, hothers, ?_⟩
    have hdisjoint : ∀ run ∈ roots, ∀ other ∈ others, run ≠ other := by
      rintro run hrun _ hother rfl
      obtain ⟨-, -, -, -, htrue⟩ := (hrootsMem run).1 hrun
      obtain ⟨-, -, -, -, hfalse⟩ := (hothersMem run).1 hother
      rw [htrue] at hfalse
      cases hfalse
    apply (List.perm_ext_iff_of_nodup hallNodup
      (List.nodup_append.2 ⟨hrootsNodup, hothersNodup, hdisjoint⟩)).2
    intro run
    rw [List.mem_append, hallMem, hrootsMem, hothersMem]
    constructor
    · rintro ⟨row, hrow, hcontent⟩
      have hrun := hflag row hrow run hcontent
      rw [← hagree row hrow] at hrun
      cases hroot : row.2.isRoot with
      | true => exact .inl ⟨row, hrow, hcontent, hroot, hrun.trans hroot⟩
      | false => exact .inr ⟨row, hrow, hcontent, hroot, hrun.trans hroot⟩
    · rintro (⟨row, hrow, hcontent, -⟩ | ⟨row, hrow, hcontent, -⟩)
      · exact ⟨row, hrow, hcontent⟩
      · exact ⟨row, hrow, hcontent⟩

/-- In every reachable store the plan of a query and its segment rows agree on the runs, and
choosing `is_root` partitions them, exactly if no run that the query selects otherwise is an orphan
or on a cycle of parents. -/
theorem System.root_filter_exact {s : System}
    (h : Transition.run (System.step x maxSpansPerSegment) .initial actions = some s)
    (hsearch : query.searchPredicate engine.formats = .ok none)
    (hrows : s.world.db.admitted engine (query.withRoot none) = .ok rows) :
    (s.world.keepsAdmitted engine query ∧ s.world.partitionsByRoot engine query.unlimited) ↔
      ∀ row ∈ rows, s.world.db.rootShown row := by
  have hw : s.world.Consistent x := Transition.run_invariant_of_step
    (fun s : System => s.world.Consistent x)
    (World.Consistent.step x maxSpansPerSegment) (.empty x) h
  have hshown : ∀ row ∈ rows, s.world.db.rootShown row ↔
      row.2.isRoot = row.2.parentSpanId.isNone := fun row hrow =>
    (System.fresh h).rootShown_iff (Db.mem_admitted hrows hrow).1
  rw [World.partitionsByRoot_iff hw hsearch hrows, forall₂_congr hshown, and_iff_right_iff_imp]
  intro hroots
  exact World.keepsAdmitted_of_isRoot hw hrows hroots query.isRoot

def QueryEngine.sample : QueryEngine where
  formats := ⟨fun _ => "", fun _ => none, fun _ => none, fun _ => 0, fun _ => none⟩
  rules := ⟨fun left right => left < right, toAsciiLowercase⟩
  tables := ⟨fun _ => [], fun _ => [], []⟩
  searchCandidates _ := some

/-- Ingest a run that names a parent. -/
def ingestChild (parentSpanId : String) : List Action :=
  [.ingest ⟨"p", 0⟩ ⟨1, 1⟩
    [{ SpanRecord.sample "t" "s" "n" .«end» 10 30 with parentSpanId := some parentSpanId }] none]

theorem System.root_filter_exact_sample :
    ∃ s rows, Transition.run (System.step .sample 1) .initial
        [.ingest ⟨"p", 0⟩ ⟨1, 1⟩ [.sample "t" "s" "n" .«end» 10 30] none] = some s ∧
      s.world.db.admitted .sample ((RunQuery.new "p").withRoot none) = .ok rows ∧
      rows.length = 1 ∧
      ((s.world.keepsAdmitted .sample ((RunQuery.new "p").withRoot (some true)) ∧
        s.world.partitionsByRoot .sample
          ((RunQuery.new "p").withRoot (some true)).unlimited) ↔
        ∀ row ∈ rows, s.world.db.rootShown row) := by
  have hrun : (Transition.run (System.step .sample 1) .initial
      [.ingest ⟨"p", 0⟩ ⟨1, 1⟩ [.sample "t" "s" "n" .«end» 10 30] none]).map
      (fun s => (s.world.db.admitted .sample ((RunQuery.new "p").withRoot none)).toOption.map
        List.length) = some (some 1) := by
    decide +kernel
  obtain ⟨s, hs, hrows⟩ := Option.map_eq_some_iff.1 hrun
  obtain ⟨rows, hrows, hlength⟩ := Option.map_eq_some_iff.1 hrows
  have hrows : s.world.db.admitted .sample ((RunQuery.new "p").withRoot none) = .ok rows := by
    cases hadmitted : s.world.db.admitted .sample ((RunQuery.new "p").withRoot none) with
    | error e =>
      rw [hadmitted] at hrows
      cases hrows
    | ok found =>
      rw [hadmitted] at hrows
      exact congrArg Except.ok (Option.some.inj hrows)
  exact ⟨s, rows, hs, hrows, hlength, System.root_filter_exact hs rfl hrows⟩

/-- A run whose parent is not there is a root in its head and none on its row: neither choice of
`is_root` finds it. -/
theorem System.root_filter_loses_orphans :
    ∃ s, Transition.run (System.step .sample 1) .initial (ingestChild "missing") = some s ∧
      ¬ s.world.keepsAdmitted .sample ((RunQuery.new "p").withRoot (some true)) ∧
      (s.world.queryRuns .sample ((RunQuery.new "p").withRoot none)).map List.length = some 1 ∧
      s.world.queryRuns .sample ((RunQuery.new "p").withRoot (some true)) = some [] ∧
      s.world.queryRuns .sample ((RunQuery.new "p").withRoot (some false)) = some [] := by
  have hrun : (Transition.run (System.step .sample 1) .initial (ingestChild "missing")).map
      (fun s => ((s.world.db.admitted .sample ((RunQuery.new "p").withRoot (some true))).toOption.map
          fun rows => rows.any fun row => (s.world.content row.2).any fun run =>
            !((RunQuery.new "p").withRoot (some true)).keeps QueryEngine.sample.rules run,
        (s.world.queryRuns .sample ((RunQuery.new "p").withRoot none)).map List.length,
        s.world.queryRuns .sample ((RunQuery.new "p").withRoot (some true)),
        s.world.queryRuns .sample ((RunQuery.new "p").withRoot (some false)))) =
      some (some true, some 1, some [], some []) := by
    decide +kernel
  obtain ⟨s, hs, hfacts⟩ := Option.map_eq_some_iff.1 hrun
  obtain ⟨hdropped, hfacts⟩ := Prod.mk.inj hfacts
  refine ⟨s, hs, ?_, (Prod.mk.inj hfacts).1, (Prod.mk.inj (Prod.mk.inj hfacts).2).1,
    (Prod.mk.inj (Prod.mk.inj hfacts).2).2⟩
  rintro ⟨rows, hrows, hkeeps⟩
  rw [hrows] at hdropped
  obtain ⟨row, hrow, hany⟩ := List.any_eq_true.1 (Option.some.inj hdropped)
  obtain ⟨run, hcontent, hkeep⟩ := hkeeps row hrow
  rw [hcontent, Option.any_some, hkeep] at hany
  cases hany

end KevinDb
