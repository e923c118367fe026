import KevinDb.Lib.Paging
import KevinDb.Query.Segments

namespace KevinDb
set_option autoImplicit true
open Sql

/-- The query for a page of a query. -/
def RunQuery.pageAt (query : RunQuery) (n m : Nat) : RunQuery :=
  { query with limit := some n, offset := some (m * n) }

/-- A result of `list_runs` for a query without search. -/
def World.ListResult (engine : QueryEngine) (w : World) (query : RunQuery)
    (runs : List RunSummary) : Prop :=
  ∃ segments, w.db.PlanResult engine query segments ∧ w.ListRuns engine.rules query segments runs

/-- The run that a query shows for an admitted head. -/
def World.matchingRun (engine : QueryEngine) (w : World) (query : RunQuery)
    (row : RunKey × RunHead) : Option RunSummary :=
  (w.content row.2).filter (query.keeps engine.rules)

section paging

variable {x : Externals} {engine : QueryEngine} {w : World} {query : RunQuery} {n m : Nat}
  {rows heads o : List (RunKey × RunHead)} {row : RunKey × RunHead} {run : RunSummary}
  {segment : SegmentSource} {segments : List SegmentSource} {keys : List RunKey}
  {rules : TextRules}

theorem World.filterMap_matchingRun :
    heads.filterMap (w.matchingRun engine query) =
      (heads.filterMap fun row => w.content row.2).filter (query.keeps engine.rules) := by
  rw [← List.filterMap_eq_filter, List.filterMap_filterMap]
  apply List.filterMap_congr
  intro row _
  rw [World.matchingRun]
  cases w.content row.2 with
  | none => rfl
  | some run => rfl

theorem World.matchingRun_eq_some : w.matchingRun engine query row = some run ↔
    w.content row.2 = some run ∧ query.keeps engine.rules run := by
  rw [World.matchingRun, Option.filter_eq_some_iff]

theorem World.ListRuns.of_segmentsResult (hplan : w.IsPlan rules query segments)
    {runs : List RunSummary}
    (h : w.SegmentsResult rules query (candidateRunKeys segments) segments runs) :
    w.ListRuns rules query segments runs := by
  refine ⟨runs, h, (List.filter_eq_self.2 fun run hrun => hplan.shows run ?_).symm⟩
  obtain ⟨ordered, harranges, rfl⟩ := h.arranges hplan.names hplan.length_lt
  exact harranges.perm.mem_iff.1 (List.mem_of_mem_drop ((takeLimit_sublist _ _).subset hrun))

/-- Results of batches in the form of cut parts. -/
theorem World.Names.parts_of_results (hnames : w.Names segments) {results : List (List RunSummary)}
    {batches : List (List SegmentSource)} {limit : Nat} (hlimit : query.limit = some limit)
    (hbatches : batches.flatten = segments)
    (h : List.Forall₂ (w.BatchResult rules query keys) batches results) :
    List.Forall₂ (fun part result => ∃ l, Arranges query.before part l ∧ result = l.take limit)
      (batches.map fun batch => w.keptRuns rules query
        (batch.flatMap SegmentSource.candidates)) results := by
  rw [List.forall₂_map_left_iff]
  rw [List.forall₂_iff_zip] at h ⊢
  refine ⟨h.1, fun {batch result} hmem => ?_⟩
  have hsub : batch.Sublist segments := by
    rw [← hbatches]
    exact List.sublist_flatten_of_mem (List.of_mem_zip hmem).1
  obtain ⟨ordered, harranges, rfl⟩ := (h.2 hmem).arranges (hnames.of_sublist hsub)
  rw [hlimit]
  exact ⟨ordered, harranges, rfl⟩

/-- Batches can be read with a run of the first segment before all its ties. -/
theorem World.Names.exists_first (hnames : w.Names (segment :: segments)) {limit : Nat}
    (hlimit : query.limit = some limit)
    (hrun : run ∈ w.keptRuns rules query segment.candidates)
    (hrank : rank query.before (w.keptRuns rules query
      ((segment :: segments).flatMap SegmentSource.candidates)) run < limit) :
    ∃ results before after, List.Forall₂ (w.BatchResult rules query keys)
        (chunks maxDatafusionSegmentsPerBatch (segment :: segments)) results ∧
      results.flatten = before ++ run :: after ∧ ∀ other ∈ before, ¬ query.before run other := by
  obtain ⟨chunk, rest, hchunks⟩ :=
    chunks_cons (by decide : 0 < maxDatafusionSegmentsPerBatch) segment segments
  have hflatten := flatten_chunks (by decide : 0 < maxDatafusionSegmentsPerBatch)
    (segment :: segments)
  rw [hchunks, List.flatten_cons] at hflatten
  rw [hchunks]
  have hsub : (segment :: chunk).Sublist (segment :: segments) := by
    rw [← hflatten]
    exact List.sublist_append_left _ _
  have hrest : rest.flatten.Sublist (segment :: segments) := by
    rw [← hflatten]
    exact List.sublist_append_right _ _
  obtain ⟨found, hfound, hperm⟩ := World.batchRuns_perm rules query keys (hnames.of_sublist hsub)
  have hmem : run ∈ found := by
    rw [hperm.mem_iff, List.flatMap_cons]
    exact World.keptRuns_subset (List.subset_append_left _ _) hrun
  obtain ⟨before, after, harranges, hfirst⟩ := exists_arranges_first (r := query.before) hmem
  obtain ⟨results, hresults⟩ := exists_forall₂ (R := w.BatchResult rules query keys)
    (l := rest) fun batch hbatch => by
      obtain ⟨found, hfound, -⟩ := World.batchRuns_perm rules query keys
        (hnames.of_sublist ((List.sublist_flatten_of_mem hbatch).trans hrest))
      exact ⟨_, found, _, hfound, Arranges.insertionSort found, rfl⟩
  have hlength : before.length < limit := by
    refine lt_of_le_of_lt ?_ hrank
    calc before.length
      _ ≤ rank query.before (before ++ run :: after) run := length_le_rank hfirst
      _ = rank query.before (w.keptRuns rules query
          ((segment :: chunk).flatMap SegmentSource.candidates)) run := by
        rw [rank_perm harranges.perm, rank_perm hperm]
      _ ≤ _ := rank_sublist (World.keptRuns_sublist (hsub.flatMap _)) run
  obtain ⟨after', htake, -⟩ := take_append_cons run after hlength
  refine ⟨takeLimit query.limit (before ++ run :: after) :: results, before,
    after' ++ results.flatten, .cons ⟨found, _, hfound, harranges, rfl⟩ hresults, ?_, hfirst⟩
  rw [List.flatten_cons, hlimit, takeLimit, htake, List.append_assoc, List.cons_append]

/-- Batches can be read with a run of the last segment behind all its ties. -/
theorem World.Names.exists_last (hnames : w.Names (segments ++ [segment])) {limit : Nat}
    (hlimit : query.limit = some limit)
    (hrun : run ∈ w.keptRuns rules query segment.candidates)
    (hrank : rankEnd query.before (w.keptRuns rules query
      ((segments ++ [segment]).flatMap SegmentSource.candidates)) run ≤ limit) :
    ∃ results before after, List.Forall₂ (w.BatchResult rules query keys)
        (chunks maxDatafusionSegmentsPerBatch (segments ++ [segment])) results ∧
      results.flatten = before ++ run :: after ∧ ∀ other ∈ after, ¬ query.before other run := by
  obtain ⟨chunk, rest, hchunks⟩ :=
    chunks_concat (by decide : 0 < maxDatafusionSegmentsPerBatch) segments segment
  have hflatten := flatten_chunks (by decide : 0 < maxDatafusionSegmentsPerBatch)
    (segments ++ [segment])
  rw [hchunks, List.flatten_append, List.flatten_singleton] at hflatten
  rw [hchunks]
  have hsub : (chunk ++ [segment]).Sublist (segments ++ [segment]) := by
    rw [← hflatten]
    exact List.sublist_append_right _ _
  have hrest : rest.flatten.Sublist (segments ++ [segment]) := by
    rw [← hflatten]
    exact List.sublist_append_left _ _
  obtain ⟨found, hfound, hperm⟩ := World.batchRuns_perm rules query keys (hnames.of_sublist hsub)
  have hmem : run ∈ found := by
    rw [hperm.mem_iff, List.flatMap_append, List.flatMap_singleton]
    exact World.keptRuns_subset (List.subset_append_right _ _) hrun
  obtain ⟨before, after, harranges, hlast⟩ := exists_arranges_last (r := query.before) hmem
  obtain ⟨results, hresults⟩ := exists_forall₂ (R := w.BatchResult rules query keys)
    (l := rest) fun batch hbatch => by
      obtain ⟨found, hfound, -⟩ := World.batchRuns_perm rules query keys
        (hnames.of_sublist ((List.sublist_flatten_of_mem hbatch).trans hrest))
      exact ⟨_, found, _, hfound, Arranges.insertionSort found, rfl⟩
  have hlength : before.length < limit := by
    have hget : (before ++ run :: after)[before.length]? = some run := by simp
    calc before.length
      _ < rankEnd query.before (before ++ run :: after) run :=
        (rank_le_index harranges.sorted hget).2
      _ = rankEnd query.before (w.keptRuns rules query
          ((chunk ++ [segment]).flatMap SegmentSource.candidates)) run := by
        rw [rankEnd_perm harranges.perm, rankEnd_perm hperm]
      _ ≤ _ := rankEnd_sublist (World.keptRuns_sublist (hsub.flatMap _)) run
      _ ≤ limit := hrank
  obtain ⟨after', htake, hafter⟩ := take_append_cons run after hlength
  refine ⟨results ++ [takeLimit query.limit (before ++ run :: after)],
    results.flatten ++ before, after', ?_, ?_, fun other hother => hlast other (hafter hother)⟩
  · exact List.rel_append hresults (.cons ⟨found, _, hfound, harranges, rfl⟩ .nil)
  · rw [List.flatten_append, List.flatten_singleton, hlimit, takeLimit, htake, List.append_assoc]

/-- The candidates of a page stay within its end, which does not saturate for a vector. -/
theorem takeLimit_pageAt {rows : List ρ} (hlength : rows.length < 2 ^ 64) (hn : 0 < n) :
    takeLimit ((query.pageAt n m).candidateLimit none) rows = rows.take (m * n + n) := by
  have hpos : 0 < min (2 ^ 64 - 1) (n + m * n) := by omega
  have hlimit : (query.pageAt n m).candidateLimit none = some (min (2 ^ 64 - 1) (n + m * n)) := by
    change (some (min (2 ^ 64 - 1) (n + m * n))).filter (fun limit => 0 < limit) = _
    rw [Option.filter_some, decide_eq_true hpos]
    rfl
  rw [hlimit, takeLimit, Nat.add_comm (m * n)]
  rcases Nat.le_total (n + m * n) (2 ^ 64 - 1) with hle | hle
  · rw [Nat.min_eq_right hle]
  · rw [Nat.min_eq_left hle, List.take_of_length_le (by omega), List.take_of_length_le (by omega)]

/-- The segments of the first candidates of a page, in any order. -/
theorem World.Consistent.pagePlan (hw : w.Consistent x)
    (hsearch : query.searchPredicate engine.formats = .ok none)
    (hrows : w.db.admitted engine query = .ok rows) (hlength : rows.length < 2 ^ 64)
    (hn : 0 < n) (ho : Arranges query.candidateBefore rows o)
    (hsegments : segments.Perm
      (segmentSources ((o.take (m * n + n)).filterMap w.db.candidateOf))) :
    w.db.PlanResult engine (query.pageAt n m) segments ∧
      w.IsPlan engine.rules (query.pageAt n m) segments ∧
      (w.keptRuns engine.rules query (segments.flatMap SegmentSource.candidates)).Perm
        (shownOf (w.matchingRun engine query) n m o) := by
  have hadmitted : w.db.admitted engine (query.pageAt n m) = .ok rows := hrows
  have hsub : (o.take (m * n + n)).Subperm rows :=
    (List.take_sublist _ _).subperm.trans ho.perm.subperm
  have hcandidates : (segments.flatMap SegmentSource.candidates).Perm
      ((o.take (m * n + n)).filterMap w.db.candidateOf) :=
    (hsegments.flatMap_right _).trans (segmentSources_candidates _)
  refine ⟨⟨rows, none, o, hadmitted, hsearch, ho, ?_⟩, ?_, ?_⟩
  · rwa [takeLimit_pageAt (ho.perm.length_eq.trans_lt hlength) hn]
  · apply hw.isPlan hadmitted hlength hsub _ hcandidates
    intro segment hsegment
    exact segmentSources_nonempty segment (hsegments.mem_iff.1 hsegment)
  · rw [shownOf, World.filterMap_matchingRun,
      ← hw.keptRuns_heads hrows fun row hrow => hsub.subset hrow]
    exact World.keptRuns_perm hcandidates

theorem RunQuery.batchLimit_pageAt : (query.pageAt n m).batchQuery.limit =
    some (min (2 ^ 64 - 1) (n + m * n)) :=
  rfl

/-- A page of a listing is a page of an order of what its first candidates give. -/
theorem World.Consistent.page_arranges (hw : w.Consistent x)
    (hsearch : query.searchPredicate engine.formats = .ok none)
    (hrows : w.db.admitted engine query = .ok rows) (hlength : rows.length < 2 ^ 64)
    (hn : 0 < n) {runs : List RunSummary} (h : w.ListResult engine (query.pageAt n m) runs) :
    ∃ o ordered, Arranges query.candidateBefore rows o ∧
      Arranges query.before (shownOf (w.matchingRun engine query) n m o) ordered ∧
      runs = (ordered.drop (m * n)).take n := by
  obtain ⟨segments, ⟨rows', predicate, o, hrows', hsearch', ho, hsegments⟩, hruns⟩ := h
  obtain rfl : rows = rows' := Except.ok.inj (hrows.symm.trans hrows')
  obtain rfl : none = predicate := Except.ok.inj (hsearch.symm.trans hsearch')
  rw [takeLimit_pageAt (ho.perm.length_eq.trans_lt hlength) hn] at hsegments
  obtain ⟨-, hplan, hperm⟩ := hw.pagePlan hsearch hrows hlength hn ho hsegments
  obtain ⟨ordered, harranges, rfl⟩ := hruns.arranges hplan
  exact ⟨o, ordered, ho, ⟨harranges.perm.trans hperm, harranges.sorted⟩, rfl⟩

/-- Any results of the batches of a page's segments give a result of the page. -/
theorem World.Consistent.page_of_results (hw : w.Consistent x)
    (hsearch : query.searchPredicate engine.formats = .ok none)
    (hrows : w.db.admitted engine query = .ok rows) (hlength : rows.length < 2 ^ 64)
    (hn : 0 < n) (ho : Arranges query.candidateBefore rows o)
    (hsegments : segments.Perm
      (segmentSources ((o.take (m * n + n)).filterMap w.db.candidateOf)))
    {results : List (List RunSummary)}
    (hresults : List.Forall₂ (w.BatchResult engine.rules (query.pageAt n m).batchQuery
      (candidateRunKeys segments)) (chunks maxDatafusionSegmentsPerBatch segments) results) :
    w.ListResult engine (query.pageAt n m)
        (((results.flatten.insertionSort query.before).drop (m * n)).take n) ∧
      ∃ ordered, Arranges query.before (shownOf (w.matchingRun engine query) n m o) ordered ∧
        ((results.flatten.insertionSort query.before).drop (m * n)).take n =
          (ordered.drop (m * n)).take n := by
  obtain ⟨hresult, hplan, hperm⟩ := hw.pagePlan hsearch hrows hlength hn ho hsegments
  have hruns : w.ListRuns engine.rules (query.pageAt n m) segments
      (((results.flatten.insertionSort query.before).drop (m * n)).take n) :=
    .of_segmentsResult hplan ⟨results, hresults, rfl⟩
  obtain ⟨ordered, harranges, hpage⟩ := hruns.arranges hplan
  exact ⟨⟨segments, hresult, hruns⟩, ordered,
    ⟨harranges.perm.trans hperm, harranges.sorted⟩, hpage⟩

theorem World.Consistent.matchingRun_eq (hw : w.Consistent x)
    (hrows : w.db.admitted engine query = .ok rows) (hrow : row ∈ rows)
    (hrun : w.matchingRun engine query row = some run) :
    run.runKey = row.1 ∧ run.startTimeUnixNano = row.2.startTimeUnixNano := by
  exact hw.content_eq hrows hrow (World.matchingRun_eq_some.1 hrun).1

/-- One of the segments has the candidate of a run that a page may show. -/
theorem World.Consistent.exists_segment (hw : w.Consistent x)
    (hrows : w.db.admitted engine query = .ok rows) (ho : Arranges query.candidateBefore rows o)
    (hrun : run ∈ shownOf (w.matchingRun engine query) n m o) :
    ∃ segment ∈ segmentSources ((o.take (m * n + n)).filterMap w.db.candidateOf),
      run ∈ w.keptRuns engine.rules query segment.candidates := by
  obtain ⟨row, hrow, hmatching⟩ := List.mem_filterMap.1 hrun
  have hmem : row ∈ rows := ho.perm.mem_iff.1 (List.mem_of_mem_take hrow)
  obtain ⟨-, ⟨segment, hsegment⟩, -⟩ := Db.mem_admitted hrows hmem
  obtain ⟨candidate, hcandidate⟩ : ∃ candidate, w.db.candidateOf row = some candidate :=
    ⟨_, by rw [Db.candidateOf, hsegment]; rfl⟩
  have hin : candidate ∈ (o.take (m * n + n)).filterMap w.db.candidateOf :=
    List.mem_filterMap.2 ⟨row, hrow, hcandidate⟩
  rw [← (segmentSources_candidates _).mem_iff, List.mem_flatMap] at hin
  obtain ⟨source, hsource, hin⟩ := hin
  have hsub : [candidate] ⊆ source.candidates := fun other hother =>
    List.mem_singleton.1 hother ▸ hin
  refine ⟨source, hsource, World.keptRuns_subset hsub ?_⟩
  have hone : ∀ other ∈ [row], other ∈ rows := fun other hother =>
    List.mem_singleton.1 hother ▸ hmem
  have hkept : w.keptRuns engine.rules query ([row].filterMap w.db.candidateOf) =
      ([row].filterMap fun row => w.content row.2).filter (query.keeps engine.rules) :=
    hw.keptRuns_heads hrows hone
  rw [List.filterMap_cons_some hcandidate, List.filterMap_nil] at hkept
  rw [hkept, ← World.filterMap_matchingRun, List.filterMap_cons_some hmatching]
  exact List.mem_cons_self

/-- The parts that the batches of a page's segments are cut from. -/
theorem World.Consistent.page_parts (hw : w.Consistent x)
    (hsearch : query.searchPredicate engine.formats = .ok none)
    (hrows : w.db.admitted engine query = .ok rows) (hlength : rows.length < 2 ^ 64)
    (hn : 0 < n) (ho : Arranges query.candidateBefore rows o)
    (hsegments : segments.Perm
      (segmentSources ((o.take (m * n + n)).filterMap w.db.candidateOf)))
    {results : List (List RunSummary)}
    (hresults : List.Forall₂ (w.BatchResult engine.rules (query.pageAt n m).batchQuery keys)
      (chunks maxDatafusionSegmentsPerBatch segments) results) :
    ∃ parts : List (List RunSummary),
      parts.flatten.Perm (shownOf (w.matchingRun engine query) n m o) ∧
      List.Forall₂ (fun part result => ∃ l, Arranges query.before part l ∧
        result = l.take (min (2 ^ 64 - 1) (n + m * n))) parts results := by
  obtain ⟨-, hplan, hperm⟩ := hw.pagePlan hsearch hrows hlength hn ho hsegments
  have hflatten := flatten_chunks (by decide : 0 < maxDatafusionSegmentsPerBatch) segments
  have hparts := hplan.names.parts_of_results RunQuery.batchLimit_pageAt hflatten hresults
  refine ⟨_, ?_, hparts⟩
  rw [World.keptRuns_flatten, hflatten]
  exact hperm

theorem length_shownOf_le {g : RunKey × RunHead → Option RunSummary}
    (ho : Arranges query.candidateBefore rows o) : (shownOf g n m o).length ≤ rows.length :=
  (List.length_filterMap_le _ _).trans
    ((List.length_take_le' _ _).trans ho.perm.length_eq.le)

theorem World.Names.keptRuns_nodup (hnames : w.Names segments) :
    (w.keptRuns rules query (segments.flatMap SegmentSource.candidates)).Nodup := by
  have hkeys := hnames.keys_nodup
  rw [candidateRunKeys_eq, ← World.candidateVersion_keys (w := w)] at hkeys
  · apply List.Nodup.filter
    apply List.Nodup.of_map RunSummary.runKey
    rw [List.map_map]
    exact hkeys
  · intro candidate hcandidate
    obtain ⟨segment, hsegment, hcandidate⟩ := List.mem_flatMap.1 hcandidate
    exact hnames.namesRow segment hsegment candidate hcandidate

theorem World.Consistent.exists_page (hw : w.Consistent x)
    (hsearch : query.searchPredicate engine.formats = .ok none)
    (hrows : w.db.admitted engine query = .ok rows) (hlength : rows.length < 2 ^ 64)
    (hn : 0 < n) (ho : Arranges query.candidateBefore rows o) :
    ∃ ordered, Arranges query.before (shownOf (w.matchingRun engine query) n m o) ordered ∧
      w.ListResult engine (query.pageAt n m) ((ordered.drop (m * n)).take n) := by
  obtain ⟨hresult, hplan, hperm⟩ := hw.pagePlan (m := m) hsearch hrows hlength hn ho (.refl _)
  obtain ⟨shown, hshown⟩ := hplan.exists_listRuns
  obtain ⟨ordered, harranges, rfl⟩ := hshown.arranges hplan
  exact ⟨ordered, ⟨harranges.perm.trans hperm, harranges.sorted⟩, _, hresult, hshown⟩

theorem page_subset {shown ordered : List RunSummary} (h : Arranges query.before shown ordered) :
    (ordered.drop m).take n ⊆ shown := fun _ hrun =>
  h.perm.mem_iff.1 (List.mem_of_mem_drop (List.mem_of_mem_take hrun))

/-- A page may put a run before all its ties. -/
theorem World.Consistent.exists_page_first (hw : w.Consistent x)
    (hsearch : query.searchPredicate engine.formats = .ok none)
    (hrows : w.db.admitted engine query = .ok rows) (hlength : rows.length < 2 ^ 64)
    (hn : 0 < n) (ho : Arranges query.candidateBefore rows o)
    (hrun : run ∈ shownOf (w.matchingRun engine query) n m o) :
    ∃ shown, w.ListResult engine (query.pageAt n m) shown ∧
      shown ⊆ shownOf (w.matchingRun engine query) n m o ∧
      (run ∈ shown ↔
        m * n ≤ rank query.before (shownOf (w.matchingRun engine query) n m o) run ∧
        rank query.before (shownOf (w.matchingRun engine query) n m o) run < m * n + n) := by
  by_cases hrank : rank query.before (shownOf (w.matchingRun engine query) n m o) run < m * n + n
  · obtain ⟨segment, hsource, hsegment⟩ := hw.exists_segment hrows ho hrun
    have hsegments := (List.perm_cons_erase hsource).symm
    obtain ⟨-, hplan, hperm⟩ := hw.pagePlan hsearch hrows hlength hn ho hsegments
    have hbound : rank query.before (shownOf (w.matchingRun engine query) n m o) run <
        min (2 ^ 64 - 1) (n + m * n) := by
      have hlt := (rank_lt_rankEnd (r := query.before) hrun).trans_le (List.length_filter_le _ _)
      have hshown := length_shownOf_le (g := w.matchingRun engine query) (n := n) (m := m) ho
      omega
    obtain ⟨results, before, after, hresults, hflatten, hfirst⟩ := hplan.names.exists_first
      RunQuery.batchLimit_pageAt hsegment ((rank_perm hperm run).trans_lt hbound)
    obtain ⟨hresult, ordered, harranges, hpage⟩ :=
      hw.page_of_results hsearch hrows hlength hn ho hsegments hresults
    obtain ⟨parts, hpartsPerm, hparts⟩ :=
      hw.page_parts hsearch hrows hlength hn ho hsegments hresults
    have hnodup := (hpartsPerm.trans hperm.symm).nodup_iff.2 hplan.names.keptRuns_nodup
    have hget := getElem_rank_of_parts hnodup hparts hflatten hfirst
      ((rank_perm hpartsPerm run).trans_lt hbound)
    rw [rank_perm hpartsPerm] at hget
    refine ⟨_, hresult, ?_, mem_page_iff ?_ hget⟩
    · rw [hpage]
      exact page_subset harranges
    · rw [(List.perm_insertionSort _ _).nodup_iff]
      obtain ⟨rest, hrest, -⟩ := exists_rest_of_parts hparts
      exact (hrest.nodup_iff.2 hnodup).sublist (List.sublist_append_left _ _)
  · obtain ⟨ordered, harranges, hshown⟩ := hw.exists_page (m := m) hsearch hrows hlength hn ho
    refine ⟨_, hshown, page_subset harranges, fun hmem => absurd ?_ hrank,
      fun hmem => absurd hmem.2 hrank⟩
    rw [← rank_perm harranges.perm]
    exact (rank_of_mem_page harranges.sorted hmem).2

/-- A page may put a run behind all its ties. -/
theorem World.Consistent.exists_page_last (hw : w.Consistent x)
    (hsearch : query.searchPredicate engine.formats = .ok none)
    (hrows : w.db.admitted engine query = .ok rows) (hlength : rows.length < 2 ^ 64)
    (hn : 0 < n) (ho : Arranges query.candidateBefore rows o)
    (hrun : run ∈ shownOf (w.matchingRun engine query) n m o)
    (hle : m * n ≤ rankEnd query.before (shownOf (w.matchingRun engine query) n m o) run - 1)
    (hlt : rankEnd query.before (shownOf (w.matchingRun engine query) n m o) run ≤ m * n + n) :
    ∃ shown, w.ListResult engine (query.pageAt n m) shown ∧ run ∈ shown := by
  obtain ⟨segment, hsource, hsegment⟩ := hw.exists_segment hrows ho hrun
  have hsegments := (List.perm_append_singleton segment _).trans (List.perm_cons_erase hsource).symm
  obtain ⟨-, hplan, hperm⟩ := hw.pagePlan hsearch hrows hlength hn ho hsegments
  have hbound : rankEnd query.before (shownOf (w.matchingRun engine query) n m o) run ≤
      min (2 ^ 64 - 1) (n + m * n) := by
    have hle := List.length_filter_le (fun other => decide (query.before other run))
      (shownOf (w.matchingRun engine query) n m o)
    have hshown := length_shownOf_le (g := w.matchingRun engine query) (n := n) (m := m) ho
    rw [rankEnd] at hlt ⊢
    omega
  obtain ⟨results, before, after, hresults, hflatten, hlast⟩ := hplan.names.exists_last
    RunQuery.batchLimit_pageAt hsegment ((rankEnd_perm hperm run).trans_le hbound)
  obtain ⟨hresult, -⟩ := hw.page_of_results hsearch hrows hlength hn ho hsegments hresults
  obtain ⟨parts, hpartsPerm, hparts⟩ :=
    hw.page_parts hsearch hrows hlength hn ho hsegments hresults
  have hnodup := (hpartsPerm.trans hperm.symm).nodup_iff.2 hplan.names.keptRuns_nodup
  have hget := getElem_rankEnd_of_parts hnodup hparts hflatten hlast
    ((rankEnd_perm hpartsPerm run).trans_le hbound)
  rw [rankEnd_perm hpartsPerm] at hget
  have hpos := (Nat.zero_le _).trans_lt (rank_lt_rankEnd (r := query.before) hrun)
  refine ⟨_, hresult, ?_⟩
  apply List.mem_of_getElem? (i := rankEnd query.before
    (shownOf (w.matchingRun engine query) n m o) run - 1 - m * n)
  rw [List.getElem?_take_of_lt (by omega), List.getElem?_drop, Nat.add_sub_cancel' hle, hget]

theorem World.Consistent.pagedListing (hw : w.Consistent x)
    (hsearch : query.searchPredicate engine.formats = .ok none)
    (hrows : w.db.admitted engine query = .ok rows) (hlength : rows.length < 2 ^ 64)
    (hn : 0 < n) :
    PagedListing query.candidateBefore query.before (w.matchingRun engine query) rows n
      fun m => w.ListResult engine (query.pageAt n m) := by
  refine ⟨hn, ?_, ?_, ?_, ?_, ?_, ?_, ?_⟩
  · exact (Db.admitted_keys hrows).of_map _
  · intro row hrow row' hrow' run hrun hrun'
    have hkey := (hw.matchingRun_eq hrows hrow hrun).1.symm.trans
      (hw.matchingRun_eq hrows hrow' hrun').1
    exact List.inj_on_of_nodup_map (Db.admitted_keys hrows) hrow hrow' hkey
  · intro row hrow row' hrow' run run' hrun hrun' hbefore
    obtain ⟨hkey, hstart⟩ := hw.matchingRun_eq hrows hrow hrun
    obtain ⟨hkey', hstart'⟩ := hw.matchingRun_eq hrows hrow' hrun'
    have hspan : run.spanId = row.1.spanId := congrArg RunKey.spanId hkey
    have hspan' : run'.spanId = row'.1.spanId := congrArg RunKey.spanId hkey'
    rw [RunQuery.candidateBefore, ← hstart, ← hstart', ← hspan, ← hspan'] at hbefore
    rw [RunQuery.before]
    have hle := @le_of_lt _ _ run.spanId run'.spanId
    grind
  · intro m shown hshown
    exact hw.page_arranges hsearch hrows hlength hn hshown
  · intro m o ho
    obtain ⟨ordered, harranges, hshown⟩ := hw.exists_page (m := m) hsearch hrows hlength hn ho
    exact ⟨_, hshown, page_subset harranges⟩
  · intro m o run ho hrun
    exact hw.exists_page_first hsearch hrows hlength hn ho hrun
  · intro m o run ho hrun hle hlt
    exact hw.exists_page_last hsearch hrows hlength hn ho hrun hle hlt

end paging

end KevinDb
