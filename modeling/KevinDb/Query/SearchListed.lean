import KevinDb.Compaction.Content
import KevinDb.Query.SearchStored

namespace KevinDb
set_option autoImplicit true

/-- The segments are searched by what is loaded of their indexes. -/
def StoredSegments.Reads (stored : StoredSegments)
    (getRanges : String → List ByteRange → Except String (List (List UInt8))) (fst : FstMaps)
    (w : World) : Prop :=
  ∀ predicate uri matchingRows,
    (KevinDb.loadMatchingRows getRanges fst (w.indexedSegment uri) predicate).Gives matchingRows →
      stored.loadMatchingRows predicate uri = .ok (rowIndices matchingRows)

/-- The record of a head meets a predicate. -/
def World.headMeets (reader : JsonReader) (predicate : SearchPredicate) (w : World)
    (row : RunKey × RunHead) : Bool :=
  (w.rowAt row.2.lastTraceSegmentId row.2.lastRowIndex).any fun record =>
    predicate.holds (recordRow reader record)

theorem World.rowAt_eq {w : World} {id n : Nat} {segment : TraceSegment}
    {records : List SpanRecord} (hsegment : w.db.traceSegments[id]? = some segment)
    (hread : w.readSegment segment.uri = some records) : w.rowAt id n = records[n]? := by
  have hobject : w.objects[segment.uri]? = some (.segment records) := by
    rw [World.readSegment] at hread
    split at hread
    next stored hobject =>
      cases hread
      exact hobject
    · cases hread
  simp [World.rowAt, hsegment, hobject]

section listed

variable {fst : FstMaps} {pairs : fst.Builder → List (List UInt8 × Nat)} {reader : JsonReader}
  {getRanges : String → List ByteRange → Except String (List (List UInt8))}
  {stored : StoredSegments} {w : World} {predicate : SearchPredicate} {query : RunQuery}
  {rows : List (RunKey × RunHead)}

/-- What a search finds of a row of a segment. -/
theorem World.SegmentsIndexed.loads (hw : w.SegmentsIndexed) (hfst : fst.Keeps pairs)
    (hencoded : w.EncodedIn getRanges fst reader) (hreads : stored.Reads getRanges fst w)
    (hqueries : ∀ query ∈ predicate.queries, ∃ text, query = SearchQuery.parse text)
    {id : Nat} {segment : TraceSegment} (hsegment : w.db.traceSegments[id]? = some segment) :
    ∃ found, stored.loadMatchingRows predicate segment.uri = .ok found ∧
      ∀ n, n < 2 ^ 32 ∧ n ∈ found ↔
        (w.rowAt id n).any fun record => predicate.holds (recordRow reader record) := by
  obtain ⟨records, searchIndexUri, hread, hindex, hobject⟩ := hw.indexedSegment hsegment
  have hstores : (w.indexedSegment segment.uri).Stores getRanges fst reader records :=
    ⟨searchIndexUri, hindex, rfl, hencoded searchIndexUri records hobject⟩
  obtain ⟨matchingRows, hgives, hmeets⟩ := hstores.gives hfst hqueries
  refine ⟨_, hreads predicate segment.uri matchingRows hgives, fun n => ?_⟩
  rw [← hmeets, rowMeets, World.rowAt_eq hsegment hread]

/-- The heads that a search finds are those whose records meet the predicate. -/
theorem World.SegmentsIndexed.searched (hw : w.SegmentsIndexed) (hfst : fst.Keeps pairs)
    (hencoded : w.EncodedIn getRanges fst reader) (hreads : stored.Reads getRanges fst w)
    (hqueries : ∀ query ∈ predicate.queries, ∃ text, query = SearchQuery.parse text)
    (hrows : w.db.admitted engine query = .ok rows) :
    w.db.searched stored predicate rows = rows.filter (w.headMeets reader predicate) := by
  apply List.filter_congr
  intro row hrow
  obtain ⟨-, ⟨segment, hsegment⟩, -⟩ := Db.mem_admitted hrows hrow
  obtain ⟨found, hload, hfound⟩ := hw.loads hfst hencoded hreads hqueries hsegment
  rw [Db.candidateOf, hsegment, Option.map_some, Option.any_some, StoredSegments.finds, hload,
    World.headMeets, Bool.eq_iff_iff, Bool.and_eq_true, decide_eq_true_eq, ← hfound]
  simp [Except.toOption]

/-- In every reachable state a search is listed as a page of an order of the admitted runs whose
records meet the predicate, or rejected if they are more than its limit. -/
theorem list_search_direct (hfst : fst.Keeps pairs) {s : System} {actions : List Action}
    (hrun : Transition.run (System.step x maxSpansPerSegment) System.initial actions = some s)
    (hencoded : s.world.EncodedIn getRanges fst reader)
    (hreads : stored.Reads getRanges fst s.world)
    (hpredicate : query.searchPredicate engine.formats = .ok (some predicate))
    (hqueries : ∀ query ∈ predicate.queries, ∃ text, query = SearchQuery.parse text)
    (hrows : s.world.db.admitted engine query = .ok rows) (hlength : rows.length < 2 ^ 64)
    (hlimits : ∀ segments, s.world.db.PlanResult engine query segments →
      stored.checkPlan limits (some predicate) segments = .ok ())
    {cap : Nat} (hcap : limits.maxCandidateRuns = some cap) :
    (∃ result, s.world.ListRunsWithin engine stored query limits result) ∧
      ∀ result, s.world.ListRunsWithin engine stored query limits result →
        if (rows.filter (s.world.headMeets reader predicate)).length ≤ cap then
          ∃ ordered, Arranges query.before
              ((rows.filter (s.world.headMeets reader predicate)).filterMap
                (s.world.matchingRun engine query)) ordered ∧
            result = .ok (takeLimit query.limit (ordered.drop (query.offset.getD 0)))
        else ∃ message, result = .error message := by
  have hindexed := World.SegmentsIndexed.run hrun
  have hw : s.world.Consistent x := Transition.run_invariant_of_step
    (fun s : System => s.world.Consistent x) (World.Consistent.step x maxSpansPerSegment) (.empty x)
    hrun
  have hload : ∀ row ∈ rows, ∀ candidate ∈ s.world.db.candidateOf row,
      ∃ found, stored.loadMatchingRows predicate candidate.uri = .ok found := by
    intro row hrow candidate hcandidate
    obtain ⟨segment, hsegment, rfl⟩ := Option.map_eq_some_iff.1 hcandidate
    obtain ⟨found, hfound, -⟩ := hindexed.loads hfst hencoded hreads hqueries hsegment
    exact ⟨found, hfound⟩
  have hlisted := hw.listRunsWithin hpredicate hrows hlength hload hlimits hcap
  rw [hindexed.searched hfst hencoded hreads hqueries hrows] at hlisted
  exact hlisted

/-- One record was ingested and is searched by its name. -/
theorem list_search_direct_one :
    let reader : JsonReader := ⟨fun _ => some (.object []), fun _ => ""⟩
    let query : RunQuery := { RunQuery.new "p" with filter := some (.search none "n") }
    let limits : RunQueryLimits := ⟨none, some 1, none, none⟩
    ∃ s stored rows, Transition.run (System.step .sample 3) .initial
        [.ingest ⟨"p", 0⟩ ⟨1, 1⟩ [.sample "t" "s" "n" .«end» 10 30] none] = some s ∧
      s.world.db.admitted .sample query = .ok rows ∧ rows.length = 1 ∧
      ∃ result, s.world.ListRunsWithin .sample stored query limits result ∧
        ∃ ordered, Arranges query.before
            ((rows.filter (s.world.headMeets reader (.text .all (.parse "n")))).filterMap
              (s.world.matchingRun .sample query)) ordered ∧
          result = .ok (takeLimit none (ordered.drop 0)) := by
  intro reader query limits
  let record : SpanRecord := .sample "t" "s" "n" .«end» 10 30
  have hrun : (Transition.run (System.step .sample 3) .initial
      [.ingest ⟨"p", 0⟩ ⟨1, 1⟩ [record] none]).map (fun s =>
        ((s.world.db.admitted .sample query).toOption.map List.length,
          s.world.objects.toList.map Prod.snd)) =
        some (some 1, [.searchIndex [record], .segment [record]]) := by
    decide +kernel
  have hbuilds : ((buildSearchIndex FstMaps.pairList.toFstLib reader [record]).toOption.bind
      fun index => (encodeSearchIndex index).toOption).isSome := by
    decide +kernel
  obtain ⟨s, hs, hfacts⟩ := Option.map_eq_some_iff.1 hrun
  obtain ⟨hadmitted, hobjects⟩ := Prod.mk.inj hfacts
  obtain ⟨rows, hrows, hlength⟩ := Option.map_eq_some_iff.1 hadmitted
  have hrows := eq_ok_of_toOption hrows
  obtain ⟨bytes, hbytes⟩ := Option.isSome_iff_exists.1 hbuilds
  obtain ⟨index, hindex, hencode⟩ := Option.bind_eq_some_iff.1 hbytes
  let getRanges (_ : String) (ranges : List ByteRange) : Except String (List (List UInt8)) :=
    .ok (ranges.map (ByteRange.read bytes))
  let stored : StoredSegments := ⟨fun _ => 0, fun _ => 0, fun _ => true, fun predicate uri =>
    (loadMatchingRows getRanges .pairList (s.world.indexedSegment uri) predicate
      ⟨0, 0, 0, 0, 0⟩).1.toOption.elim (.error "") fun rows => .ok (rowIndices rows)⟩
  have hencoded : s.world.EncodedIn getRanges .pairList reader :=
    World.encodedIn_of_objects hobjects (by decide +kernel) (Outcome.eq_ok_of_toOption hindex)
      (Outcome.eq_ok_of_toOption hencode)
  have hreads : stored.Reads getRanges .pairList s.world := by
    intro predicate uri matchingRows hgives
    dsimp only [stored]
    rw [hgives]
    rfl
  have hqueries : ∀ query ∈ (SearchPredicate.text .all (.parse "n")).queries,
      ∃ text, query = SearchQuery.parse text := by
    intro query hquery
    exact ⟨_, List.mem_singleton.1 hquery⟩
  have hlimits : ∀ segments, s.world.db.PlanResult .sample query segments →
      stored.checkPlan limits (some (.text .all (.parse "n"))) segments = .ok () :=
    fun _ _ => rfl
  have hcap : limits.maxCandidateRuns = some 1 := rfl
  obtain ⟨⟨result, hresult⟩, hlisted⟩ := list_search_direct FstMaps.pairList_keeps hs hencoded
    hreads rfl hqueries hrows (by omega) hlimits hcap
  have hpage := hlisted result hresult
  rw [if_pos ((List.length_filter_le _ _).trans hlength.le)] at hpage
  exact ⟨s, stored, rows, hs, hrows, hlength, result, hresult, hpage⟩

end listed

end KevinDb
