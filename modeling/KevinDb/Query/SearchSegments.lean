import KevinDb.Query.SearchLoaded
import KevinDb.Query.SearchPlan
import KevinDb.Search.Direct

namespace KevinDb
set_option autoImplicit true

/-- The numbers of the rows that were found, ascending. -/
def rowIndices (matchingRows : Finset UInt32) : List Nat :=
  (matchingRows.image UInt32.toNat).sort (· ≤ ·)

/-- The loop of `apply_phase6_search_indexes` over the segments, with its reads counted. -/
def loadSegments (load : String → Load (Finset UInt32)) :
    List SegmentSource → Load (List SegmentSource)
  | [] => pure []
  | segment :: segments => do
    let matchingRows ← (load segment.uri).withContext ("evaluate search index for " ++ segment.uri)
    let candidateRows := filterCandidateRows segment.candidateRows (rowIndices matchingRows)
    let rest ← loadSegments load segments
    return if candidateRows.isEmpty then rest else { segment with candidateRows } :: rest

/-! Requests. -/

section requests

variable (getRanges : String → List ByteRange → Except String (List (List UInt8))) (fst : FstMaps)

theorem requests_loadTermSlices (getRanges : List ByteRange → Except String (List (List UInt8)))
    (directory : SearchIndexDirectory) (slices : SearchIndexTermSlices) :
    (loadTermSlices getRanges directory slices).Requests 1 := by
  change Load.Requests _ (0 + (0 + (1 + (0 + (0 + 0)))))
  apply (Load.requests_ofOutcome _).bind
  intro keys
  apply (Load.requests_ofOutcome _).bind
  intro values
  apply (requests_loadRanges getRanges _).bind
  intro chunks
  apply (Load.requests_ofOutcome _).bind
  intro termKeyGroups
  apply (Load.requests_ofOutcome _).bind
  intro termValueGroups
  exact Load.requests_pure _

/-- An index is read with four requests: its header, its directory, the dictionaries and the data of
the terms that were selected. -/
theorem requests_loadMatchingRows (segment : IndexedSegment) (predicate : SearchPredicate) :
    (loadMatchingRows getRanges fst segment predicate).Requests
      (if segment.searchIndexUri.isSome then 4 else 0) := by
  rw [loadMatchingRows]
  cases segment.searchIndexUri with
  | none => exact Load.requests_ofOutcome _
  | some uri =>
    dsimp only
    split
    · exact (Load.requests_ofOutcome _).mono (Nat.zero_le _)
    · change Load.Requests _ (2 + ((1 + 1) + (0 + 0)))
      apply (requests_loadSearchIndexDirectory _).bind
      intro directory
      apply Load.Requests.bind
      · apply (requests_loadSelectedDictionaries _ _ _).withContext.bind
        intro dictionaries
        exact requests_loadTermSlices _ _ _
      · intro chunks
        apply (Load.requests_ofOutcome _).bind
        intro index
        exact Load.requests_pure _

theorem requests_loadSegments {load : String → Load (Finset UInt32)} {hasIndex : String → Bool}
    (hload : ∀ uri, (load uri).Requests (if hasIndex uri then 4 else 0))
    (segments : List SegmentSource) :
    (loadSegments load segments).Requests (segments.countP (hasIndex ·.uri) * 4) := by
  induction segments with
  | nil => exact Load.requests_pure []
  | cons segment segments ih =>
    have hcount : (segment :: segments).countP (hasIndex ·.uri) * 4 =
        (if hasIndex segment.uri then 4 else 0) + (segments.countP (hasIndex ·.uri) * 4 + 0) := by
      rw [List.countP_cons]
      split
      · omega
      · omega
    rw [hcount]
    apply (hload segment.uri).withContext.bind
    intro matchingRows
    apply ih.bind
    intro rest
    exact Load.requests_pure _

/-- Whatever the store returns, the search makes no more requests than the planner estimates for the
segments that have an index, all of them for ranges. -/
theorem search_requests_estimated (indexed : String → IndexedSegment) (predicate : SearchPredicate)
    (segments : List SegmentSource) (stats : ObjectStoreReadSnapshot)
    (hcount : segments.countP (fun segment => (indexed segment.uri).searchIndexUri.isSome) * 4 <
      2 ^ 64) :
    let read := (loadSegments (fun uri => loadMatchingRows getRanges fst (indexed uri) predicate)
      segments stats).2
    read.getRangesRequests ≤ stats.getRangesRequests + estimateSearchIndexObjectStoreRequests
        (segments.countP fun segment => (indexed segment.uri).searchIndexUri.isSome) ∧
      read.getRequests = stats.getRequests ∧ read.headRequests = stats.headRequests ∧
        read.listRequests = stats.listRequests := by
  intro read
  have hrequests := requests_loadSegments
    (fun uri => requests_loadMatchingRows getRanges fst (indexed uri) predicate) segments
  have hestimate := hrequests.getRanges stats
  rw [estimateSearchIndexObjectStoreRequests, min_eq_right (by omega)]
  exact ⟨hestimate, hrequests.others stats⟩

/-- A store that refuses every read is asked once. -/
theorem search_requests_estimated_one :
    let segments : List SegmentSource := [⟨"a.vortex", [⟨⟨"demo", "aa", "11"⟩, 0⟩]⟩]
    (loadSegments (fun uri => loadMatchingRows (fun _ _ => .error "timed out") .pairList
      ⟨uri, some "a.search.fst", searchIndexSchemaVersion⟩ (.jsonKey "kind")) segments
        ⟨0, 0, 0, 0, 0⟩).2.getRangesRequests ≤ 4 :=
  (search_requests_estimated (fun _ _ => .error "timed out") .pairList
    (fun uri => ⟨uri, some "a.search.fst", searchIndexSchemaVersion⟩) (.jsonKey "kind")
    [⟨"a.vortex", [⟨⟨"demo", "aa", "11"⟩, 0⟩]⟩] ⟨0, 0, 0, 0, 0⟩ (by decide)).1

end requests

/-! Answers. -/

/-- The segments with those of their candidate rows that are kept, where there are any. -/
def keepRows (keeps : String → Nat → Bool) (segments : List SegmentSource) : List SegmentSource :=
  segments.filterMap fun segment =>
    let candidateRows := segment.candidateRows.filter fun row => keeps segment.uri row.rowIndex
    if candidateRows.isEmpty then none else some { segment with candidateRows }

theorem mem_rowIndices {matchingRows : Finset UInt32} {n : Nat} :
    n ∈ rowIndices matchingRows ↔ ∃ row ∈ matchingRows, row.toNat = n := by
  rw [rowIndices, Finset.mem_sort, Finset.mem_image]

/-- The loop keeps what the indexes of the segments find. -/
theorem gives_loadSegments {load : String → Load (Finset UInt32)} {keeps : String → Nat → Bool}
    {segments : List SegmentSource} (hload : ∀ segment ∈ segments, ∃ matchingRows,
      (load segment.uri).Gives matchingRows ∧
        ∀ n, keeps segment.uri n ↔ n < 2 ^ 32 ∧ n ∈ rowIndices matchingRows) :
    (loadSegments load segments).Gives (keepRows keeps segments) := by
  induction segments with
  | nil => exact Load.gives_pure []
  | cons segment segments ih =>
    obtain ⟨⟨matchingRows, hgives, hkeeps⟩, hrest⟩ := List.forall_mem_cons.1 hload
    have hfilter : filterCandidateRows segment.candidateRows (rowIndices matchingRows) =
        segment.candidateRows.filter fun row => keeps segment.uri row.rowIndex := by
      apply List.filter_congr
      intro row _
      rw [Bool.eq_iff_iff, hkeeps, Bool.and_eq_true, decide_eq_true_eq, decide_eq_true_eq]
    have hkept : keepRows keeps (segment :: segments) =
        if (filterCandidateRows segment.candidateRows (rowIndices matchingRows)).isEmpty
        then keepRows keeps segments
        else { segment with
          candidateRows := filterCandidateRows segment.candidateRows (rowIndices matchingRows) } ::
            keepRows keeps segments := by
      rw [hfilter, keepRows, List.filterMap_cons]
      dsimp only
      split
      next hnone =>
        split at hnone
        next hempty => rw [if_pos hempty, keepRows]
        next => cases hnone
      next hsome =>
        split at hsome
        next => cases hsome
        next hempty =>
          cases hsome
          rw [if_neg hempty, keepRows]
    rw [hkept]
    apply hgives.withContext.bind
    apply (ih hrest).bind
    exact Load.gives_pure _

/-- The object at a path holds the index of some records. -/
def HoldsIndexOf (getRanges : String → List ByteRange → Except String (List (List UInt8)))
    (fst : FstMaps) (reader : JsonReader) (uri : String) (records : List SpanRecord) : Prop :=
  ∃ index bytes, (SearchIndexBuilder.ofRecords reader records).index.keyOccurrences.length +
      (SearchIndexBuilder.ofRecords reader records).index.valueOccurrences.length < 2 ^ 32 ∧
    buildSearchIndex fst.toFstLib reader records = .ok index ∧
    encodeSearchIndex index = .ok bytes ∧ StoreReturns (getRanges uri) bytes

/-- What `trace_segments` says of a segment names such an object. -/
def IndexedSegment.Stores (getRanges : String → List ByteRange → Except String (List (List UInt8)))
    (fst : FstMaps) (reader : JsonReader) (segment : IndexedSegment) (records : List SpanRecord) :
    Prop :=
  ∃ uri, segment.searchIndexUri = some uri ∧
    segment.searchIndexSchemaVersion = KevinDb.searchIndexSchemaVersion ∧
    HoldsIndexOf getRanges fst reader uri records

/-- The record of a row meets a predicate. -/
def rowMeets (reader : JsonReader) (predicate : SearchPredicate) (records : List SpanRecord)
    (n : Nat) : Bool :=
  records[n]?.any fun record => predicate.holds (recordRow reader record)

section direct

variable {fst : FstMaps} {pairs : fst.Builder → List (List UInt8 × Nat)} {reader : JsonReader}
  {records : List SpanRecord} {predicate : SearchPredicate}
  {getRanges : String → List ByteRange → Except String (List (List UInt8))}

/-- The rows that are loaded of the index of some records are those that meet the predicate. -/
theorem IndexedSegment.Stores.gives {segment : IndexedSegment} (hfst : fst.Keeps pairs)
    (h : segment.Stores getRanges fst reader records)
    (hqueries : ∀ query ∈ predicate.queries, ∃ text, query = SearchQuery.parse text) :
    ∃ matchingRows, (loadMatchingRows getRanges fst segment predicate).Gives matchingRows ∧
      ∀ n, rowMeets reader predicate records n ↔ n < 2 ^ 32 ∧ n ∈ rowIndices matchingRows := by
  obtain ⟨uri, huri, hversion, index, bytes, hsize, hbuild, hencode, hstore⟩ := h
  obtain ⟨additions, hof⟩ := exists_ofRecords hsize hbuild
  obtain ⟨hfits, rfl⟩ := encodeSearchIndex_eq_ok_iff.1 hencode
  refine ⟨index.matchingRows fst predicate, gives_loadMatchingRows (hof.indexes.isBuilt hfst) hfits
    huri hversion hstore predicate, fun n => ?_⟩
  rw [rowMeets, Option.any_eq_true, mem_rowIndices]
  constructor
  · rintro ⟨record, hget, hholds⟩
    have hlt : n < 2 ^ 32 := (List.getElem?_eq_some_iff.1 hget).1.trans hof.length_lt
    have hn : (UInt32.ofNat n).toNat = n := UInt32.toNat_ofNat_of_lt' hlt
    have hrow : records[(UInt32.ofNat n).toNat]? = some record := by rw [hn, hget]
    exact ⟨hlt, UInt32.ofNat n,
      (hof.mem_matchingRows_iff hfst hqueries _).2 ⟨record, hrow, hholds⟩, hn⟩
  · rintro ⟨-, row, hrow, rfl⟩
    exact (hof.mem_matchingRows_iff hfst hqueries row).1 hrow

/-- Searching the stored indexes of the segments keeps the candidate rows whose records meet the
predicate. -/
theorem search_segments_direct (hfst : fst.Keeps pairs) {indexed : String → IndexedSegment}
    (recordsOf : String → List SpanRecord) {segments : List SegmentSource}
    (hstored : ∀ segment ∈ segments,
      (indexed segment.uri).Stores getRanges fst reader (recordsOf segment.uri))
    (hqueries : ∀ query ∈ predicate.queries, ∃ text, query = SearchQuery.parse text)
    (stats : ObjectStoreReadSnapshot) :
    (loadSegments (fun uri => loadMatchingRows getRanges fst (indexed uri) predicate) segments
      stats).1 =
      .ok (keepRows (fun uri => rowMeets reader predicate (recordsOf uri)) segments) := by
  apply gives_loadSegments
  intro segment hsegment
  exact (hstored segment hsegment).gives hfst hqueries

/-- Of two candidate rows one has a record that holds the phrase. -/
theorem search_segments_direct_one :
    let reader : JsonReader :=
      ⟨fun _ => some (.object [("inputs", .object [("prompt", .string "Hello, brave world")])]),
        fun _ => ""⟩
    let record : SpanRecord :=
      ⟨"demo", "", "aa", "11", none, none, "root", "chain", 1, 2, 1, .«end», "", none⟩
    let predicate : SearchPredicate :=
      .and [.text (.pathPrefix "inputs") (.parse "\"brave world\""), .jsonKey "inputs.%"]
    let segment : SegmentSource :=
      ⟨"a.vortex", [⟨⟨"demo", "aa", "11"⟩, 0⟩, ⟨⟨"demo", "aa", "12"⟩, 1⟩]⟩
    ∃ index bytes, buildSearchIndex FstMaps.pairList.toFstLib reader [record] = .ok index ∧
      encodeSearchIndex index = .ok bytes ∧
      (loadSegments (fun uri => loadMatchingRows
        (fun _ ranges => .ok (ranges.map (ByteRange.read bytes))) .pairList
          ⟨uri, some "a.search.fst", searchIndexSchemaVersion⟩ predicate)
        [segment] ⟨0, 0, 0, 0, 0⟩).1 = .ok [⟨"a.vortex", [⟨⟨"demo", "aa", "11"⟩, 0⟩]⟩] := by
  intro reader record predicate segment
  have hbuilds : ((buildSearchIndex FstMaps.pairList.toFstLib reader [record]).toOption.bind
      fun index => (encodeSearchIndex index).toOption).isSome := by
    decide +kernel
  obtain ⟨bytes, hbytes⟩ := Option.isSome_iff_exists.1 hbuilds
  obtain ⟨index, hindex, hencode⟩ := Option.bind_eq_some_iff.1 hbytes
  have hbuild := Outcome.eq_ok_of_toOption hindex
  have hencode := Outcome.eq_ok_of_toOption hencode
  have hstored : ∀ source ∈ [segment], IndexedSegment.Stores
      (fun _ ranges => .ok (ranges.map (ByteRange.read bytes))) .pairList reader
        ⟨source.uri, some "a.search.fst", searchIndexSchemaVersion⟩ [record] := by
    intro source _
    exact ⟨"a.search.fst", rfl, rfl, index, bytes, by decide +kernel, hbuild, hencode,
      fun _ _ => rfl⟩
  have hqueries : ∀ query ∈ predicate.queries, ∃ text, query = SearchQuery.parse text := by
    intro query hquery
    exact ⟨_, List.mem_singleton.1 hquery⟩
  have hkept : keepRows (fun _ => rowMeets reader predicate [record]) [segment] =
      [⟨"a.vortex", [⟨⟨"demo", "aa", "11"⟩, 0⟩]⟩] := by
    decide +kernel
  exact ⟨index, bytes, hbuild, hencode, (search_segments_direct FstMaps.pairList_keeps
    (fun _ => [record]) hstored hqueries _).trans (congrArg Outcome.ok hkept)⟩

end direct

end KevinDb
