import KevinDb.Compaction.System
import KevinDb.Query.Cleanup
import KevinDb.Query.SearchSegments

namespace KevinDb
set_option autoImplicit true
open Std

/-! Segments and their indexes. -/

/-- A row of `trace_segments` names a segment and the search index of the records in it. -/
def TraceSegment.IndexedIn (objects : Table String StoredObject) (segment : TraceSegment) : Prop :=
  ∃ records searchIndexUri, objects[segment.uri]? = some (.segment records) ∧
    segment.searchIndexUri = some searchIndexUri ∧
      objects[searchIndexUri]? = some (.searchIndex records)

def World.SegmentsIndexed (w : World) : Prop :=
  ∀ (id : Nat) (segment : TraceSegment), w.db.traceSegments[id]? = some segment →
    segment.IndexedIn w.objects

theorem TraceSegment.IndexedIn.put {objects : Table String StoredObject} {segment : TraceSegment}
    {uri : String} (h : segment.IndexedIn objects) (hfree : objects[uri]? = none)
    (object : StoredObject) :
    segment.IndexedIn (objects.insert uri object) := by
  obtain ⟨records, searchIndexUri, hsegment, hindex, hobject⟩ := h
  have hkeep (name : String) (stored : StoredObject) (hname : objects[name]? = some stored) :
      (objects.insert uri object)[name]? = some stored := by
    rw [Table.get_insert, if_neg, hname]
    rintro rfl
    rw [hfree] at hname
    cases hname
  exact ⟨records, searchIndexUri, hkeep _ _ hsegment, hindex, hkeep _ _ hobject⟩

namespace World.SegmentsIndexed

theorem of_rows {w w' : World} (hw : w.SegmentsIndexed) (hobjects : w'.objects = w.objects)
    (hrows : w'.db.traceSegments = w.db.traceSegments) : w'.SegmentsIndexed := by
  intro id segment hsegment
  rw [hrows] at hsegment
  rw [hobjects]
  exact hw id segment hsegment

theorem put {w : World} (hw : w.SegmentsIndexed) (hfree : w.objects[uri]? = none)
    (object : StoredObject) :
    ({ w with objects := w.objects.insert uri object } : World).SegmentsIndexed :=
  fun id segment hsegment => (hw id segment hsegment).put hfree object

theorem commitSegment {w : World} (hw : w.SegmentsIndexed)
    (hsegment : w.objects[uri]? = some (.segment records))
    (hindex : w.objects[searchIndexUriForSegment uri]? = some (.searchIndex records))
    (partition : PartitionKey) (fault : Option SegmentFault) :
    (w.commitSegment x partition uri records fault).1.SegmentsIndexed := by
  unfold World.commitSegment
  split
  · exact hw
  next db inserted hpersist =>
    split
    · exact hw.of_rows rfl rfl
    split
    · exact hw.of_rows rfl rfl
    split
    · exact hw.of_rows rfl rfl
    obtain ⟨projectName, hrows⟩ := Db.persistMetadata_traceSegments hpersist
    intro id segment hget
    dsimp only at hget
    rw [hrows, Table.get_insert] at hget
    split at hget
    · cases hget
      exact ⟨records, _, hsegment, rfl, hindex⟩
    · exact hw id segment hget

/-- A segment is committed when both of its objects are written. -/
theorem persistSegment {w : World} (hw : w.SegmentsIndexed)
    (hfree : w.nameFree partition name records) (fault : Option SegmentFault) :
    (w.persistSegment x partition name records fault).1.SegmentsIndexed := by
  unfold World.persistSegment
  split
  · exact hw
  next first rest =>
    obtain ⟨hseg, hsearch⟩ := hfree
    have hne := searchIndexUriForSegment_ne (segmentUri partition name first)
    split
    · exact hw
    split
    · exact hw
    have hput := hw.put hseg (.segment (first :: rest))
    have hsearch' : (w.objects.insert (segmentUri partition name first)
        (.segment (first :: rest)))[searchIndexUriForSegment
          (segmentUri partition name first)]? = none := by
      rw [Table.get_insert, if_neg hne.symm, hsearch]
    have hboth := hput.put hsearch' (.searchIndex (first :: rest))
    dsimp only
    split
    · exact hput
    split
    · exact hboth
    · apply hboth.commitSegment
      · dsimp only
        rw [Table.get_insert, if_neg hne, Table.get_insert, if_pos rfl]
      · dsimp only
        rw [Table.get_insert, if_pos rfl]

theorem persistTurn {w : World} (hw : w.SegmentsIndexed)
    (hfree : w.nameFree partition name (filterDuplicateRecords w.db records))
    (h : World.TurnResult x maxSpansPerSegment w partition name fault records w' turn) :
    w'.SegmentsIndexed := by
  have hpos : 0 < max maxSpansPerSegment 1 := Nat.lt_of_lt_of_le Nat.zero_lt_one (le_max_right _ _)
  have hpersist :
      (w.persistSegment x partition name _ (TurnFault.inSegment fault)).1.SegmentsIndexed :=
    hw.persistSegment (World.nameFree_take hfree hpos) (TurnFault.inSegment fault)
  cases h with
  | unfiltered => exact hw
  | finished => exact hw
  | written window rest _ receipt hfault hwindow hsplit hresult hevents =>
    rw [← hwindow, hresult] at hpersist
    exact hpersist
  | kept window _ db hfault hwindow hresult hdb =>
    rw [← hwindow, hresult] at hpersist
    exact hpersist
  | failed window _ db hfault hwindow hresult hdb =>
    rw [← hwindow, hresult] at hpersist
    exact hpersist

theorem mark {w : World} (hw : w.SegmentsIndexed) (ids : List Nat) (time : Int) :
    World.SegmentsIndexed { w with db := w.db.markSegmentsCompacted ids time } := by
  intro id segment hsegment
  have hfixed : (w.db.markSegmentsCompacted ids time).traceSegments[id]?.map
      (fun segment => (segment.uri, segment.searchIndexUri)) =
        w.db.traceSegments[id]?.map fun segment => (segment.uri, segment.searchIndexUri) := by
    refine Table.get_foldl_modify w.db.traceSegments ids (fun id => id)
      (fun _ => TraceSegment.setCompacted time) _ ?_ id
    intro _ segment
    unfold TraceSegment.setCompacted
    split
    · rfl
    · rfl
  dsimp only at hsegment
  rw [hsegment] at hfixed
  obtain ⟨old, hold, heq⟩ := Option.map_eq_some_iff.1 hfixed.symm
  obtain ⟨huri, hindex⟩ := Prod.mk.inj heq
  have hindexed := hw id old hold
  rw [TraceSegment.IndexedIn, huri, hindex] at hindexed
  exact hindexed

/-- Every transaction of the system keeps the rows indexed. -/
theorem step {s s' : System} (hs : s.world.SegmentsIndexed)
    (h : s.step x maxSpansPerSegment action = some s') : s'.world.SegmentsIndexed := by
  cases System.step_cases h with
  | ingest partition name records fault hfree huser => exact hs.persistSegment hfree fault
  | delete k time reason =>
    exact hs.of_rows rfl (Db.deleteRunInTx_deletes x _ k time reason).traceSegments
  | expire projectName cutoff time =>
    have hdeletes := Db.expireProjectRunsBefore_deletes x s.world.db projectName cutoff time
    exact hs.of_rows rfl hdeletes.traceSegments
  | readIds projectName => exact hs
  | listRuns i runs listed execution hi hstage hlisted hperm => exact hs
  | persist i name fault execution partition records work world turn hi hstage hfree hturn =>
    exact hs.persistTurn hfree hturn
  | mark i time execution hi hstage => exact hs.mark _ time
  | stop i => exact hs

theorem run
    (h : Transition.run (System.step x maxSpansPerSegment) System.initial actions = some s) :
    s.world.SegmentsIndexed := by
  apply Transition.run_invariant_of_step (fun s : System => s.world.SegmentsIndexed)
    (fun _ _ _ => step) _ h
  intro id segment hsegment
  simp [System.initial, World.empty, Db.empty] at hsegment

end World.SegmentsIndexed

/-! The search of a plan. -/

/-- What a plan joins of `trace_segments` at a path. Rows are written with the one version. -/
def World.indexedSegment (w : World) (uri : String) : IndexedSegment where
  uri := uri
  searchIndexUri := (w.db.traceSegments.toList.find? fun row => row.2.uri = uri).bind
    fun row => row.2.searchIndexUri
  searchIndexSchemaVersion := searchIndexSchemaVersion

/-- The bytes of a search index object are the encoded index of its records. -/
def World.EncodedIn (getRanges : String → List ByteRange → Except String (List (List UInt8)))
    (fst : FstMaps) (reader : JsonReader) (w : World) : Prop :=
  ∀ uri records, w.objects[uri]? = some (.searchIndex records) →
    HoldsIndexOf getRanges fst reader uri records

/-- The segments of a plan have rows in `trace_segments`. -/
theorem Db.PlanResult.exists_row {db : Db} (h : db.PlanResult engine query segments) :
    ∀ segment ∈ segments, ∃ (id : Nat) (row : TraceSegment),
      db.traceSegments[id]? = some row ∧ row.uri = segment.uri := by
  obtain ⟨rows, predicate, ordered, -, -, -, hperm⟩ := h
  intro segment hsegment
  have hsource := hperm.mem_iff.1 hsegment
  obtain ⟨first, hfirst⟩ :=
    List.exists_mem_of_ne_nil _ (segmentSources_nonempty segment hsource)
  have hcandidate : (⟨first.runKey, segment.uri, first.rowIndex⟩ : RunCandidate) ∈
      (segmentSources ((takeLimit (query.candidateLimit predicate) ordered).filterMap
        db.candidateOf)).flatMap SegmentSource.candidates :=
    List.mem_flatMap.2 ⟨segment, hsource, List.mem_map_of_mem hfirst⟩
  rw [(segmentSources_candidates _).mem_iff, List.mem_filterMap] at hcandidate
  obtain ⟨row, -, hrow⟩ := hcandidate
  obtain ⟨stored, hstored, heq⟩ := Option.map_eq_some_iff.1 hrow
  exact ⟨_, stored, hstored, congrArg RunCandidate.uri heq⟩

/-- At the path of a row the join gives the index of the segment's records. -/
theorem World.SegmentsIndexed.indexedSegment {w : World} (hw : w.SegmentsIndexed) {id : Nat}
    {row : TraceSegment} (hrow : w.db.traceSegments[id]? = some row) :
    ∃ records searchIndexUri, w.readSegment row.uri = some records ∧
      (w.indexedSegment row.uri).searchIndexUri = some searchIndexUri ∧
        w.objects[searchIndexUri]? = some (.searchIndex records) := by
  have hmem : (id, row) ∈ w.db.traceSegments.toList :=
    TreeMap.mem_toList_iff_getElem?_eq_some.2 hrow
  cases hfind : w.db.traceSegments.toList.find? fun other => other.2.uri = row.uri with
  | none =>
    have hnone := List.find?_eq_none.1 hfind (id, row) hmem
    simp at hnone
  | some found =>
    have huri : found.2.uri = row.uri := by simpa using List.find?_some hfind
    have hfound := TreeMap.mem_toList_iff_getElem?_eq_some.1 (List.mem_of_find?_eq_some hfind)
    obtain ⟨records, searchIndexUri, hsegment, hindex, hobject⟩ := hw found.1 found.2 hfound
    rw [huri] at hsegment
    refine ⟨records, searchIndexUri, ?_, ?_, hobject⟩
    · rw [World.readSegment, hsegment]
    · rw [World.indexedSegment, hfind]
      exact hindex

section reachable

variable {fst : FstMaps} {pairs : fst.Builder → List (List UInt8 × Nat)} {reader : JsonReader}
  {getRanges : String → List ByteRange → Except String (List (List UInt8))}

/-- Whatever was ingested, deleted, expired and compacted before, in any interleaving, the search of
a plan keeps the candidate rows whose records, read from the segments, meet the predicate. -/
theorem search_of_reachable_plan (hfst : fst.Keeps pairs) {s : System} {actions : List Action}
    (hrun : Transition.run (System.step x maxSpansPerSegment) System.initial actions = some s)
    (hencoded : s.world.EncodedIn getRanges fst reader)
    (hplan : s.world.db.PlanResult engine query segments) {predicate : SearchPredicate}
    (hqueries : ∀ query ∈ predicate.queries, ∃ text, query = SearchQuery.parse text)
    (stats : ObjectStoreReadSnapshot) :
    (loadSegments (fun uri => loadMatchingRows getRanges fst (s.world.indexedSegment uri) predicate)
      segments stats).1 = .ok (keepRows (fun uri => rowMeets reader predicate
        ((s.world.readSegment uri).getD [])) segments) := by
  apply gives_loadSegments
  intro segment hsegment
  obtain ⟨id, row, hrow, huri⟩ := hplan.exists_row segment hsegment
  obtain ⟨records, searchIndexUri, hread, hindex, hobject⟩ :=
    (World.SegmentsIndexed.run hrun).indexedSegment hrow
  rw [huri] at hread hindex
  rw [hread, Option.getD_some]
  have hstores : (s.world.indexedSegment segment.uri).Stores getRanges fst reader records :=
    ⟨searchIndexUri, hindex, rfl, hencoded searchIndexUri records hobject⟩
  exact hstores.gives hfst hqueries

/-- The only search index is of some records, and every path has its bytes. -/
theorem World.encodedIn_of_objects {w : World} {records : List SpanRecord} {index : SearchIndex}
    {bytes : List UInt8}
    (hobjects : w.objects.toList.map Prod.snd = [.searchIndex records, .segment records])
    (hsize : (SearchIndexBuilder.ofRecords reader records).index.keyOccurrences.length +
      (SearchIndexBuilder.ofRecords reader records).index.valueOccurrences.length < 2 ^ 32)
    (hbuild : buildSearchIndex fst.toFstLib reader records = .ok index)
    (hencode : encodeSearchIndex index = .ok bytes) :
    w.EncodedIn (fun _ ranges => .ok (ranges.map (ByteRange.read bytes))) fst reader := by
  intro uri stored hobject
  have hmem := List.mem_map_of_mem (f := Prod.snd)
    (TreeMap.mem_toList_iff_getElem?_eq_some.2 hobject)
  rw [hobjects] at hmem
  have hrecords : stored = records := by simpa using hmem
  rw [hrecords]
  exact ⟨index, bytes, hsize, hbuild, hencode, fun _ _ => rfl⟩

/-- After a record was ingested, the search of a plan reads the index that was stored of it. -/
theorem search_of_reachable_plan_one :
    let reader : JsonReader := ⟨fun _ => some (.object []), fun _ => ""⟩
    let predicate : SearchPredicate := .text .all (.parse "n")
    ∃ s bytes segments, Transition.run (System.step .sample 3) .initial
        [.ingest ⟨"p", 0⟩ ⟨1, 1⟩ [.sample "t" "s" "n" .«end» 10 30] none] = some s ∧
      s.world.db.PlanResult .sample (RunQuery.new "p") segments ∧
      (loadSegments (fun uri => loadMatchingRows
        (fun _ ranges => .ok (ranges.map (ByteRange.read bytes))) .pairList
          (s.world.indexedSegment uri) predicate) segments ⟨0, 0, 0, 0, 0⟩).1 =
        .ok (keepRows (fun uri => rowMeets reader predicate
          ((s.world.readSegment uri).getD [])) segments) := by
  intro reader predicate
  let record : SpanRecord := .sample "t" "s" "n" .«end» 10 30
  have hrun : (Transition.run (System.step .sample 3) .initial
      [.ingest ⟨"p", 0⟩ ⟨1, 1⟩ [record] none]).map (fun s =>
        ((s.world.db.admitted .sample (RunQuery.new "p")).toOption.map List.length,
          s.world.objects.toList.map Prod.snd)) =
        some (some 1, [.searchIndex [record], .segment [record]]) := by
    decide +kernel
  have hbuilds : ((buildSearchIndex FstMaps.pairList.toFstLib reader [record]).toOption.bind
      fun index => (encodeSearchIndex index).toOption).isSome := by
    decide +kernel
  obtain ⟨s, hs, hfacts⟩ := Option.map_eq_some_iff.1 hrun
  obtain ⟨hadmitted, hobjects⟩ := Prod.mk.inj hfacts
  obtain ⟨rows, hrows, -⟩ := Option.map_eq_some_iff.1 hadmitted
  obtain ⟨bytes, hbytes⟩ := Option.isSome_iff_exists.1 hbuilds
  obtain ⟨index, hindex, hencode⟩ := Option.bind_eq_some_iff.1 hbytes
  have hencoded := World.encodedIn_of_objects hobjects (by decide +kernel)
    (Outcome.eq_ok_of_toOption hindex) (Outcome.eq_ok_of_toOption hencode)
  have hplan : s.world.db.PlanResult .sample (RunQuery.new "p") _ :=
    ⟨rows, none, _, eq_ok_of_toOption hrows, rfl, Arranges.insertionSort rows, .refl _⟩
  have hqueries : ∀ query ∈ predicate.queries, ∃ text, query = SearchQuery.parse text := by
    intro query hquery
    exact ⟨_, List.mem_singleton.1 hquery⟩
  exact ⟨s, bytes, _, hs, hplan,
    search_of_reachable_plan FstMaps.pairList_keeps hs hencoded hplan hqueries _⟩

end reachable

end KevinDb
