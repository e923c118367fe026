import KevinDb.Query.Cleanup

namespace KevinDb
set_option autoImplicit true
open Std

/-- `persist_segment` over a store that keeps objects under the paths of their names. -/
def World.persistSegmentAt (x : Externals) (pathFrom : String → String) (w : World)
    (partition : PartitionKey) (name : SegmentName) (records : List SpanRecord)
    (fault : Option SegmentFault) : World × Except (List SpanRecord) PersistSegmentResult :=
  match records with
  | [] => (w, .error [])
  | first :: _ =>
    if !validatePartitionRecords partition records then (w, .error records)
    else if fault = some .encode ∨ fault = some .putSegment then (w, .error records)
    else
      let uri := segmentUri partition name first
      let w := w.putSegment (pathFrom uri) records
      if fault = some .putSearchIndex then (w, .error records)
      else
        let w := w.putSearchIndex (pathFrom (searchIndexUriForSegment uri)) records
        if fault = some .connect then (w, .error records)
        else w.commitSegment x partition uri records fault

/-- `delete_if_exists`. -/
def World.deleteIfExists (pathFrom : String → String) (w : World) (uri : String) : World :=
  { w with objects := w.objects.erase (pathFrom uri) }

/-- `load_compacted_cleanup_candidates`. -/
def Db.compactedCleanupCandidates (db : Db) (cutoffUnixNano : Int) : List (Nat × TraceSegment) :=
  db.traceSegments.toList.filter fun row =>
    row.2.compactedAtUnixNano.any (· ≤ cutoffUnixNano) && row.2.objectDeletedAtUnixNano.isNone

/-- `cleanup_compacted_objects_at`. -/
def World.cleanupCompactedObjects (pathFrom : String → String) (w : World)
    (cutoffUnixNano nowUnixNano : Int) (dryRun : Bool) : World :=
  let candidates := w.db.compactedCleanupCandidates cutoffUnixNano
  if dryRun then w
  else
    let w := (candidates.flatMap fun row => row.2.uris).foldl (World.deleteIfExists pathFrom) w
    { w with db := { w.db with
      traceSegments := candidates.foldl (fun segments row => segments.modify row.1 fun segment =>
        { segment with objectDeletedAtUnixNano := some nowUnixNano }) w.db.traceSegments } }

/-- `load_referenced_object_uris`. -/
def Db.referencedUris (db : Db) : List String :=
  db.referencedSegmentUris ++ db.referencedSearchIndexUris

structure OrphanObjectCleanupReceipt where
  dryRun : Bool
  candidates : List String
  deletedObjects : Nat
deriving DecidableEq, Repr

/-- The candidates of `cleanup_orphaned_objects`: paths of the listing that are not referenced. -/
def World.orphanCandidates (w : World) : List String :=
  (w.objects.keys.filter fun uri => uri ∉ w.db.referencedUris).insertionSort fun left right =>
    left ≤ right

/-- `cleanup_orphaned_objects`. -/
def World.cleanupOrphanedObjects (pathFrom : String → String) (w : World) (dryRun : Bool) :
    World × OrphanObjectCleanupReceipt :=
  if dryRun then (w, ⟨dryRun, w.orphanCandidates, 0⟩)
  else (w.orphanCandidates.foldl (World.deleteIfExists pathFrom) w,
    ⟨dryRun, w.orphanCandidates, w.orphanCandidates.length⟩)

/-- The steps of a store without concurrent writers. Other transactions name no new objects. -/
inductive OrphanAction where
  | persist (partition : PartitionKey) (name : SegmentName) (records : List SpanRecord)
      (fault : Option SegmentFault)
  | change (db : Db)
  | cleanupCompacted (cutoffUnixNano nowUnixNano : Int) (dryRun : Bool)
  | cleanupOrphaned (dryRun : Bool)

/-- The names of objects in the rows of `trace_segments`. -/
def Db.objectUris (db : Db) : List String :=
  db.traceSegments.toList.flatMap fun row => row.2.uris

def World.orphanStep (x : Externals) (pathFrom : String → String) (w : World) :
    OrphanAction → Option World
  | .persist partition name records fault =>
    some (w.persistSegmentAt x pathFrom partition name records fault).1
  | .change db => if db.objectUris ⊆ w.db.objectUris then some { w with db } else none
  | .cleanupCompacted cutoffUnixNano nowUnixNano dryRun =>
    some (w.cleanupCompactedObjects pathFrom cutoffUnixNano nowUnixNano dryRun)
  | .cleanupOrphaned dryRun => some (w.cleanupOrphanedObjects pathFrom dryRun).1

/-- A row that is not marked references the object under the path of its name. -/
def World.Referenced (pathFrom : String → String) (w : World) (path : String) : Prop :=
  ∃ uri ∈ w.db.referencedUris, pathFrom uri = path

/-- The cleanup reports the stored objects that are not referenced, and deletes these. -/
structure World.OrphansExact (pathFrom : String → String) (w : World) : Prop where
  candidates : ∀ path, path ∈ (w.cleanupOrphanedObjects pathFrom true).2.candidates ↔
    w.objects[path]?.isSome ∧ ¬ w.Referenced pathFrom path
  reported : (w.cleanupOrphanedObjects pathFrom false).2.candidates =
    (w.cleanupOrphanedObjects pathFrom true).2.candidates
  kept : ∀ path, w.Referenced pathFrom path →
    (w.cleanupOrphanedObjects pathFrom false).1.objects[path]? = w.objects[path]?
  deleted : ∀ path, ¬ w.Referenced pathFrom path →
    (w.cleanupOrphanedObjects pathFrom false).1.objects[path]? = none

/-- The names that a segment is persisted under are the paths of its objects. -/
def World.plainNames (pathFrom : String → String) (_ : World) : OrphanAction → Prop
  | .persist partition name (first :: _) _ =>
    pathFrom (segmentUri partition name first) = segmentUri partition name first ∧
      pathFrom (searchIndexUriForSegment (segmentUri partition name first)) =
        searchIndexUriForSegment (segmentUri partition name first)
  | _ => True

instance (pathFrom : String → String) (w : World) :
    ∀ action, Decidable (w.plainNames pathFrom action)
  | .persist partition name (first :: _) _ =>
    inferInstanceAs (Decidable
      (pathFrom (segmentUri partition name first) = segmentUri partition name first ∧
        pathFrom (searchIndexUriForSegment (segmentUri partition name first)) =
          searchIndexUriForSegment (segmentUri partition name first)))
  | .persist _ _ [] _ | .change _ | .cleanupCompacted _ _ _ | .cleanupOrphaned _ =>
    .isTrue True.intro

/-- Every name of the store is a path. -/
structure World.Plain (pathFrom : String → String) (w : World) : Prop where
  objects : ∀ path, w.objects[path]?.isSome → pathFrom path = path
  rows : ∀ uri ∈ w.rowUris, pathFrom uri = uri

section orphans

variable {x : Externals} {pathFrom : String → String} {w : World} {path uri : String}

/-- Where the names are the paths, a segment is persisted as if the store kept objects under their
names. -/
theorem World.persistSegmentAt_id (partition : PartitionKey) (name : SegmentName)
    (records : List SpanRecord) (fault : Option SegmentFault) :
    w.persistSegmentAt x id partition name records fault =
      w.persistSegment x partition name records fault := by
  cases records with
  | nil => rfl
  | cons first records => simp only [World.persistSegmentAt, World.persistSegment, id_eq]

theorem World.foldl_deleteIfExists (uris : List String) (w : World) (path : String) :
    (uris.foldl (World.deleteIfExists pathFrom) w).db = w.db ∧
      (uris.foldl (World.deleteIfExists pathFrom) w).objects[path]? =
        if path ∈ uris.map pathFrom then none else w.objects[path]? := by
  induction uris generalizing w with
  | nil => simp
  | cons uri uris ih =>
    rw [List.foldl_cons, (ih _).1, (ih _).2]
    refine ⟨rfl, ?_⟩
    rw [World.deleteIfExists, Table.get_erase, List.map_cons]
    by_cases hpath : pathFrom uri = path
    · simp [hpath]
    · simp [hpath, Ne.symm hpath]

theorem Db.referencedUris_subset (db : Db) : db.referencedUris ⊆ db.objectUris := by
  intro uri huri
  rw [Db.objectUris, List.mem_flatMap]
  rcases List.mem_append.1 huri with hname | hindex
  · obtain ⟨segment, hsegment, rfl⟩ := List.mem_map.1 hname
    obtain ⟨row, hrow, rfl⟩ := List.mem_map.1 (List.mem_filter.1 hsegment).1
    exact ⟨row, hrow, List.mem_cons_self⟩
  · obtain ⟨segment, hsegment, hindex⟩ := List.mem_filterMap.1 hindex
    obtain ⟨row, hrow, rfl⟩ := List.mem_map.1 (List.mem_filter.1 hsegment).1
    exact ⟨row, hrow, List.mem_cons_of_mem _ (Option.mem_toList.2 hindex)⟩

theorem World.Plain.referenced_iff (hw : w.Plain pathFrom) :
    w.Referenced pathFrom path ↔ path ∈ w.db.referencedUris := by
  have hplain : ∀ uri ∈ w.db.referencedUris, pathFrom uri = uri :=
    fun uri huri => hw.rows uri (Db.referencedUris_subset _ huri)
  constructor
  · rintro ⟨uri, huri, rfl⟩
    rwa [hplain uri huri]
  · exact fun hpath => ⟨path, hpath, hplain path hpath⟩

theorem World.mem_orphanCandidates : path ∈ w.orphanCandidates ↔
    w.objects[path]?.isSome ∧ path ∉ w.db.referencedUris := by
  rw [World.orphanCandidates, List.mem_insertionSort, List.mem_filter, decide_eq_true_iff,
    TreeMap.mem_keys, TreeMap.isSome_getElem?_iff_mem]

/-- Where the names are the paths, orphans are found and deleted. -/
theorem World.Plain.orphansExact (hw : w.Plain pathFrom) : w.OrphansExact pathFrom := by
  have hdeleted : ∀ path, (w.cleanupOrphanedObjects pathFrom false).1.objects[path]? =
      if path ∈ w.orphanCandidates then none else w.objects[path]? := by
    intro path
    have hplain : w.orphanCandidates.map pathFrom = w.orphanCandidates := by
      nth_rewrite 2 [← List.map_id w.orphanCandidates]
      apply List.map_congr_left
      intro path hpath
      exact hw.objects path (World.mem_orphanCandidates.1 hpath).1
    rw [World.cleanupOrphanedObjects, if_neg Bool.false_ne_true,
      (World.foldl_deleteIfExists _ _ _).2, hplain]
  refine ⟨fun path => ?_, rfl, fun path hpath => ?_, fun path hpath => ?_⟩
  · rw [hw.referenced_iff]
    exact World.mem_orphanCandidates
  · rw [hdeleted, if_neg]
    exact fun hmem => (World.mem_orphanCandidates.1 hmem).2 (hw.referenced_iff.1 hpath)
  · rw [hdeleted]
    split
    · rfl
    next hmem =>
      rw [World.mem_orphanCandidates, ← hw.referenced_iff] at hmem
      exact Option.not_isSome_iff_eq_none.1 fun hsome => hmem ⟨hsome, hpath⟩

theorem World.Plain.put (hw : w.Plain pathFrom) (huri : pathFrom uri = uri)
    (object : StoredObject) :
    ({ w with objects := w.objects.insert (pathFrom uri) object } : World).Plain pathFrom := by
  refine ⟨fun path hpath => ?_, hw.rows⟩
  rw [Table.get_insert] at hpath
  split at hpath
  next heq =>
    rw [← heq, huri, huri]
  · exact hw.objects path hpath

theorem World.Plain.commitSegment (hw : w.Plain pathFrom) (partition : PartitionKey)
    (hsegment : pathFrom uri = uri)
    (hindex : pathFrom (searchIndexUriForSegment uri) = searchIndexUriForSegment uri)
    (records : List SpanRecord) (fault : Option SegmentFault) :
    (w.commitSegment x partition uri records fault).1.Plain pathFrom := by
  obtain ⟨hobjects, hrows⟩ := World.commitSegment_rowUris x w partition uri records fault
  constructor
  · intro path hpath
    rw [hobjects] at hpath
    exact hw.objects path hpath
  · intro name hname
    rcases hrows name hname with hold | hnew
    · exact hw.rows name hold
    · simp only [List.mem_cons, List.not_mem_nil, or_false] at hnew
      rcases hnew with rfl | rfl
      · exact hsegment
      · exact hindex

/-- A persisted segment brings its two names. -/
theorem World.Plain.persistSegmentAt (hw : w.Plain pathFrom) {partition : PartitionKey}
    {name : SegmentName} {records : List SpanRecord} {fault : Option SegmentFault}
    (hnames : w.plainNames pathFrom (.persist partition name records fault)) :
    (w.persistSegmentAt x pathFrom partition name records fault).1.Plain pathFrom := by
  cases records with
  | nil => exact hw
  | cons first records =>
    obtain ⟨hsegment, hindex⟩ := hnames
    rw [World.persistSegmentAt]
    split
    · exact hw
    split
    · exact hw
    have hput := hw.put hsegment (.segment (first :: records))
    dsimp only
    split
    · exact hput
    have hboth := hput.put hindex (.searchIndex (first :: records))
    split
    · exact hboth
    · exact hboth.commitSegment partition hsegment hindex (first :: records) fault

/-- Deletions and transactions bring no new names. -/
theorem World.Plain.of_subset {w' : World} (hw : w.Plain pathFrom)
    (hobjects : ∀ path : String, w'.objects[path]?.isSome → w.objects[path]?.isSome)
    (hrows : w'.rowUris ⊆ w.rowUris) : w'.Plain pathFrom :=
  ⟨fun path hpath => hw.objects path (hobjects path hpath), fun uri huri => hw.rows uri (hrows huri)⟩

theorem World.Plain.foldl_deleteIfExists (hw : w.Plain pathFrom) (uris : List String) :
    (uris.foldl (World.deleteIfExists pathFrom) w).Plain pathFrom := by
  apply hw.of_subset
  · intro path hpath
    rw [(World.foldl_deleteIfExists _ _ _).2] at hpath
    split at hpath
    · cases hpath
    · exact hpath
  · intro uri huri
    rwa [World.rowUris, (World.foldl_deleteIfExists _ _ uri).1] at huri

/-- Marks leave the names of a row. -/
theorem Db.objectUris_mark (db : Db) (rows : List (Nat × TraceSegment)) (nowUnixNano : Int) :
    ({ db with traceSegments := rows.foldl (fun segments row =>
        segments.modify row.1 fun segment =>
          { segment with objectDeletedAtUnixNano := some nowUnixNano }) db.traceSegments } :
      Db).objectUris ⊆ db.objectUris := by
  intro uri huri
  obtain ⟨row, hrow, hname⟩ := List.mem_flatMap.1 huri
  have hget := Table.get_foldl_modify db.traceSegments rows Prod.fst
    (fun _ segment => { segment with objectDeletedAtUnixNano := some nowUnixNano })
    TraceSegment.uris (fun _ _ => rfl) row.1
  rw [TreeMap.mem_toList_iff_getElem?_eq_some.1 hrow, Option.map_some, eq_comm,
    Option.map_eq_some_iff] at hget
  obtain ⟨segment, hsegment, huris⟩ := hget
  exact List.mem_flatMap.2 ⟨(row.1, segment), TreeMap.mem_toList_iff_getElem?_eq_some.2 hsegment,
    huris ▸ hname⟩

theorem World.Plain.orphanStep {w' : World} {action : OrphanAction} (hw : w.Plain pathFrom)
    (hnames : w.plainNames pathFrom action) (hstep : w.orphanStep x pathFrom action = some w') :
    w'.Plain pathFrom := by
  cases action with
  | persist partition name records fault =>
    cases hstep
    exact hw.persistSegmentAt hnames
  | change db =>
    rw [World.orphanStep] at hstep
    split at hstep
    next hsubset =>
      cases hstep
      exact hw.of_subset (fun _ => id) hsubset
    · cases hstep
  | cleanupCompacted cutoffUnixNano nowUnixNano dryRun =>
    cases hstep
    rw [World.cleanupCompactedObjects]
    split
    · exact hw
    · exact (hw.foldl_deleteIfExists _).of_subset (fun _ => id)
        (Db.objectUris_mark _ _ nowUnixNano)
  | cleanupOrphaned dryRun =>
    cases hstep
    rw [World.cleanupOrphanedObjects]
    split
    · exact hw
    · exact hw.foldl_deleteIfExists _

/-- In every state of a run whose segments have plain names, orphan detection is exact. -/
theorem orphan_detection_exact (x : Externals) (pathFrom : String → String)
    (actions : List OrphanAction) (w : World)
    (hrun : Transition.run (World.orphanStep x pathFrom) .empty actions = some w)
    (hnames : Transition.Meets (World.orphanStep x pathFrom) (World.plainNames pathFrom) .empty
      actions) :
    w.OrphansExact pathFrom := by
  have hempty : World.empty.Plain pathFrom := by
    constructor
    · intro path hpath
      cases hpath
    · intro uri huri
      cases huri
  apply World.Plain.orphansExact
  exact Transition.run_invariant (fun w : World => w.Plain pathFrom)
    (fun _ _ _ hw hnames hstep => hw.orphanStep hnames hstep) hempty hnames hrun

end orphans

/-- Percent signs encoded, as in a path. -/
def encodePercent (uri : String) : String :=
  String.ofList (uri.toList.flatMap fun c => if c = '%' then ['%', '2', '5'] else [c])

/-- A segment whose search index is not written, and one that is committed. -/
def persistTwice (projectName : String) : List OrphanAction :=
  [.persist ⟨projectName, 0⟩ ⟨1, 1⟩
      [{ SpanRecord.sample "t" "s" "a" .«end» 10 30 with projectName }] (some .putSearchIndex),
    .persist ⟨projectName, 0⟩ ⟨2, 2⟩
      [{ SpanRecord.sample "t" "s" "a" .«end» 10 30 with projectName }] none]

theorem orphan_detection_exact_sample : ∃ w,
    Transition.run (World.orphanStep .sample encodePercent) .empty (persistTwice "p") = some w ∧
      (w.cleanupOrphanedObjects encodePercent true).2.candidates = [sampleSegmentUri] ∧
      w.OrphansExact encodePercent := by
  have hrun : (Transition.run (World.orphanStep .sample encodePercent) .empty
      (persistTwice "p")).map (fun w =>
        (w.cleanupOrphanedObjects encodePercent true).2.candidates) = some [sampleSegmentUri] := by
    decide +kernel
  obtain ⟨w, hw, hcandidates⟩ := Option.map_eq_some_iff.1 hrun
  refine ⟨w, hw, hcandidates, orphan_detection_exact .sample encodePercent _ w hw ?_⟩
  decide +kernel

/-- The objects of a project whose name has a blank are all reported, and none of them is
deleted. -/
theorem orphan_detection_fails : ∃ w,
    Transition.run (World.orphanStep .sample encodePercent) .empty (persistTwice "a b") = some w ∧
      (w.cleanupOrphanedObjects encodePercent true).2.candidates =
        ["projects/a%2520b/time-buckets/0/trace-segments/1-1-t.vortex",
          "projects/a%2520b/time-buckets/0/trace-segments/2-2-t.search.fst",
          "projects/a%2520b/time-buckets/0/trace-segments/2-2-t.vortex"] ∧
      (w.cleanupOrphanedObjects encodePercent false).1.objects.keys = w.objects.keys ∧
      w.db.referencedUris = ["projects/a%20b/time-buckets/0/trace-segments/2-2-t.vortex",
        "projects/a%20b/time-buckets/0/trace-segments/2-2-t.search.fst"] ∧
      ¬ w.OrphansExact encodePercent := by
  have hrun : (Transition.run (World.orphanStep .sample encodePercent) .empty
      (persistTwice "a b")).map (fun w =>
        ((w.cleanupOrphanedObjects encodePercent true).2.candidates,
          decide ((w.cleanupOrphanedObjects encodePercent false).1.objects.keys = w.objects.keys),
          w.db.referencedUris)) =
      some (["projects/a%2520b/time-buckets/0/trace-segments/1-1-t.vortex",
          "projects/a%2520b/time-buckets/0/trace-segments/2-2-t.search.fst",
          "projects/a%2520b/time-buckets/0/trace-segments/2-2-t.vortex"], true,
        ["projects/a%20b/time-buckets/0/trace-segments/2-2-t.vortex",
          "projects/a%20b/time-buckets/0/trace-segments/2-2-t.search.fst"]) := by
    decide +kernel
  obtain ⟨w, hw, hfacts⟩ := Option.map_eq_some_iff.1 hrun
  obtain ⟨hcandidates, hfacts⟩ := Prod.mk.inj hfacts
  obtain ⟨hkeys, hreferenced⟩ := Prod.mk.inj hfacts
  refine ⟨w, hw, hcandidates, of_decide_eq_true hkeys, hreferenced, fun hexact => ?_⟩
  have hcandidate := (hexact.candidates
    "projects/a%2520b/time-buckets/0/trace-segments/2-2-t.vortex").1 (by
      rw [hcandidates]
      decide)
  exact hcandidate.2 ⟨"projects/a%20b/time-buckets/0/trace-segments/2-2-t.vortex", by
    rw [hreferenced]
    exact List.mem_cons_self, by decide +kernel⟩

end KevinDb
