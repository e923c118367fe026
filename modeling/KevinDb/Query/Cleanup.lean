import KevinDb.Lib.Sweep
import KevinDb.Store

namespace KevinDb
set_option autoImplicit true

/-- Where an execution of `persist_segment` stands: both objects are encoded, the segment is put,
or the search index is put too. -/
inductive PersistStage where
  | encoded
  | segmentPut
  | searchIndexPut
deriving DecidableEq, Repr

structure PersistExecution where
  partition : PartitionKey
  segmentUri : String
  records : List SpanRecord
  stage : PersistStage
deriving DecidableEq

def PersistExecution.searchIndexUri (persist : PersistExecution) : String :=
  searchIndexUriForSegment persist.segmentUri

/-- The objects that the execution writes. -/
def PersistExecution.uris (persist : PersistExecution) : List String :=
  [persist.segmentUri, persist.searchIndexUri]

/-- The objects that the execution has written. -/
def PersistExecution.written (persist : PersistExecution) : List String :=
  match persist.stage with
  | .encoded => []
  | .segmentPut => [persist.segmentUri]
  | .searchIndexPut => persist.uris

/-- Where an execution of `cleanup_orphaned_objects` stands. The two columns of URIs are read in
two statements, and the objects come in pages. -/
inductive CleanupStage where
  | started
  | segmentsLoaded (referenced : List String)
  | listing (referenced candidates : List String)
  | deleting (candidates : List String)
deriving DecidableEq, Repr

structure OrphanCleanup where
  dryRun : Bool
  stage : CleanupStage
deriving DecidableEq, Repr

/-- The objects that the execution is going to delete, as far as it knows them. -/
def OrphanCleanup.doomed (cleanup : OrphanCleanup) : List String :=
  match cleanup.stage with
  | .listing _ candidates => if cleanup.dryRun then [] else candidates
  | .deleting candidates => candidates
  | _ => []

/-- The names of the objects of a row of `trace_segments`. -/
def TraceSegment.uris (segment : TraceSegment) : List String :=
  segment.uri :: segment.searchIndexUri.toList

/-- The names of objects in committed rows of `trace_segments`. -/
def World.rowUris (w : World) : List String :=
  w.db.traceSegments.toList.flatMap fun row => row.2.uris

/-- The rows whose objects are not marked as deleted. -/
def Db.keptSegments (db : Db) : List TraceSegment :=
  (db.traceSegments.toList.map Prod.snd).filter fun segment =>
    segment.objectDeletedAtUnixNano.isNone

/-- The first statement of `load_referenced_object_uris`. -/
def Db.referencedSegmentUris (db : Db) : List String :=
  db.keptSegments.map TraceSegment.uri

/-- The second statement of `load_referenced_object_uris`. -/
def Db.referencedSearchIndexUris (db : Db) : List String :=
  db.keptSegments.filterMap TraceSegment.searchIndexUri

/-- The steps of an execution of `persist_segment` after its encoding. A put or a connection that
fails ends it, and so does the commit. -/
inductive PersistStep where
  | putSegment
  | putSearchIndex
  | commit (fault : Option SegmentFault)
  | fail
deriving DecidableEq, Repr

/-- The store after a step, and what becomes of the execution. -/
def PersistExecution.step (x : Externals) (w : World) (persist : PersistExecution) :
    PersistStep → Option (World × Option PersistExecution)
  | .putSegment =>
    if persist.stage = .encoded then
      some (w.putSegment persist.segmentUri persist.records,
        some { persist with stage := .segmentPut })
    else none
  | .putSearchIndex =>
    if persist.stage = .segmentPut then
      some (w.putSearchIndex persist.searchIndexUri persist.records,
        some { persist with stage := .searchIndexPut })
    else none
  | .commit fault =>
    if persist.stage = .searchIndexPut then
      some ((w.commitSegment x persist.partition persist.segmentUri persist.records fault).1, none)
    else none
  | .fail => some (w, none)

/-- The steps of an execution, one after another, are `persist_segment`. -/
theorem World.persistSegment_eq_steps (x : Externals) (w : World) (partition : PartitionKey)
    (name : SegmentName) (first : SpanRecord) (records : List SpanRecord)
    (fault : Option SegmentFault) (hvalid : validatePartitionRecords partition (first :: records))
    (hfault : fault ∈ [none, some .metadata, some .commit]) :
    ∃ w₁ w₂ put both,
      PersistExecution.step x w
        ⟨partition, segmentUri partition name first, first :: records, .encoded⟩ .putSegment =
        some (w₁, some put) ∧
      put.step x w₁ .putSearchIndex = some (w₂, some both) ∧
      both.step x w₂ (.commit fault) =
        some ((w.persistSegment x partition name (first :: records) fault).1, none) := by
  refine ⟨_, _, _, _, rfl, rfl, ?_⟩
  simp only [List.mem_cons, List.not_mem_nil, or_false] at hfault
  rcases hfault with rfl | rfl | rfl
  all_goals
    simp [PersistExecution.step, World.persistSegment, hvalid, PersistExecution.searchIndexUri]

/-- The steps of an execution of `cleanup_orphaned_objects`. -/
inductive CleanupStep where
  | loadSegmentUris
  | loadSearchIndexUris
  | listObjects (uris : List String)
  | endListing
  | deleteObject
  | fail
deriving DecidableEq, Repr

/-- The store after a step, and what becomes of the execution. A page lists objects that are
there. -/
def OrphanCleanup.step (w : World) (cleanup : OrphanCleanup) :
    CleanupStep → Option (World × Option OrphanCleanup)
  | .loadSegmentUris =>
    match cleanup.stage with
    | .started =>
      some (w, some { cleanup with stage := .segmentsLoaded w.db.referencedSegmentUris })
    | _ => none
  | .loadSearchIndexUris =>
    match cleanup.stage with
    | .segmentsLoaded referenced =>
      some (w, some { cleanup with
        stage := .listing (referenced ++ w.db.referencedSearchIndexUris) [] })
    | _ => none
  | .listObjects uris =>
    match cleanup.stage with
    | .listing referenced candidates =>
      if ∀ uri ∈ uris, w.objects[uri]?.isSome then
        some (w, some { cleanup with
          stage := .listing referenced (candidates ++ uris.filter fun uri => uri ∉ referenced) })
      else none
    | _ => none
  | .endListing =>
    match cleanup.stage with
    | .listing _ candidates =>
      if cleanup.dryRun then some (w, none)
      else some (w, some { cleanup with
        stage := .deleting (candidates.insertionSort fun left right => left ≤ right) })
    | _ => none
  | .deleteObject =>
    match cleanup.stage with
    | .deleting (uri :: candidates) =>
      some ({ w with objects := w.objects.erase uri },
        some { cleanup with stage := .deleting candidates })
    | _ => none
  | .fail => some (w, none)

/-- The store with the executions of `persist_segment` and `cleanup_orphaned_objects` in
progress, and the names drawn for objects so far. -/
structure CleanupSystem where
  world : World
  used : List String
  persists : List PersistExecution
  cleanups : List OrphanCleanup

def CleanupSystem.initial : CleanupSystem := ⟨.empty, [], [], []⟩

/-- The steps of the system. An execution is named by its position. -/
inductive CleanupAction where
  | beginPersist (partition : PartitionKey) (name : SegmentName) (records : List SpanRecord)
  | persist (i : Nat) (step : PersistStep)
  | beginCleanup (dryRun : Bool)
  | cleanup (i : Nat) (step : CleanupStep)

/-- `persist_segment` up to its encoding, with a name that was never drawn. -/
def CleanupSystem.beginPersist (s : CleanupSystem) (partition : PartitionKey) (name : SegmentName) :
    List SpanRecord → Option CleanupSystem
  | [] => none
  | first :: records =>
    let persist : PersistExecution :=
      ⟨partition, segmentUri partition name first, first :: records, .encoded⟩
    if validatePartitionRecords partition persist.records ∧ ∀ uri ∈ persist.uris, uri ∉ s.used then
      some { s with used := persist.uris ++ s.used, persists := s.persists ++ [persist] }
    else none

def CleanupSystem.step (x : Externals) (s : CleanupSystem) : CleanupAction → Option CleanupSystem
  | .beginPersist partition name records => s.beginPersist partition name records
  | .persist i step => do
    let persist ← s.persists[i]?
    let (world, next) ← persist.step x s.world step
    some { s with world, persists := Transition.replace s.persists i next }
  | .beginCleanup dryRun => some { s with cleanups := s.cleanups ++ [⟨dryRun, .started⟩] }
  | .cleanup i step => do
    let cleanup ← s.cleanups[i]?
    let (world, next) ← cleanup.step s.world step
    some { s with world, cleanups := Transition.replace s.cleanups i next }

/-- The objects of a page that the execution is going to delete. -/
def OrphanCleanup.picked (cleanup : OrphanCleanup) (uris : List String) : List String :=
  match cleanup.stage with
  | .listing referenced _ => if cleanup.dryRun then [] else uris.filter fun uri => uri ∉ referenced
  | _ => []

/-- An object that a cleanup picks for deletion is an orphan: no committed row names it, and no
execution of `persist_segment` in progress writes it. -/
def CleanupSystem.picksOrphans (s : CleanupSystem) : CleanupAction → Prop
  | .cleanup i (.listObjects uris) => ∀ cleanup ∈ s.cleanups[i]?, ∀ uri ∈ cleanup.picked uris,
      uri ∉ s.world.rowUris ∧ ∀ persist ∈ s.persists, uri ∉ persist.uris
  | _ => True

instance (s : CleanupSystem) : ∀ action, Decidable (s.picksOrphans action)
  | .cleanup i (.listObjects uris) =>
    inferInstanceAs (Decidable (∀ cleanup ∈ s.cleanups[i]?, ∀ uri ∈ cleanup.picked uris,
      uri ∉ s.world.rowUris ∧ ∀ persist ∈ s.persists, uri ∉ persist.uris))
  | .cleanup _ .loadSegmentUris | .cleanup _ .loadSearchIndexUris | .cleanup _ .endListing
  | .cleanup _ .deleteObject | .cleanup _ .fail | .beginPersist _ _ _ | .persist _ _
  | .beginCleanup _ => .isTrue True.intro

/-- Committed rows and executions of `persist_segment` count on their objects. -/
def CleanupSystem.sweep (s : CleanupSystem) : Sweep String where
  used := {uri | uri ∈ s.used}
  claimed := {uri | uri ∈ s.world.rowUris ∨ ∃ persist ∈ s.persists, uri ∈ persist.uris}
  written := {uri | uri ∈ s.world.rowUris ∨ ∃ persist ∈ s.persists, uri ∈ persist.written}
  stored := {uri | s.world.objects[uri]?.isSome}
  doomed := {uri | ∃ cleanup ∈ s.cleanups, uri ∈ cleanup.doomed}

theorem CleanupSystem.stored_insert (objects : Table String StoredObject) (uri : String)
    (object : StoredObject) :
    {name | (objects.insert uri object)[name]?.isSome} =
      insert uri {name | objects[name]?.isSome} := by
  ext name
  simp only [Table.get_insert, Set.mem_ofPred_eq, Set.mem_insert_iff]
  split
  next he => simp [he]
  next hne => simp [Ne.symm hne]

theorem PersistExecution.written_subset (persist : PersistExecution) :
    persist.written ⊆ persist.uris := by
  unfold PersistExecution.written
  split
  · exact List.nil_subset _
  · exact List.cons_subset_cons _ (List.nil_subset _)
  · exact List.Subset.refl _

theorem CleanupSystem.written_claimed (s : CleanupSystem) : s.sweep.written ⊆ s.sweep.claimed := by
  intro uri huri
  rcases huri with hrow | ⟨persist, hpersist, hmem⟩
  · exact .inl hrow
  · exact .inr ⟨persist, hpersist, persist.written_subset hmem⟩

theorem World.mem_rowUris {w : World} :
    uri ∈ w.rowUris ↔ ∃ (id : Nat) (segment : TraceSegment),
      w.db.traceSegments[id]? = some segment ∧ uri ∈ segment.uris := by
  unfold World.rowUris
  simp only [List.mem_flatMap, Prod.exists, Std.TreeMap.mem_toList_iff_getElem?_eq_some]

theorem Db.persistRows_traceSegments (x : Externals) (segmentId : Nat) (db : Db) (rowIndex : Nat)
    (records : List SpanRecord) (traces : List (String × String)) :
    (db.persistRows x segmentId rowIndex records traces).1.traceSegments = db.traceSegments := by
  induction records generalizing db rowIndex traces with
  | nil => rfl
  | cons record records ih =>
    rw [Db.persistRows]
    split
    · rfl
    · exact ih _ _ _

theorem Db.foldl_refresh_traceSegments (x : Externals) (db : Db) (traces : List (String × String)) :
    (traces.foldl (fun db trace => db.refreshTraceTreeMetadata x trace.1 trace.2) db).traceSegments =
      db.traceSegments := by
  induction traces generalizing db with
  | nil => rfl
  | cons trace traces ih => exact ih _

/-- The transaction of a segment adds its row, under a new id. -/
theorem Db.persistMetadata_traceSegments
    (h : Db.persistMetadata x db partition uri searchIndexUri records = some (db', inserted)) :
    ∃ projectName, db'.traceSegments = db.traceSegments.insert db.nextTraceSegmentId
      (.ofRecords projectName partition uri searchIndexUri records) := by
  rw [Db.persistMetadata, Option.map_eq_some_iff] at h
  obtain ⟨first, -, h⟩ := h
  have hrows := Db.persistRows_traceSegments x db.nextTraceSegmentId
    (db.insertTraceSegment (.ofRecords first.projectName partition uri searchIndexUri records)) 0
    records []
  refine ⟨first.projectName, ?_⟩
  dsimp only at h
  split at h
  next db₁ hrun =>
    rw [hrun] at hrows
    cases h
    exact hrows
  next db₁ traces hrun =>
    rw [hrun] at hrows
    cases h
    rw [Db.foldl_refresh_traceSegments]
    exact hrows

/-- A commit leaves the objects alone, and its row names the two objects of the segment. -/
theorem World.commitSegment_rowUris (x : Externals) (w : World) (partition : PartitionKey)
    (uri : String) (records : List SpanRecord) (fault : Option SegmentFault) :
    (w.commitSegment x partition uri records fault).1.objects = w.objects ∧
      ∀ name ∈ (w.commitSegment x partition uri records fault).1.rowUris,
        name ∈ w.rowUris ∨ name ∈ [uri, searchIndexUriForSegment uri] := by
  unfold World.commitSegment
  split
  · exact ⟨rfl, fun _ h => .inl h⟩
  next db inserted hpersist =>
    split
    · exact ⟨rfl, fun _ h => .inl h⟩
    split
    · exact ⟨rfl, fun _ h => .inl h⟩
    split
    · exact ⟨rfl, fun _ h => .inl h⟩
    refine ⟨rfl, ?_⟩
    intro name hname
    obtain ⟨id, segment, hsegment, hmem⟩ := World.mem_rowUris.1 hname
    obtain ⟨projectName, hrows⟩ := Db.persistMetadata_traceSegments hpersist
    dsimp only at hsegment
    rw [hrows, Table.get_insert] at hsegment
    split at hsegment
    · cases hsegment
      exact .inr hmem
    · exact .inl (World.mem_rowUris.2 ⟨id, segment, hsegment, hmem⟩)

/-- The store after a step of an execution of `persist_segment`. -/
def CleanupSystem.persisted (s : CleanupSystem) (i : Nat) (world : World)
    (next : Option PersistExecution) : CleanupSystem :=
  { s with world, persists := Transition.replace s.persists i next }

theorem CleanupSystem.claimed_persisted {s : CleanupSystem}
    (hrows : ∀ uri ∈ w'.rowUris, uri ∈ s.sweep.claimed)
    (hnext : ∀ persist, next = some persist → ∀ uri ∈ persist.uris, uri ∈ s.sweep.claimed) :
    (s.persisted i w' next).sweep.claimed ⊆ s.sweep.claimed := by
  intro uri huri
  rcases huri with hrow | ⟨persist, hpersist, hmem⟩
  · exact hrows uri hrow
  rcases Transition.mem_replace hpersist with hold | hnew
  · exact .inr ⟨persist, hold, hmem⟩
  · exact hnext persist hnew uri hmem

theorem CleanupSystem.written_persisted {s : CleanupSystem} {names : Set String}
    (hwritten : s.sweep.written ⊆ names) (hrows : ∀ uri ∈ w'.rowUris, uri ∈ names)
    (hnext : ∀ persist, next = some persist → ∀ uri ∈ persist.written, uri ∈ names) :
    (s.persisted i w' next).sweep.written ⊆ names := by
  intro uri huri
  rcases huri with hrow | ⟨persist, hpersist, hmem⟩
  · exact hrows uri hrow
  rcases Transition.mem_replace hpersist with hold | hnew
  · exact hwritten (.inr ⟨persist, hold, hmem⟩)
  · exact hnext persist hnew uri hmem

/-- A step of an execution of `persist_segment` puts an object of its own, or lets go of names. -/
theorem PersistExecution.step_sweep {s : CleanupSystem} (hpersist : persist ∈ s.persists)
    (h : PersistExecution.step x s.world persist action = some (world, next)) :
    s.sweep.Step (s.persisted i world next).sweep := by
  have hclaim : ∀ uri ∈ persist.uris, uri ∈ s.sweep.claimed :=
    fun uri huri => .inr ⟨persist, hpersist, huri⟩
  have hwrite : ∀ uri ∈ persist.written, uri ∈ s.sweep.written :=
    fun uri huri => .inr ⟨persist, hpersist, huri⟩
  cases action with
  | putSegment =>
    simp only [PersistExecution.step, Option.ite_none_right_eq_some, Option.some.injEq,
      Prod.mk.injEq] at h
    obtain ⟨hstage, rfl, rfl⟩ := h
    apply Sweep.Step.put persist.segmentUri
    · exact CleanupSystem.stored_insert s.world.objects _ _
    · exact hclaim _ List.mem_cons_self
    · apply CleanupSystem.claimed_persisted (fun uri hrow => .inl hrow)
      intro new hnew
      cases hnew
      exact hclaim
    · apply CleanupSystem.written_persisted (Set.subset_insert _ _)
      · exact fun uri hrow => .inr (.inl hrow)
      · intro new hnew uri huri
        cases hnew
        exact .inl (List.mem_singleton.1 huri)
    · exact CleanupSystem.written_claimed _
  | putSearchIndex =>
    simp only [PersistExecution.step, Option.ite_none_right_eq_some, Option.some.injEq,
      Prod.mk.injEq] at h
    obtain ⟨hstage, rfl, rfl⟩ := h
    apply Sweep.Step.put persist.searchIndexUri
    · exact CleanupSystem.stored_insert s.world.objects _ _
    · exact hclaim _ (List.mem_cons_of_mem _ List.mem_cons_self)
    · apply CleanupSystem.claimed_persisted (fun uri hrow => .inl hrow)
      intro new hnew
      cases hnew
      exact hclaim
    · apply CleanupSystem.written_persisted (Set.subset_insert _ _)
      · exact fun uri hrow => .inr (.inl hrow)
      · intro new hnew uri huri
        cases hnew
        rcases List.mem_cons.1 huri with rfl | huri
        · apply Set.mem_insert_of_mem
          apply hwrite
          rw [PersistExecution.written, hstage]
          exact List.mem_cons_self
        · exact .inl (List.mem_singleton.1 huri)
    · exact CleanupSystem.written_claimed _
  | commit fault =>
    simp only [PersistExecution.step, Option.ite_none_right_eq_some, Option.some.injEq,
      Prod.mk.injEq] at h
    obtain ⟨hstage, rfl, rfl⟩ := h
    obtain ⟨hobjects, hrows⟩ := World.commitSegment_rowUris x s.world persist.partition
      persist.segmentUri persist.records fault
    have hnames : persist.uris = persist.written := by rw [PersistExecution.written, hstage]
    have hrows : ∀ uri ∈ (s.world.commitSegment x persist.partition persist.segmentUri
        persist.records fault).1.rowUris, uri ∈ s.sweep.written := by
      intro uri huri
      rcases hrows uri huri with hold | hnew
      · exact .inl hold
      · exact hwrite uri (hnames ▸ hnew)
    have hstored : ∀ world, world.objects = s.world.objects →
        (s.persisted i world none).sweep = { s.sweep with
          claimed := (s.persisted i world none).sweep.claimed
          written := (s.persisted i world none).sweep.written } := by
      intro world hworld
      simp only [CleanupSystem.sweep, CleanupSystem.persisted, hworld]
    rw [hstored _ hobjects]
    apply Sweep.Step.release
    · apply CleanupSystem.claimed_persisted
      · exact fun uri huri => s.written_claimed (hrows uri huri)
      · exact fun _ hnew => nomatch hnew
    · apply CleanupSystem.written_persisted (Set.Subset.refl _) hrows
      exact fun _ hnew => nomatch hnew
    · exact CleanupSystem.written_claimed _
  | fail =>
    cases h
    apply Sweep.Step.release
    · apply CleanupSystem.claimed_persisted (fun uri hrow => .inl hrow)
      exact fun _ hnew => nomatch hnew
    · apply CleanupSystem.written_persisted (Set.Subset.refl _) (fun uri hrow => .inl hrow)
      exact fun _ hnew => nomatch hnew
    · exact CleanupSystem.written_claimed _

/-- The store after a step of an execution of `cleanup_orphaned_objects`. -/
def CleanupSystem.cleaned (s : CleanupSystem) (i : Nat) (world : World)
    (next : Option OrphanCleanup) : CleanupSystem :=
  { s with world, cleanups := Transition.replace s.cleanups i next }

theorem CleanupSystem.doomed_cleaned {s : CleanupSystem} {names : Set String}
    (hdoomed : s.sweep.doomed ⊆ names)
    (hnext : ∀ cleanup, next = some cleanup → ∀ uri ∈ cleanup.doomed, uri ∈ names) :
    (s.cleaned i w' next).sweep.doomed ⊆ names := by
  intro uri huri
  obtain ⟨cleanup, hcleanup, hmem⟩ := huri
  rcases Transition.mem_replace hcleanup with hold | hnew
  · exact hdoomed ⟨cleanup, hold, hmem⟩
  · exact hnext cleanup hnew uri hmem

/-- A step that leaves the store alone and picks nothing for deletion. -/
theorem CleanupSystem.sweep_step_cleaned {s : CleanupSystem}
    (hnext : ∀ cleanup, next = some cleanup → ∀ uri ∈ cleanup.doomed, uri ∈ s.sweep.doomed) :
    s.sweep.Step (s.cleaned i s.world next).sweep := by
  apply Sweep.Step.doom ∅
  · exact Set.empty_subset _
  · exact Set.empty_disjoint _
  · rw [Set.empty_union]
    exact CleanupSystem.doomed_cleaned (Set.Subset.refl _) hnext

theorem CleanupSystem.stored_erase (objects : Table String StoredObject) (uri : String) :
    {name | (objects.erase uri)[name]?.isSome} = {name | objects[name]?.isSome} \ {uri} := by
  ext name
  simp only [Table.get_erase, Set.mem_ofPred_eq, Set.mem_sdiff, Set.mem_singleton_iff]
  split
  next he => simp [he]
  next hne => simp [Ne.symm hne]

theorem OrphanCleanup.step_sweep {s : CleanupSystem} (hi : s.cleanups[i]? = some cleanup)
    (hcond : s.picksOrphans (.cleanup i action))
    (h : OrphanCleanup.step s.world cleanup action = some (world, next)) :
    s.sweep.Step (s.cleaned i world next).sweep := by
  have hdoom : ∀ uri ∈ cleanup.doomed, uri ∈ s.sweep.doomed :=
    fun uri huri => ⟨cleanup, List.mem_of_getElem? hi, huri⟩
  cases action with
  | loadSegmentUris =>
    simp only [OrphanCleanup.step] at h
    split at h
    · cases h
      apply CleanupSystem.sweep_step_cleaned
      intro new hnew uri huri
      cases hnew
      cases huri
    · cases h
  | loadSearchIndexUris =>
    simp only [OrphanCleanup.step] at h
    split at h
    · cases h
      apply CleanupSystem.sweep_step_cleaned
      intro new hnew uri huri
      cases hnew
      simp only [OrphanCleanup.doomed, ite_self] at huri
      cases huri
    · cases h
  | listObjects uris =>
    simp only [OrphanCleanup.step] at h
    split at h
    next referenced candidates hstage =>
      simp only [Option.ite_none_right_eq_some, Option.some.injEq, Prod.mk.injEq] at h
      obtain ⟨hthere, rfl, rfl⟩ := h
      have hpicked : ∀ uri ∈ cleanup.picked uris, uri ∈ uris := by
        intro uri huri
        rw [OrphanCleanup.picked, hstage] at huri
        dsimp only at huri
        split at huri
        · cases huri
        · exact (List.mem_filter.1 huri).1
      apply Sweep.Step.doom {uri | uri ∈ cleanup.picked uris}
      · exact fun uri huri => hthere uri (hpicked uri huri)
      · rw [Set.disjoint_left]
        intro uri huri hclaimed
        obtain ⟨hrow, hpersist⟩ := hcond cleanup hi uri huri
        rcases hclaimed with hmem | ⟨persist, hp, hmem⟩
        · exact hrow hmem
        · exact hpersist persist hp hmem
      · apply CleanupSystem.doomed_cleaned Set.subset_union_right
        intro new hnew uri huri
        cases hnew
        simp only [OrphanCleanup.doomed, OrphanCleanup.picked, hstage] at huri hdoom ⊢
        split at huri
        · cases huri
        next hrun =>
          rw [if_neg hrun] at hdoom ⊢
          rcases List.mem_append.1 huri with huri | huri
          · exact .inr (hdoom uri huri)
          · exact .inl huri
    · cases h
  | endListing =>
    simp only [OrphanCleanup.step] at h
    split at h
    next referenced candidates hstage =>
      split at h
      · cases h
        exact CleanupSystem.sweep_step_cleaned fun _ hnew => nomatch hnew
      next hrun =>
        cases h
        apply CleanupSystem.sweep_step_cleaned
        intro new hnew uri huri
        cases hnew
        apply hdoom
        rw [OrphanCleanup.doomed, hstage]
        dsimp only
        rw [if_neg hrun]
        exact (List.mem_insertionSort _).1 huri
    · cases h
  | deleteObject =>
    simp only [OrphanCleanup.step] at h
    split at h
    next uri candidates hstage =>
      cases h
      rw [OrphanCleanup.doomed, hstage] at hdoom
      apply Sweep.Step.remove uri
      · exact CleanupSystem.stored_erase s.world.objects uri
      · exact hdoom uri List.mem_cons_self
      · apply CleanupSystem.doomed_cleaned (Set.Subset.refl _)
        intro new hnew other hother
        cases hnew
        exact hdoom other (List.mem_cons_of_mem _ hother)
    · cases h
  | fail =>
    cases h
    exact CleanupSystem.sweep_step_cleaned fun _ hnew => nomatch hnew

theorem CleanupSystem.beginPersist_sweep {s s' : CleanupSystem}
    (h : s.beginPersist partition name records = some s') : s.sweep.Step s'.sweep := by
  cases records with
  | nil => cases h
  | cons first records =>
    simp only [CleanupSystem.beginPersist, Option.ite_none_right_eq_some, Option.some.injEq] at h
    obtain ⟨⟨-, hfresh⟩, rfl⟩ := h
    generalize hpersist : PersistExecution.mk partition (segmentUri partition name first)
      (first :: records) .encoded = persist at hfresh ⊢
    have hwritten : persist.written = [] := by rw [← hpersist]; rfl
    apply Sweep.Step.claim {uri | uri ∈ persist.uris}
    · ext uri
      exact List.mem_append
    · rw [Set.disjoint_left]
      exact hfresh
    · rintro uri (hrow | ⟨other, hother, hmem⟩)
      · exact .inr (.inl hrow)
      rcases List.mem_append.1 hother with hother | hnew
      · exact .inr (.inr ⟨other, hother, hmem⟩)
      · rw [List.mem_singleton.1 hnew] at hmem
        exact .inl hmem
    · rintro uri (hrow | ⟨other, hother, hmem⟩)
      · exact .inl hrow
      rcases List.mem_append.1 hother with hother | hnew
      · exact .inr ⟨other, hother, hmem⟩
      · rw [List.mem_singleton.1 hnew, hwritten] at hmem
        cases hmem
    · exact CleanupSystem.written_claimed _

/-- While cleanups pick orphans only, a step of the system is a step of the sweep. -/
theorem CleanupSystem.step_sweep (x : Externals) (s : CleanupSystem) (action : CleanupAction)
    (s' : CleanupSystem) (hcond : s.picksOrphans action) (h : s.step x action = some s') :
    s.sweep.Step s'.sweep := by
  cases action with
  | beginPersist partition name records => exact CleanupSystem.beginPersist_sweep h
  | persist i step =>
    simp only [CleanupSystem.step, Option.bind_eq_bind, Option.bind_eq_some_iff,
      Option.some.injEq] at h
    obtain ⟨persist, hi, ⟨world, next⟩, hstep, rfl⟩ := h
    exact PersistExecution.step_sweep (List.mem_of_getElem? hi) hstep
  | beginCleanup dryRun =>
    cases h
    apply Sweep.Step.doom ∅
    · exact Set.empty_subset _
    · exact Set.empty_disjoint _
    · rintro uri ⟨cleanup, hcleanup, hmem⟩
      rcases List.mem_append.1 hcleanup with hold | hnew
      · exact .inr ⟨cleanup, hold, hmem⟩
      · rw [List.mem_singleton.1 hnew] at hmem
        cases hmem
  | cleanup i step =>
    simp only [CleanupSystem.step, Option.bind_eq_bind, Option.bind_eq_some_iff,
      Option.some.injEq] at h
    obtain ⟨cleanup, hi, ⟨world, next⟩, hstep, rfl⟩ := h
    exact OrphanCleanup.step_sweep hi hcond hstep

theorem CleanupSystem.initial_safe : CleanupSystem.initial.sweep.Safe := by
  constructor
  · rintro uri (hrow | ⟨persist, hpersist, -⟩)
    · cases hrow
    · cases hpersist
  · exact CleanupSystem.written_claimed _
  · rintro uri (hrow | ⟨persist, hpersist, -⟩)
    · cases hrow
    · cases hpersist
  · intro uri huri
    cases huri
  · rintro uri ⟨cleanup, hcleanup, -⟩
    cases hcleanup
  · rw [Set.disjoint_left]
    rintro uri ⟨cleanup, hcleanup, -⟩
    cases hcleanup

/-- While cleanups pick orphans only, every object that a committed row names is there. -/
theorem orphan_cleanup_keeps_segments (x : Externals) (actions : List CleanupAction)
    (s : CleanupSystem)
    (h : Transition.run (CleanupSystem.step x) .initial actions = some s)
    (hcond : Transition.Meets (CleanupSystem.step x) CleanupSystem.picksOrphans .initial actions)
    (id : Nat) (segment : TraceSegment) (hid : s.world.db.traceSegments[id]? = some segment)
    (uri : String) (huri : uri ∈ segment.uris) : s.world.objects[uri]?.isSome := by
  have hsafe : s.sweep.Safe := by
    refine Transition.run_invariant (fun s => s.sweep.Safe) ?_ CleanupSystem.initial_safe hcond h
    intro s action s' hs hcond hstep
    exact hs.step (CleanupSystem.step_sweep x s action s' hcond hstep)
  exact hsafe.written_stored (.inl (World.mem_rowUris.2 ⟨id, segment, hid, huri⟩))

/-- The name that the first segment of the runs below is written under. -/
def sampleSegmentUri : String :=
  "projects/p/time-buckets/0/trace-segments/1-1-t.vortex"

def sampleSearchIndexUri : String :=
  "projects/p/time-buckets/0/trace-segments/1-1-t.search.fst"

/-- A segment whose write fails after the first object, a segment that is committed, and a cleanup
that deletes what the failure left. -/
def cleanUpFailedPersist : List CleanupAction :=
  [.beginPersist ⟨"p", 0⟩ ⟨1, 1⟩ [.sample "t" "s" "a" .«end» 10 30],
    .beginPersist ⟨"p", 0⟩ ⟨2, 2⟩ [.sample "t" "s" "a" .«end» 10 30],
    .persist 0 .putSegment, .persist 1 .putSegment, .persist 0 .fail, .persist 0 .putSearchIndex,
    .persist 0 (.commit none), .beginCleanup false, .cleanup 0 .loadSegmentUris,
    .cleanup 0 .loadSearchIndexUris,
    .cleanup 0 (.listObjects [sampleSegmentUri,
      "projects/p/time-buckets/0/trace-segments/2-2-t.vortex",
      "projects/p/time-buckets/0/trace-segments/2-2-t.search.fst"]),
    .cleanup 0 .endListing, .cleanup 0 .deleteObject]

theorem orphan_cleanup_keeps_segments_sample :
    ∃ s segment, Transition.run (CleanupSystem.step .sample) .initial cleanUpFailedPersist = some s ∧
      s.world.db.traceSegments[(1 : Nat)]? = some segment ∧
      s.world.objects[sampleSegmentUri]? = none ∧ s.world.objects[segment.uri]?.isSome := by
  have hrun : (Transition.run (CleanupSystem.step .sample) .initial cleanUpFailedPersist).map
      (fun s => (s.world.db.traceSegments[(1 : Nat)]?.map TraceSegment.uri,
        s.world.objects[sampleSegmentUri]?)) =
      some (some "projects/p/time-buckets/0/trace-segments/2-2-t.vortex", none) := by
    decide +kernel
  have hcond : Transition.Meets (CleanupSystem.step .sample) CleanupSystem.picksOrphans .initial
      cleanUpFailedPersist := by
    decide +kernel
  obtain ⟨s, hs, hrow⟩ := Option.map_eq_some_iff.1 hrun
  obtain ⟨hsegment, hgone⟩ := Prod.mk.inj hrow
  obtain ⟨segment, hsegment, -⟩ := Option.map_eq_some_iff.1 hsegment
  exact ⟨s, segment, hs, hsegment, hgone,
    orphan_cleanup_keeps_segments .sample _ s hs hcond 1 segment hsegment _ List.mem_cons_self⟩

/-- A cleanup that lists the objects of a segment before the segment is committed, and deletes
them afterwards. -/
def cleanUpDuringPersist : List CleanupAction :=
  [.beginPersist ⟨"p", 0⟩ ⟨1, 1⟩ [.sample "t" "s" "a" .«end» 10 30],
    .persist 0 .putSegment, .persist 0 .putSearchIndex, .beginCleanup false,
    .cleanup 0 .loadSegmentUris, .cleanup 0 .loadSearchIndexUris,
    .cleanup 0 (.listObjects [sampleSearchIndexUri, sampleSegmentUri]), .cleanup 0 .endListing,
    .persist 0 (.commit none), .cleanup 0 .deleteObject, .cleanup 0 .deleteObject]

/-- A cleanup deletes the objects of a segment that is being written. -/
theorem orphan_cleanup_loses_segments :
    ¬ ∀ (actions : List CleanupAction) (s : CleanupSystem),
      Transition.run (CleanupSystem.step .sample) .initial actions = some s →
      ∀ (id : Nat) (segment : TraceSegment), s.world.db.traceSegments[id]? = some segment →
        ∀ uri ∈ segment.uris, s.world.objects[uri]?.isSome := by
  intro hkeeps
  have hrun : (Transition.run (CleanupSystem.step .sample) .initial cleanUpDuringPersist).map
      (fun s => (s.world.db.traceSegments[(1 : Nat)]?.map TraceSegment.uri,
        s.world.objects[sampleSegmentUri]?)) =
      some (some sampleSegmentUri, none) := by
    decide +kernel
  obtain ⟨s, hs, hrow⟩ := Option.map_eq_some_iff.1 hrun
  obtain ⟨hsegment, hgone⟩ := Prod.mk.inj hrow
  obtain ⟨segment, hsegment, huri⟩ := Option.map_eq_some_iff.1 hsegment
  have hthere := hkeeps _ s hs 1 segment hsegment segment.uri List.mem_cons_self
  rw [huri, hgone] at hthere
  cases hthere

end KevinDb
