import KevinDb.Ingest.Persist

namespace KevinDb
set_option autoImplicit true

/-- A head without the columns that the tree refresh rewrites. -/
def RunHead.forgetTree (head : RunHead) : RunHead :=
  { head with isRoot := false, rootRunId := "", rootSpanId := "" }

theorem Db.refreshTraceTreeMetadata_runHeads (x : Externals) (db : Db) (p t : String)
    (k : RunKey) :
    (db.refreshTraceTreeMetadata x p t).runHeads[k]?.map RunHead.forgetTree =
      db.runHeads[k]?.map RunHead.forgetTree := by
  unfold Db.refreshTraceTreeMetadata
  apply Table.get_foldl_modify
  intro node head
  rfl

/-- The elementary changes that writing a segment is made of. The events it inserts are among
those that `writes` allows, and they name rows of segments in use. -/
inductive World.Change (x : Externals) (writes : Nat → SpanRecord → Prop) :
    World → World → Prop
  | put (w : World) (uri : String) (object : StoredObject)
      (hfree : w.objects[uri]? = none) :
      Change x writes w { w with objects := w.objects.insert uri object }
  | insertSegment (w : World) (segment : TraceSegment) (records : List SpanRecord)
      (hactive : segment.compactedAtUnixNano = none)
      (hobject : w.objects[segment.uri]? = some (.segment records))
      (hproject : ∀ record ∈ records, record.projectName = segment.projectName) :
      Change x writes w { w with db := w.db.insertTraceSegment segment }
  | event (w : World) (segmentId rowIndex : Nat) (record : SpanRecord) (segment : TraceSegment)
      (hwrites : writes segmentId record)
      (hsegment : w.db.traceSegments[segmentId]? = some segment)
      (hactive : segment.compactedAtUnixNano = none)
      (hrow : w.rowAt segmentId rowIndex = some record)
      (hkey : ¬ w.db.hasEventKey record.eventKey) :
      Change x writes w { w with db := (w.db.applyEvent x segmentId rowIndex record).1 }
  | refresh (w : World) (projectName traceId : String) :
      Change x writes w { w with db := w.db.refreshTraceTreeMetadata x projectName traceId }
  | skip (w : World) (segments events : Nat)
      (hsegments : w.db.nextTraceSegmentId ≤ segments) (hevents : w.db.nextRunEventId ≤ events) :
      Change x writes w { w with db := { w.db with
        nextTraceSegmentId := segments
        nextRunEventId := events } }

abbrev World.Changes (x : Externals) (writes : Nat → SpanRecord → Prop) :
    World → World → Prop :=
  Relation.ReflTransGen (World.Change x writes)

/-- The changes of a write of records: its events are of these records, in new segments. -/
abbrev World.Writes (x : Externals) (records : List SpanRecord) (w w' : World) : Prop :=
  World.Changes x (fun id record => w.db.nextTraceSegmentId ≤ id ∧ record ∈ records) w w'

theorem World.Changes.invariant (inv : World → Prop)
    (hstep : ∀ w w', inv w → World.Change x writes w w' → inv w')
    (h : World.Changes x writes w w') (hw : inv w) : inv w' := by
  induction h with
  | refl => exact hw
  | tail _ hlast ih => exact hstep _ _ ih hlast

theorem Db.persistRows_counters (x : Externals) (segmentId : Nat) (db : Db) (rowIndex : Nat)
    (records : List SpanRecord) (traces : List (String × String)) :
    (db.persistRows x segmentId rowIndex records traces).1.nextTraceSegmentId =
        db.nextTraceSegmentId ∧
      db.nextRunEventId ≤ (db.persistRows x segmentId rowIndex records traces).1.nextRunEventId := by
  induction records generalizing db rowIndex traces with
  | nil => exact ⟨rfl, le_rfl⟩
  | cons record records ih =>
    rw [Db.persistRows]
    split
    · exact ⟨rfl, Nat.le_succ _⟩
    · obtain ⟨hs, he⟩ := ih (db.applyEvent x segmentId rowIndex record).1 (rowIndex + 1)
        (if (db.applyEvent x segmentId rowIndex record).2 then
          traces.insert (record.projectName, record.traceId) else traces)
      exact ⟨hs, (Nat.le_succ _).trans he⟩

theorem Db.foldl_refresh_counters (x : Externals) (db : Db) (traces : List (String × String)) :
    (traces.foldl (fun db trace => db.refreshTraceTreeMetadata x trace.1 trace.2) db).nextTraceSegmentId
        = db.nextTraceSegmentId ∧
      (traces.foldl (fun db trace => db.refreshTraceTreeMetadata x trace.1 trace.2) db).nextRunEventId
        = db.nextRunEventId := by
  induction traces generalizing db with
  | nil => exact ⟨rfl, rfl⟩
  | cons trace traces ih => exact ih (db.refreshTraceTreeMetadata x trace.1 trace.2)

theorem Db.persistMetadata_counters
    (h : Db.persistMetadata x db partition uri searchUri records = some (db', inserted)) :
    db.nextTraceSegmentId ≤ db'.nextTraceSegmentId ∧ db.nextRunEventId ≤ db'.nextRunEventId := by
  obtain ⟨first, -, h⟩ := Option.map_eq_some_iff.1 h
  have hc := Db.persistRows_counters x db.nextTraceSegmentId
    (db.insertTraceSegment (.ofRecords first.projectName partition uri searchUri records)) 0
    records []
  rw [show (db.insertTraceSegment _).nextTraceSegmentId = db.nextTraceSegmentId + 1 from rfl,
    show (db.insertTraceSegment _).nextRunEventId = db.nextRunEventId from rfl] at hc
  dsimp only at h
  split at h
  next db₁ hrows =>
    rw [hrows] at hc
    cases h
    exact ⟨(Nat.le_succ _).trans hc.1.ge, hc.2⟩
  next db₁ traces hrows =>
    rw [hrows] at hc
    obtain ⟨hs, he⟩ := Db.foldl_refresh_counters x db₁ traces
    cases h
    exact ⟨(Nat.le_succ _).trans (hc.1.ge.trans hs.ge), hc.2.trans he.ge⟩

theorem World.rollback_changes (x : Externals) (writes : Nat → SpanRecord → Prop) (w : World)
    (db : Db)
    (h : w.db.nextTraceSegmentId ≤ db.nextTraceSegmentId ∧
      w.db.nextRunEventId ≤ db.nextRunEventId) :
    World.Changes x writes w { w with db := w.db.rollback db } :=
  .single (.skip w _ _ h.1 h.2)

theorem World.persistRows_changes (w : World) {segment : TraceSegment}
    (hwrites : ∀ record ∈ records, writes segmentId record)
    (hsegment : w.db.traceSegments[segmentId]? = some segment)
    (hactive : segment.compactedAtUnixNano = none)
    (hobject : w.objects[segment.uri]? = some (.segment stored))
    (hrows : stored.drop rowIndex = records)
    (h : w.db.persistRows x segmentId rowIndex records traces = (db', some traces')) :
    World.Changes x writes w { w with db := db' } := by
  induction records generalizing w rowIndex traces with
  | nil =>
    cases h
    exact .refl
  | cons record records ih =>
    rw [Db.persistRows] at h
    split at h
    · cases h
    next hkey =>
      have hrow : w.rowAt segmentId rowIndex = some record := by
        have hget : stored[rowIndex]? = some record := by
          rw [← List.head?_drop, hrows]
          rfl
        simp [World.rowAt, hsegment, hobject, hget]
      refine .head (.event w segmentId rowIndex record segment
        (hwrites record List.mem_cons_self) hsegment hactive hrow hkey) ?_
      refine ih { w with db := (w.db.applyEvent x segmentId rowIndex record).1 }
        (fun r hr => hwrites r (List.mem_cons_of_mem _ hr)) hsegment hobject ?_ h
      rw [← List.tail_drop, hrows]
      rfl

theorem World.foldl_refresh_changes (w : World) (traces : List (String × String)) :
    World.Changes x writes w { w with
      db := traces.foldl (fun db trace => db.refreshTraceTreeMetadata x trace.1 trace.2) w.db } := by
  induction traces generalizing w with
  | nil => exact .refl
  | cons trace traces ih =>
    exact .head (.refresh w trace.1 trace.2)
      (ih { w with db := w.db.refreshTraceTreeMetadata x trace.1 trace.2 })

theorem searchIndexUriForSegment_ne (uri : String) : searchIndexUriForSegment uri ≠ uri := by
  intro h
  unfold searchIndexUriForSegment at h
  have h := congrArg String.toList h
  dsimp only at h
  split at h
  next hs =>
    rw [List.isSuffixOf_iff_suffix] at hs
    obtain ⟨stem, hstem⟩ := hs
    rw [← hstem] at h
    have hlast := congrArg List.getLast? h
    simp at hlast
  next =>
    have hlen := congrArg List.length h
    simp at hlen

/-- The events of the rows of a segment from `rowIndex` on, with ids from `eventId` on. -/
def rowEvents (segmentId rowIndex eventId : Nat) : List SpanRecord → List RunEvent
  | [] => []
  | record :: records =>
    RunEvent.ofRecord record segmentId rowIndex eventId ::
      rowEvents segmentId (rowIndex + 1) (eventId + 1) records

theorem mem_rowEvents (h : event ∈ rowEvents segmentId rowIndex eventId records) :
    ∃ record ∈ records, ∃ i j, eventId ≤ j ∧ event = RunEvent.ofRecord record segmentId i j := by
  induction records generalizing rowIndex eventId with
  | nil => cases h
  | cons record records ih =>
    rcases List.mem_cons.1 h with rfl | h
    · exact ⟨record, List.mem_cons_self, rowIndex, eventId, le_rfl, rfl⟩
    · obtain ⟨r, hr, i, j, hj, he⟩ := ih h
      exact ⟨r, List.mem_cons_of_mem _ hr, i, j, (Nat.le_succ _).trans hj, he⟩

theorem exists_mem_rowEvents (segmentId rowIndex eventId : Nat) (h : record ∈ records) :
    ∃ i j, eventId ≤ j ∧
      RunEvent.ofRecord record segmentId i j ∈ rowEvents segmentId rowIndex eventId records := by
  induction records generalizing rowIndex eventId with
  | nil => cases h
  | cons first records ih =>
    rcases List.mem_cons.1 h with rfl | h
    · exact ⟨rowIndex, eventId, le_rfl, List.mem_cons_self⟩
    · obtain ⟨i, j, hj, hm⟩ := ih (rowIndex + 1) (eventId + 1) h
      exact ⟨i, j, (Nat.le_succ _).trans hj, List.mem_cons_of_mem _ hm⟩

theorem map_eventKey_rowEvents :
    (rowEvents segmentId rowIndex eventId records).map RunEvent.eventKey =
      records.map SpanRecord.eventKey := by
  induction records generalizing rowIndex eventId with
  | nil => rfl
  | cons record records ih => exact congrArg _ ih

theorem Db.hasEventKey_append (db : Db) {db' : Db} (h : db'.runEvents = db.runEvents ++ events) :
    db'.hasEventKey key ↔ db.hasEventKey key ∨ ∃ event ∈ events, event.eventKey = key := by
  simp only [Db.hasEventKey, h, List.mem_append, or_and_right, exists_or]

theorem Db.persistRows_runEvents
    (h : Db.persistRows x segmentId db rowIndex records traces = (db', some traces')) :
    db'.runEvents = db.runEvents ++ rowEvents segmentId rowIndex db.nextRunEventId records := by
  induction records generalizing db rowIndex traces with
  | nil =>
    cases h
    exact (List.append_nil _).symm
  | cons record records ih =>
    rw [Db.persistRows] at h
    split at h
    · cases h
    · rw [ih h, rowEvents]
      simp

/-- The keys of the records are new and differ from each other. -/
def Db.accepts (db : Db) (records : List SpanRecord) : Prop :=
  (records.map SpanRecord.eventKey).Nodup ∧ ∀ record ∈ records, ¬ db.hasEventKey record.eventKey

instance (db : Db) (records : List SpanRecord) : Decidable (db.accepts records) :=
  inferInstanceAs (Decidable (_ ∧ _))

theorem Db.persistRows_isSome (x : Externals) (segmentId : Nat) (db : Db) (rowIndex : Nat)
    (records : List SpanRecord) (traces : List (String × String)) :
    (Db.persistRows x segmentId db rowIndex records traces).2.isSome = true ↔
      db.accepts records := by
  unfold Db.accepts
  induction records generalizing db rowIndex traces with
  | nil => simp [Db.persistRows]
  | cons record records ih =>
    have hkeys : ∀ key, (db.applyEvent x segmentId rowIndex record).1.hasEventKey key ↔
        db.hasEventKey key ∨ record.eventKey = key := by
      intro key
      rw [Db.hasEventKey_append db rfl]
      simp [RunEvent.ofRecord, RunEvent.eventKey, SpanRecord.eventKey]
    rw [Db.persistRows]
    split
    next hkey => simp [hkey]
    next hkey =>
      rw [ih]
      simp only [hkeys, List.map_cons, List.nodup_cons, List.mem_map, List.forall_mem_cons, hkey,
        not_or, not_false_eq_true, true_and]
      constructor
      · rintro ⟨hnodup, hnew⟩
        exact ⟨⟨fun ⟨r, hr, he⟩ => (hnew r hr).2 he.symm, hnodup⟩, fun r hr => (hnew r hr).1⟩
      · rintro ⟨⟨hfresh, hnodup⟩, hnew⟩
        exact ⟨hnodup, fun r hr => ⟨hnew r hr, fun he => hfresh ⟨r, hr, he.symm⟩⟩⟩

theorem Db.foldl_refresh_runEvents (x : Externals) (db : Db) (traces : List (String × String)) :
    (traces.foldl (fun db trace => db.refreshTraceTreeMetadata x trace.1 trace.2) db).runEvents =
      db.runEvents := by
  induction traces generalizing db with
  | nil => rfl
  | cons trace traces ih => exact ih (db.refreshTraceTreeMetadata x trace.1 trace.2)

theorem Db.persistMetadata_runEvents
    (h : Db.persistMetadata x db partition uri searchUri records = some (db', true)) :
    db'.runEvents =
      db.runEvents ++ rowEvents db.nextTraceSegmentId 0 db.nextRunEventId records := by
  obtain ⟨first, -, h⟩ := Option.map_eq_some_iff.1 h
  dsimp only at h
  split at h
  · cases h
  next db₁ traces hrows =>
    cases h
    rw [Db.foldl_refresh_runEvents, Db.persistRows_runEvents hrows]
    rfl

theorem Db.persistMetadata_inserted
    (h : Db.persistMetadata x db partition uri searchUri records = some (db', inserted)) :
    inserted = true ↔ db.accepts records := by
  obtain ⟨first, -, h⟩ := Option.map_eq_some_iff.1 h
  have hrows := Db.persistRows_isSome x db.nextTraceSegmentId
    (db.insertTraceSegment (.ofRecords first.projectName partition uri searchUri records)) 0
    records []
  rw [show (db.insertTraceSegment _).accepts = db.accepts from rfl] at hrows
  rw [← hrows]
  dsimp only at h
  split at h
  next hnone =>
    cases h
    rw [hnone]
    exact Iff.rfl
  next traces hsome =>
    cases h
    rw [hsome]
    exact Iff.rfl

/-- The names of the two objects are not in use. Clock and sequence are in every name. -/
def World.nameFree (w : World) (partition : PartitionKey) (name : SegmentName) :
    List SpanRecord → Prop
  | [] => True
  | first :: _ =>
    w.objects[segmentUri partition name first]? = none ∧
      w.objects[searchIndexUriForSegment (segmentUri partition name first)]? = none

instance (w : World) (partition : PartitionKey) (name : SegmentName) (records : List SpanRecord) :
    Decidable (w.nameFree partition name records) := by
  cases records <;> unfold World.nameFree <;> infer_instance

theorem validatePartitionRecords_eq_true :
    validatePartitionRecords partition records = true ↔
      ∀ record ∈ records, recordPartitionKey record = partition := by
  simp [validatePartitionRecords]

theorem World.persistMetadata_changes (w : World)
    (hobject : w.objects[uri]? = some (.segment records))
    (hvalid : validatePartitionRecords partition records = true)
    (h : w.db.persistMetadata x partition uri searchUri records = some (db', true)) :
    World.Writes x records w { w with db := db' } := by
  obtain ⟨first, hfirst, h⟩ := Option.map_eq_some_iff.1 h
  rw [validatePartitionRecords_eq_true] at hvalid
  have hproject : ∀ record ∈ records, record.projectName = first.projectName := by
    intro record hrecord
    have hf := hvalid first (List.mem_of_mem_head? hfirst)
    exact congrArg PartitionKey.projectName ((hvalid record hrecord).trans hf.symm)
  dsimp only at h
  split at h
  · cases h
  next db₁ traces hrows =>
    cases h
    let segment := TraceSegment.ofRecords first.projectName partition uri searchUri records
    have hsegment : (w.db.insertTraceSegment segment).traceSegments[w.db.nextTraceSegmentId]? =
        some segment := (Table.get_insert _ _ _ _).trans (if_pos rfl)
    refine .head (.insertSegment w segment records rfl hobject hproject) ?_
    refine (World.persistRows_changes { w with db := w.db.insertTraceSegment segment }
      (fun record hrecord => ⟨le_rfl, hrecord⟩) hsegment rfl hobject List.drop_zero hrows).trans ?_
    exact World.foldl_refresh_changes { w with db := db₁ } traces

/-- The records that a write of a segment commits: all or none. -/
def Db.committed (db : Db) (partition : PartitionKey) (records : List SpanRecord)
    (fault : Option SegmentFault) : List SpanRecord :=
  if fault = none ∧ validatePartitionRecords partition records ∧ db.accepts records then records
  else []

theorem Db.committed_subset : Db.committed db partition records fault ⊆ records := by
  unfold Db.committed
  split
  · exact List.Subset.refl _
  · exact List.nil_subset _

theorem World.commitSegment_changes (w : World)
    (hobject : w.objects[uri]? = some (.segment records))
    (hvalid : validatePartitionRecords partition records = true)
    (hfault : fault = none ∨ fault = some .metadata ∨ fault = some .commit) :
    World.Writes x (w.db.committed partition records fault) w
      (w.commitSegment x partition uri records fault).1 := by
  unfold World.commitSegment
  split
  · exact .refl
  next db inserted hmeta =>
    have hback := World.rollback_changes x
      (fun id record => w.db.nextTraceSegmentId ≤ id ∧
        record ∈ w.db.committed partition records fault) w db (Db.persistMetadata_counters hmeta)
    split
    · exact hback
    next hmetadata =>
      split
      · exact hback
      next hinserted =>
        split
        · exact hback
        next hcommit =>
          rw [Bool.not_eq_true, Bool.not_eq_false'] at hinserted
          have hnone := hfault.resolve_right (not_or.2 ⟨hmetadata, hcommit⟩)
          rw [Db.committed, if_pos ⟨hnone, hvalid, (Db.persistMetadata_inserted hmeta).1 hinserted⟩]
          exact World.persistMetadata_changes w hobject hvalid (hinserted ▸ hmeta)

/-- Writing a segment, whatever call of it fails, is a sequence of elementary changes. -/
theorem World.persistSegment_changes (w : World) (hfree : w.nameFree partition name records) :
    World.Writes x (w.db.committed partition records fault) w
      (w.persistSegment x partition name records fault).1 := by
  unfold World.persistSegment
  split
  · exact .refl
  next first rest =>
    obtain ⟨hseg, hsearch⟩ := hfree
    split
    · exact .refl
    next hvalid =>
      rw [Bool.not_eq_true, Bool.not_eq_false'] at hvalid
      split
      · exact .refl
      next hencode =>
      refine .head (.put w _ (.segment (first :: rest)) hseg) ?_
      dsimp only
      split
      · exact .refl
      next hindex =>
      have hne := searchIndexUriForSegment_ne (segmentUri partition name first)
      let put := w.putSegment (segmentUri partition name first) (first :: rest)
      refine .head (.put put (searchIndexUriForSegment (segmentUri partition name first))
        (.searchIndex (first :: rest)) ?_) ?_
      · exact (Table.get_insert _ _ _ _).trans ((if_neg hne.symm).trans hsearch)
      split
      · exact .refl
      next hconnect =>
      have hobject : (put.putSearchIndex (searchIndexUriForSegment (segmentUri partition name first))
          (first :: rest)).objects[segmentUri partition name first]? =
          some (.segment (first :: rest)) := by
        rw [World.putSearchIndex, Table.get_insert, if_neg hne]
        exact (Table.get_insert _ _ _ _).trans (if_pos rfl)
      refine World.commitSegment_changes _ hobject hvalid ?_
      rw [not_or] at hencode
      cases fault with
      | none => exact .inl rfl
      | some fault => cases fault <;> simp_all

theorem World.commitSegment_result (w : World) (x : Externals) (partition : PartitionKey)
    (uri : String) (records : List SpanRecord) (fault : Option SegmentFault) :
    ((∃ db, (w.commitSegment x partition uri records fault).1.db = w.db.rollback db) ∧
      ((w.commitSegment x partition uri records fault).2 = .error records ∨
        (w.commitSegment x partition uri records fault).2 = .ok (.duplicateConflict records))) ∨
    ((w.commitSegment x partition uri records fault).2 = .ok (.written ⟨uri, records.length⟩) ∧
      (w.commitSegment x partition uri records fault).1.db.runEvents =
        w.db.runEvents ++ rowEvents w.db.nextTraceSegmentId 0 w.db.nextRunEventId records) := by
  unfold World.commitSegment
  split
  · exact .inl ⟨⟨w.db, rfl⟩, .inl rfl⟩
  next db inserted hmeta =>
    split
    · exact .inl ⟨⟨db, rfl⟩, .inl rfl⟩
    split
    · refine .inl ⟨⟨db, rfl⟩, ?_⟩
      dsimp only
      split
      · exact .inl rfl
      · exact .inr rfl
    next hinserted =>
      rw [Bool.not_eq_true, Bool.not_eq_false'] at hinserted
      split
      · exact .inl ⟨⟨db, rfl⟩, .inl rfl⟩
      · exact .inr ⟨rfl, Db.persistMetadata_runEvents (hinserted ▸ hmeta)⟩

/-- A segment is either not written, and then the tables are as before and the records are
handed back, or the events of all its rows are committed. -/
theorem World.persistSegment_result (w : World) (x : Externals) (partition : PartitionKey)
    (name : SegmentName) (records : List SpanRecord) (fault : Option SegmentFault) :
    ((∃ db, (w.persistSegment x partition name records fault).1.db = w.db.rollback db) ∧
      ((w.persistSegment x partition name records fault).2 = .error records ∨
        (w.persistSegment x partition name records fault).2 =
          .ok (.duplicateConflict records))) ∨
    ((∃ receipt, (w.persistSegment x partition name records fault).2 = .ok (.written receipt)) ∧
      (w.persistSegment x partition name records fault).1.db.runEvents =
        w.db.runEvents ++ rowEvents w.db.nextTraceSegmentId 0 w.db.nextRunEventId records) := by
  unfold World.persistSegment
  split
  · exact .inl ⟨⟨w.db, rfl⟩, .inl rfl⟩
  split
  · exact .inl ⟨⟨w.db, rfl⟩, .inl rfl⟩
  split
  · exact .inl ⟨⟨w.db, rfl⟩, .inl rfl⟩
  dsimp only
  split
  · exact .inl ⟨⟨w.db, rfl⟩, .inl rfl⟩
  split
  · exact .inl ⟨⟨w.db, rfl⟩, .inl rfl⟩
  · refine (World.commitSegment_result _ x partition _ _ fault).imp id ?_
    rintro ⟨hresult, hevents⟩
    exact ⟨⟨_, hresult⟩, hevents⟩

theorem World.persistSegment_written
    (h : World.persistSegment x w partition name records fault = (w', .ok (.written receipt))) :
    w'.db.runEvents =
      w.db.runEvents ++ rowEvents w.db.nextTraceSegmentId 0 w.db.nextRunEventId records := by
  have hresult := World.persistSegment_result w x partition name records fault
  rw [h] at hresult
  rcases hresult with ⟨-, h | h⟩ | ⟨-, hevents⟩
  · cases h
  · cases h
  · exact hevents

theorem World.persistSegment_conflict
    (h : World.persistSegment x w partition name records fault =
      (w', .ok (.duplicateConflict kept))) :
    kept = records ∧ ∃ db, w'.db = w.db.rollback db := by
  have hresult := World.persistSegment_result w x partition name records fault
  rw [h] at hresult
  rcases hresult with ⟨hdb, h | h⟩ | ⟨⟨_, h⟩, -⟩
  · cases h
  · cases h
    exact ⟨rfl, hdb⟩
  · cases h

theorem World.persistSegment_error
    (h : World.persistSegment x w partition name records fault = (w', .error kept)) :
    kept = records ∧ ∃ db, w'.db = w.db.rollback db := by
  have hresult := World.persistSegment_result w x partition name records fault
  rw [h] at hresult
  rcases hresult with ⟨hdb, h | h⟩ | ⟨⟨_, h⟩, -⟩
  · cases h
    exact ⟨rfl, hdb⟩
  · cases h
  · cases h

theorem filterDuplicateRecords_sublist (db : Db) (records : List SpanRecord) :
    (filterDuplicateRecords db records).Sublist records := by
  unfold filterDuplicateRecords
  split
  · exact .slnil
  · exact List.filter_sublist

/-- A record that the filter drops has a committed key. -/
theorem filterDuplicateRecords_dropped (hproject : ∀ r ∈ records, r.projectName = project)
    (hrecord : record ∈ records) (hdropped : record ∉ filterDuplicateRecords db records) :
    db.hasEventKey record.eventKey := by
  cases records with
  | nil => cases hrecord
  | cons first rest =>
    have hfirst : first.projectName = record.projectName :=
      (hproject first List.mem_cons_self).trans (hproject record hrecord).symm
    rw [filterDuplicateRecords, List.mem_filter] at hdropped
    by_contra hfree
    rw [SpanRecord.eventKey, ← hfirst] at hfree
    exact hdropped ⟨hrecord, decide_eq_true hfree⟩

/-- What a turn of `persist_partition_records` can do. -/
inductive World.TurnResult (x : Externals) (maxSpansPerSegment : Nat) (w : World)
    (partition : PartitionKey) (name : SegmentName) (fault : Option TurnFault)
    (remaining : List SpanRecord) : World → Turn → Prop
  | unfiltered (hfault : fault = some .filter) :
      TurnResult x maxSpansPerSegment w partition name fault remaining w (.failed remaining)
  | finished (hnone : filterDuplicateRecords w.db remaining = []) :
      TurnResult x maxSpansPerSegment w partition name fault remaining w .finished
  | written (window rest : List SpanRecord) (w' : World) (receipt : FlushReceipt)
      (hfault : fault ≠ some .filter)
      (hwindow : window = (filterDuplicateRecords w.db remaining).take (max maxSpansPerSegment 1))
      (hsplit : filterDuplicateRecords w.db remaining = window ++ rest)
      (hpersist : w.persistSegment x partition name window (TurnFault.inSegment fault) =
        (w', .ok (.written receipt)))
      (hevents : w'.db.runEvents =
        w.db.runEvents ++ rowEvents w.db.nextTraceSegmentId 0 w.db.nextRunEventId window) :
      TurnResult x maxSpansPerSegment w partition name fault remaining w'
        (.continued (some receipt) rest)
  | kept (window : List SpanRecord) (w' : World) (db : Db)
      (hfault : fault ≠ some .filter)
      (hwindow : window = (filterDuplicateRecords w.db remaining).take (max maxSpansPerSegment 1))
      (hpersist : w.persistSegment x partition name window (TurnFault.inSegment fault) =
        (w', .ok (.duplicateConflict window)))
      (hdb : w'.db = w.db.rollback db) :
      TurnResult x maxSpansPerSegment w partition name fault remaining w'
        (.continued none (filterDuplicateRecords w.db remaining))
  | failed (window : List SpanRecord) (w' : World) (db : Db)
      (hfault : fault ≠ some .filter)
      (hwindow : window = (filterDuplicateRecords w.db remaining).take (max maxSpansPerSegment 1))
      (hpersist : w.persistSegment x partition name window (TurnFault.inSegment fault) =
        (w', .error window))
      (hdb : w'.db = w.db.rollback db) :
      TurnResult x maxSpansPerSegment w partition name fault remaining w'
        (.failed (filterDuplicateRecords w.db remaining))

theorem World.persistTurn_result (x : Externals) (maxSpansPerSegment : Nat) (w : World)
    (partition : PartitionKey) (name : SegmentName) (fault : Option TurnFault)
    (remaining : List SpanRecord) :
    World.TurnResult x maxSpansPerSegment w partition name fault remaining
      (w.persistTurn x maxSpansPerSegment partition name fault remaining).1
      (w.persistTurn x maxSpansPerSegment partition name fault remaining).2 := by
  unfold World.persistTurn
  split
  next hfault => exact .unfiltered hfault.1
  next hfilter =>
  dsimp only
  split
  next hnone => exact .finished hnone
  next hne =>
    have hfault : fault ≠ some .filter := by
      rintro rfl
      refine hfilter ⟨rfl, ?_⟩
      rintro rfl
      exact hne rfl
    have hwindow : ∀ filtered : List SpanRecord,
        filtered.take (min (max maxSpansPerSegment 1) filtered.length) =
          filtered.take (max maxSpansPerSegment 1) := by
      intro filtered
      rw [← List.take_take, List.take_length]
    have hsplit := fun count => List.take_append_drop count (filterDuplicateRecords w.db remaining)
    split
    next w' receipt hp =>
      exact .written _ _ w' receipt hfault (hwindow _) (hsplit _).symm hp
        (World.persistSegment_written hp)
    next w' records hp =>
      obtain ⟨rfl, db, hdb⟩ := World.persistSegment_conflict hp
      rw [hsplit]
      exact .kept _ w' db hfault (hwindow _) hp hdb
    next w' records hp =>
      obtain ⟨rfl, db, hdb⟩ := World.persistSegment_error hp
      rw [hsplit]
      exact .failed _ w' db hfault (hwindow _) hp hdb

theorem World.nameFree_take {w : World} (h : w.nameFree partition name records) (hn : 0 < n) :
    w.nameFree partition name (records.take n) := by
  cases records with
  | nil =>
    rw [List.take_nil]
    exact h
  | cons first rest =>
    cases n with
    | zero => cases hn
    | succ n => exact h

/-- The records that a turn commits. -/
def Db.turnCommitted (db : Db) (maxSpansPerSegment : Nat) (partition : PartitionKey)
    (fault : Option TurnFault) (remaining : List SpanRecord) : List SpanRecord :=
  if fault = some .filter then []
  else
    db.committed partition ((filterDuplicateRecords db remaining).take (max maxSpansPerSegment 1))
      (TurnFault.inSegment fault)

theorem World.TurnResult.writes
    (h : World.TurnResult x maxSpansPerSegment w partition name fault records w' turn)
    (hfree : w.nameFree partition name (filterDuplicateRecords w.db records)) :
    World.Writes x (w.db.turnCommitted maxSpansPerSegment partition fault records) w w' := by
  have hpos : 0 < max maxSpansPerSegment 1 := Nat.lt_of_lt_of_le Nat.zero_lt_one (le_max_right _ _)
  have hwrites : World.Writes x _ w
      (w.persistSegment x partition name _ (TurnFault.inSegment fault)).1 :=
    World.persistSegment_changes w (World.nameFree_take hfree hpos)
  cases h with
  | unfiltered => exact .refl
  | finished => exact .refl
  | written window rest _ receipt hfault hwindow hsplit hpersist hevents =>
    rw [← hwindow, hpersist] at hwrites
    rw [Db.turnCommitted, if_neg hfault, ← hwindow]
    exact hwrites
  | kept window _ db hfault hwindow hpersist hdb =>
    rw [← hwindow, hpersist] at hwrites
    rw [Db.turnCommitted, if_neg hfault, ← hwindow]
    exact hwrites
  | failed window _ db hfault hwindow hpersist hdb =>
    rw [← hwindow, hpersist] at hwrites
    rw [Db.turnCommitted, if_neg hfault, ← hwindow]
    exact hwrites

theorem Db.turnCommitted_subset :
    Db.turnCommitted db maxSpansPerSegment partition fault remaining ⊆
      filterDuplicateRecords db remaining := by
  unfold Db.turnCommitted
  split
  · exact List.nil_subset _
  · exact List.Subset.trans Db.committed_subset (List.take_subset _ _)

/-- What a transaction that commits the records makes of the tables: they stay, up to the sequences,
or are those after `persist_metadata`. -/
inductive Db.CommitResult (x : Externals) (db : Db) (records : List SpanRecord) (db' : Db) : Prop
  | same (other : Db) (hdb : db' = db.rollback other)
  | committed (partition : PartitionKey) (uri searchUri : String)
      (hmetadata : db.persistMetadata x partition uri searchUri records = some (db', true))

theorem World.persistSegment_commit (x : Externals) (w : World) (partition : PartitionKey)
    (name : SegmentName) (records : List SpanRecord) (fault : Option SegmentFault) :
    w.db.CommitResult x (w.db.committed partition records fault)
      (w.persistSegment x partition name records fault).1.db := by
  have hsame : ∀ committed, w.db.CommitResult x committed w.db := fun _ => .same w.db rfl
  unfold World.persistSegment
  split
  · exact hsame _
  next first rest =>
    split
    · exact hsame _
    next hvalid =>
      rw [Bool.not_eq_true, Bool.not_eq_false'] at hvalid
      split
      · exact hsame _
      next hencode =>
      dsimp only
      split
      · exact hsame _
      next hindex =>
      split
      · exact hsame _
      next hconnect =>
      unfold World.commitSegment
      split
      · exact hsame _
      next db inserted hmeta =>
        split
        · exact .same db rfl
        next hmetadata =>
          split
          · exact .same db rfl
          next hinserted =>
            split
            · exact .same db rfl
            next hcommit =>
              rw [Bool.not_eq_true, Bool.not_eq_false'] at hinserted
              subst hinserted
              have hnone : fault = none := by
                rw [not_or] at hencode
                cases fault with
                | none => rfl
                | some fault => cases fault <;> simp_all
              rw [Db.committed, if_pos ⟨hnone, hvalid, (Db.persistMetadata_inserted hmeta).1 rfl⟩]
              exact .committed partition _ _ hmeta

theorem World.TurnResult.commit
    (h : World.TurnResult x maxSpansPerSegment w partition name fault records w' turn) :
    w.db.CommitResult x (w.db.turnCommitted maxSpansPerSegment partition fault records) w'.db := by
  have hsegment : ∀ window, fault ≠ some .filter →
      window = (filterDuplicateRecords w.db records).take (max maxSpansPerSegment 1) →
      w.db.CommitResult x (w.db.turnCommitted maxSpansPerSegment partition fault records)
        (w.persistSegment x partition name window (TurnFault.inSegment fault)).1.db := by
    rintro window hfault rfl
    rw [Db.turnCommitted, if_neg hfault]
    exact World.persistSegment_commit x w partition name _ _
  cases h with
  | unfiltered => exact .same w.db rfl
  | finished => exact .same w.db rfl
  | written window rest _ receipt hfault hwindow hsplit hpersist hevents =>
    have hcommit := hsegment window hfault hwindow
    rwa [hpersist] at hcommit
  | kept window _ db hfault hwindow hpersist hdb =>
    have hcommit := hsegment window hfault hwindow
    rwa [hpersist] at hcommit
  | failed window _ db hfault hwindow hpersist hdb =>
    have hcommit := hsegment window hfault hwindow
    rwa [hpersist] at hcommit

/-- The updated heads depend on the heads and the events alone. -/
theorem Db.persistRows_congr {db db' : Db} {records : List SpanRecord}
    {traces : List (String × String)}
    (hheads : db'.runHeads = db.runHeads) (hevents : db'.runEvents = db.runEvents)
    (hid : db'.nextRunEventId = db.nextRunEventId) :
    (db'.persistRows x segmentId rowIndex records traces).2 =
      (db.persistRows x segmentId rowIndex records traces).2 := by
  induction records generalizing db db' rowIndex traces with
  | nil => rfl
  | cons record records ih =>
    have hroot : db'.rootLocatorForRecord record = db.rootLocatorForRecord record := by
      funext generatedId
      rw [Db.rootLocatorForRecord, Db.rootLocatorForRecord, hheads]
    have hkey : db'.hasEventKey record.eventKey ↔ db.hasEventKey record.eventKey := by
      rw [Db.hasEventKey, Db.hasEventKey, hevents]
    rw [Db.persistRows, Db.persistRows]
    simp only [hkey]
    split
    · rfl
    · have hupsert : (db'.applyEvent x segmentId rowIndex record).2 =
          (db.applyEvent x segmentId rowIndex record).2 := by
        rw [Db.applyEvent, Db.applyEvent, hheads, hid, hroot]
      rw [hupsert]
      apply ih
      · rw [Db.applyEvent, Db.applyEvent, hheads, hid, hroot]
      · rw [Db.applyEvent, Db.applyEvent, hevents, hid]
      · rw [Db.applyEvent, Db.applyEvent, hid]

end KevinDb
