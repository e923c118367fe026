import KevinDb.Ingest.Change
import KevinDb.Lib.Latest
import KevinDb.Query.Delete

namespace KevinDb
set_option autoImplicit true

/-- The head of a run without its tree columns. -/
def Db.head (db : Db) (k : RunKey) : Option RunHead := db.runHeads[k]?.map RunHead.forgetTree

/-- The head of a record, without its tree columns. -/
def RunHead.written (x : Externals) (record : SpanRecord) (segmentId rowIndex eventId : Nat) :
    RunHead :=
  (RunHead.ofRecord x record ⟨"", ""⟩ segmentId rowIndex eventId).forgetTree

/-- The columns of a head that a deletion leaves alone. -/
def RunHead.forgetEvent (head : RunHead) : RunHead :=
  { head.forgetTree with
    lastEventType := .start
    lastEventTimeUnixNano := 0
    lastRunEventId := none
    deletedAtUnixNano := none
    deletionReason := none }

def RunHead.runLocator (head : RunHead) : RunLocator where
  runId := head.runId
  generatedRunId := head.generatedRunId
  traceSegmentId := head.lastTraceSegmentId
  rowIndex := head.lastRowIndex
  eventType := head.lastEventType
  eventTimeUnixNano := head.lastEventTimeUnixNano
  runEventId := head.lastRunEventId

def RunHead.traceLocator (head : RunHead) : TraceLocator where
  traceSegmentId := head.lastTraceSegmentId
  rowIndex := head.lastRowIndex
  eventType := head.lastEventType
  eventTimeUnixNano := head.lastEventTimeUnixNano
  runEventId := head.lastRunEventId

/-- Ids come from the sequences, event keys are unique, and every segment has its object. -/
structure World.Numbered (w : World) : Prop where
  event_lt : ∀ event ∈ w.db.runEvents, event.id < w.db.nextRunEventId
  event_ids : (w.db.runEvents.map RunEvent.id).Nodup
  event_keys : (w.db.runEvents.map RunEvent.eventKey).Nodup
  segment_lt : ∀ id segment, w.db.traceSegments[id]? = some segment → id < w.db.nextTraceSegmentId
  segment_object : ∀ (id : Nat) (segment : TraceSegment), w.db.traceSegments[id]? = some segment →
    ∃ records, w.objects[segment.uri]? = some (.segment records) ∧
      ∀ record ∈ records, record.projectName = segment.projectName

/-- The run tables hold what the events and the rows they name say. -/
structure World.Materialised (x : Externals) (w : World) : Prop where
  runLocators : ∀ k : RunKey, w.db.runLocators[k]? = (w.db.head k).map RunHead.runLocator
  traceLocators : ∀ k : RunKey, w.db.traceLocators[k]? = (w.db.head k).map RunHead.traceLocator
  event_head : ∀ event ∈ w.db.runEvents, (w.db.head event.runKey).isSome
  event_row : ∀ event ∈ w.db.runEvents, event.eventType ≠ .tombstone →
    ∃ record, w.rowAt event.traceSegmentId event.rowIndex = some record ∧
      event = RunEvent.ofRecord record event.traceSegmentId event.rowIndex event.id
  head_row : ∀ k head, w.db.head k = some head →
    ∃ record, w.rowAt head.lastTraceSegmentId head.lastRowIndex = some record ∧
      record.runKey = k ∧ head.forgetEvent =
        (RunHead.written x record head.lastTraceSegmentId head.lastRowIndex 0).forgetEvent
  head_latest : ∀ k head, w.db.head k = some head → w.db.runDeletions[k]? = none →
    ∃ record id, w.rowAt head.lastTraceSegmentId head.lastRowIndex = some record ∧
      head = RunHead.written x record head.lastTraceSegmentId head.lastRowIndex id ∧
      IsLatest RunEvent.rank (w.db.eventsOf k)
        (RunEvent.ofRecord record head.lastTraceSegmentId head.lastRowIndex id)

structure World.Consistent (x : Externals) (w : World) : Prop extends
  w.Numbered, w.Materialised x

variable {x : Externals} {w w' : World} {head : RunHead}

theorem World.Consistent.empty (x : Externals) : World.empty.Consistent x := by
  constructor <;> constructor <;> simp [World.empty, Db.empty, Db.head]

theorem Db.refresh_head (x : Externals) (db : Db) (p t : String) :
    (db.refreshTraceTreeMetadata x p t).head = db.head := by
  funext k
  exact Db.refreshTraceTreeMetadata_runHeads x db p t k

@[simp] theorem RunEvent.ofRecord_runKey (record : SpanRecord) (segmentId rowIndex eventId : Nat) :
    (RunEvent.ofRecord record segmentId rowIndex eventId).runKey = record.runKey := rfl

/-- The head an event leaves. -/
def RunHead.after (x : Externals) (record : SpanRecord) (segmentId rowIndex eventId : Nat)
    (old : Option RunHead) : RunHead :=
  Table.upserted old (RunHead.written x record segmentId rowIndex eventId)
    (RunHead.yieldsTo record eventId)

theorem RunHead.after_cases (x : Externals) (record : SpanRecord)
    (segmentId rowIndex eventId : Nat) (old : Option RunHead) :
    RunHead.after x record segmentId rowIndex eventId old =
        RunHead.written x record segmentId rowIndex eventId ∨
      old = some (RunHead.after x record segmentId rowIndex eventId old) := by
  unfold RunHead.after Table.upserted
  split
  · exact .inl rfl
  · split
    · exact .inl rfl
    · exact .inr rfl

theorem Db.applyEvent_head (x : Externals) (db : Db) (segmentId rowIndex : Nat)
    (record : SpanRecord) (k : RunKey) :
    (db.applyEvent x segmentId rowIndex record).1.head k =
      if record.runKey = k then
        some (RunHead.after x record segmentId rowIndex db.nextRunEventId (db.head k))
      else db.head k := by
  unfold Db.head Db.applyEvent
  dsimp only
  rw [Table.get_upsert]
  split
  next hk =>
    subst hk
    unfold RunHead.after Table.upserted
    cases db.runHeads[record.runKey]? with
    | none => rfl
    | some old =>
      simp only [Option.map_some]
      rw [show RunHead.yieldsTo record db.nextRunEventId old.forgetTree =
        RunHead.yieldsTo record db.nextRunEventId old from rfl]
      split
      · rfl
      · rfl
  next => rfl

theorem Db.applyEvent_eventsOf (x : Externals) (db : Db) (segmentId rowIndex : Nat)
    (record : SpanRecord) (k : RunKey) :
    (db.applyEvent x segmentId rowIndex record).1.eventsOf k =
      db.eventsOf k ++ if record.runKey = k then
        [RunEvent.ofRecord record segmentId rowIndex db.nextRunEventId] else [] := by
  unfold Db.eventsOf Db.applyEvent
  rw [List.filter_append]
  by_cases hk : record.runKey = k
  · rw [if_pos hk, List.filter_singleton, RunEvent.ofRecord_runKey, hk]
    simp
  · rw [if_neg hk, List.filter_singleton, RunEvent.ofRecord_runKey]
    simp [hk]

theorem World.rowAt_eq_some :
    World.rowAt w segmentId rowIndex = some record ↔
      ∃ segment records, w.db.traceSegments[segmentId]? = some segment ∧
        w.objects[segment.uri]? = some (.segment records) ∧ records[rowIndex]? = some record := by
  unfold World.rowAt
  constructor
  · intro h
    obtain ⟨segment, hsegment, h⟩ := Option.bind_eq_some_iff.1 h
    obtain ⟨object, hobject, h⟩ := Option.bind_eq_some_iff.1 h
    cases object with
    | segment records => exact ⟨segment, records, hsegment, hobject, h⟩
    | searchIndex records => cases h
  · rintro ⟨segment, records, hsegment, hobject, h⟩
    simp [hsegment, hobject, h]

theorem Db.mem_eventKeys {db : Db} :
    key ∈ db.runEvents.map RunEvent.eventKey ↔ db.hasEventKey key :=
  List.mem_map

/-- Rows that can be read stay readable. -/
theorem World.Numbered.rowAt_change (hw : w.Numbered) (h : World.Change x writes w w')
    (segmentId rowIndex : Nat) (record : SpanRecord)
    (hrow : w.rowAt segmentId rowIndex = some record) :
    w'.rowAt segmentId rowIndex = some record := by
  obtain ⟨segment, records, hsegment, hobject, hget⟩ := World.rowAt_eq_some.1 hrow
  cases h with
  | put uri object hfree =>
    refine World.rowAt_eq_some.2 ⟨segment, records, hsegment, ?_, hget⟩
    rw [Table.get_insert, if_neg, hobject]
    rintro rfl
    rw [hfree] at hobject
    cases hobject
  | insertSegment new stored hactive hnew hproject =>
    refine World.rowAt_eq_some.2 ⟨segment, records, ?_, hobject, hget⟩
    refine (Table.get_insert _ _ _ _).trans ((if_neg ?_).trans hsegment)
    exact (hw.segment_lt segmentId segment hsegment).ne'
  | event => exact hrow
  | refresh => exact hrow
  | skip => exact hrow

theorem World.Numbered.nextRunEventId_not_mem (hw : w.Numbered) :
    w.db.nextRunEventId ∉ w.db.runEvents.map RunEvent.id := by
  intro hmem
  obtain ⟨event, hevent, hid⟩ := List.mem_map.1 hmem
  exact (hw.event_lt event hevent).ne hid

theorem World.Numbered.change (hw : w.Numbered) (h : World.Change x writes w w') :
    w'.Numbered := by
  cases h with
  | put uri object hfree =>
    refine ⟨hw.event_lt, hw.event_ids, hw.event_keys, hw.segment_lt, ?_⟩
    intro id segment hsegment
    obtain ⟨records, hobject, hproject⟩ := hw.segment_object id segment hsegment
    refine ⟨records, ?_, hproject⟩
    rw [Table.get_insert, if_neg, hobject]
    rintro rfl
    rw [hfree] at hobject
    cases hobject
  | insertSegment new stored hactive hnew hproject =>
    refine ⟨hw.event_lt, hw.event_ids, hw.event_keys, ?_, ?_⟩
    · intro id segment hsegment
      rw [Db.insertTraceSegment, Table.get_insert] at hsegment
      split at hsegment
      next hid => exact hid ▸ Nat.lt_succ_self _
      next => exact (hw.segment_lt id segment hsegment).trans (Nat.lt_succ_self _)
    · intro id segment hsegment
      rw [Db.insertTraceSegment, Table.get_insert] at hsegment
      split at hsegment
      · cases hsegment
        exact ⟨stored, hnew, hproject⟩
      · exact hw.segment_object id segment hsegment
  | event segmentId rowIndex record segment hwrites hsegment hactive hrow hkey =>
    refine ⟨?_, ?_, ?_, hw.segment_lt, hw.segment_object⟩
    · intro event hevent
      rcases List.mem_append.1 hevent with hevent | hevent
      · exact (hw.event_lt event hevent).trans (Nat.lt_succ_self _)
      · rw [List.mem_singleton.1 hevent]
        exact Nat.lt_succ_self _
    · have hnew := hw.nextRunEventId_not_mem
      rw [Db.applyEvent, List.map_append]
      exact List.nodup_append'.2
        ⟨hw.event_ids, List.nodup_singleton _, by simpa [RunEvent.ofRecord] using hnew⟩
    · rw [Db.applyEvent, List.map_append]
      refine List.nodup_append'.2 ⟨hw.event_keys, List.nodup_singleton _, ?_⟩
      rw [List.map_singleton, List.disjoint_singleton, Db.mem_eventKeys]
      exact hkey
  | refresh =>
    exact ⟨hw.event_lt, hw.event_ids, hw.event_keys, hw.segment_lt, hw.segment_object⟩
  | skip segments events hsegments hevents =>
    refine ⟨?_, hw.event_ids, hw.event_keys, ?_, hw.segment_object⟩
    · intro event hevent
      exact (hw.event_lt event hevent).trans_le hevents
    · intro id segment hsegment
      exact (hw.segment_lt id segment hsegment).trans_le hsegments

/-- The tables of runs and events stay right when only segments and objects are added. -/
theorem World.Materialised.of_rowAt (hw : w.Materialised x)
    (hrow : ∀ segmentId rowIndex record, w.rowAt segmentId rowIndex = some record →
      w'.rowAt segmentId rowIndex = some record)
    (hevents : w'.db.runEvents = w.db.runEvents) (hhead : w'.db.head = w.db.head)
    (hruns : w'.db.runLocators = w.db.runLocators)
    (htraces : w'.db.traceLocators = w.db.traceLocators)
    (hdeletions : w'.db.runDeletions = w.db.runDeletions) : w'.Materialised x := by
  constructor
  · rw [hhead, hruns]
    exact hw.runLocators
  · rw [hhead, htraces]
    exact hw.traceLocators
  · rw [hhead, hevents]
    exact hw.event_head
  · rw [hevents]
    intro event hevent htype
    obtain ⟨record, hrecord, he⟩ := hw.event_row event hevent htype
    exact ⟨record, hrow _ _ _ hrecord, he⟩
  · rw [hhead]
    intro k head hk
    obtain ⟨record, hrecord, hrest⟩ := hw.head_row k head hk
    exact ⟨record, hrow _ _ _ hrecord, hrest⟩
  · rw [hhead, hdeletions]
    intro k head hk hdeleted
    obtain ⟨record, id, hrecord, hwritten, hlatest⟩ := hw.head_latest k head hk hdeleted
    refine ⟨record, id, hrow _ _ _ hrecord, hwritten, ?_⟩
    rw [Db.eventsOf, hevents]
    exact hlatest

theorem RunEvent.rank_lt_of_time_lt {event event' : RunEvent}
    (h : event.eventTimeUnixNano < event'.eventTimeUnixNano) : event.rank < event'.rank :=
  Prod.Lex.toLex_lt_toLex.2 (.inl h)

theorem RunEvent.rank_le_of_time_le {event event' : RunEvent}
    (h : event.eventTimeUnixNano ≤ event'.eventTimeUnixNano) (hid : event.id ≤ event'.id) :
    event.rank ≤ event'.rank := by
  rcases h.lt_or_eq with h | h
  · exact (RunEvent.rank_lt_of_time_lt h).le
  · exact Prod.Lex.toLex_le_toLex.2 (.inr ⟨h, hid⟩)

theorem RunEvent.time_le_of_rank_le {event event' : RunEvent} (h : event.rank ≤ event'.rank) :
    event.eventTimeUnixNano ≤ event'.eventTimeUnixNano := by
  rcases Prod.Lex.toLex_le_toLex.1 h with h | ⟨h, -⟩
  · exact h.le
  · exact h.le

/-- With ids from the sequence, an event wins against the stored one unless it is older. -/
theorem RunHead.yieldsTo_iff (record : SpanRecord) {head : RunHead} {oldId eventId : Nat}
    (hid : head.lastRunEventId = some oldId) (hlt : oldId < eventId) :
    RunHead.yieldsTo record eventId head = true ↔
      head.lastEventTimeUnixNano ≤ record.eventTimeUnixNano := by
  unfold RunHead.yieldsTo eventYields
  rw [hid]
  simp only [Option.getD_some, hlt.le, decide_true, Bool.and_true, Bool.or_eq_true,
    decide_eq_true_eq]
  exact le_iff_lt_or_eq.symm

theorem RunHead.yieldsTo_of_lt {record : SpanRecord} {head : RunHead}
    (h : record.eventTimeUnixNano < head.lastEventTimeUnixNano) (eventId : Nat) :
    RunHead.yieldsTo record eventId head = false := by
  simp [RunHead.yieldsTo, eventYields, h.le, h.ne']

theorem World.Materialised.eventsOf_eq_nil (hw : w.Materialised x) (hk : w.db.head k = none) :
    w.db.eventsOf k = [] := by
  refine List.filter_eq_nil_iff.2 ?_
  intro event hevent hkey
  have hsome := hw.event_head event hevent
  rw [of_decide_eq_true hkey, hk] at hsome
  cases hsome

/-- The head left by an event of a run that was never deleted is that of the latest event. -/
theorem World.Materialised.after_latest (hw : w.Materialised x)
    (hlt : ∀ event ∈ w.db.runEvents, event.id < w.db.nextRunEventId)
    (hrow : w.rowAt segmentId rowIndex = some record)
    (hdeleted : w.db.runDeletions[record.runKey]? = none)
    (hhead : head = RunHead.after x record segmentId rowIndex w.db.nextRunEventId
      (w.db.head record.runKey)) :
    ∃ r id, w.rowAt head.lastTraceSegmentId head.lastRowIndex = some r ∧
      head = RunHead.written x r head.lastTraceSegmentId head.lastRowIndex id ∧
      IsLatest RunEvent.rank
        (w.db.eventsOf record.runKey ++
          [RunEvent.ofRecord record segmentId rowIndex w.db.nextRunEventId])
        (RunEvent.ofRecord r head.lastTraceSegmentId head.lastRowIndex id) := by
  cases hold : w.db.head record.runKey with
  | none =>
    rw [hold] at hhead
    subst hhead
    refine ⟨record, w.db.nextRunEventId, hrow, rfl, ?_⟩
    rw [hw.eventsOf_eq_nil hold]
    exact IsLatest.singleton _ _
  | some old =>
    obtain ⟨r, id, hr, hwritten, hlatest⟩ := hw.head_latest _ old hold hdeleted
    have hid : id < w.db.nextRunEventId := hlt _ (List.mem_filter.1 hlatest.1).1
    have htime : old.lastEventTimeUnixNano = r.eventTimeUnixNano := by rw [hwritten]; rfl
    have hyields := RunHead.yieldsTo_iff record
      (show old.lastRunEventId = some id by rw [hwritten]; rfl) hid
    rw [hold, RunHead.after, Table.upserted] at hhead
    split at hhead
    next hwins =>
      rw [hyields, htime] at hwins
      subst hhead
      exact ⟨record, w.db.nextRunEventId, hrow, rfl,
        hlatest.append_of_le (RunEvent.rank_le_of_time_le hwins hid.le)⟩
    next hwins =>
      rw [hyields, htime, not_le] at hwins
      subst hhead
      exact ⟨r, id, hr, hwritten, hlatest.append_of_lt (RunEvent.rank_lt_of_time_lt hwins)⟩

theorem World.Materialised.after_row (hw : w.Materialised x)
    (hrow : w.rowAt segmentId rowIndex = some record)
    (hhead : head = RunHead.after x record segmentId rowIndex eventId
      (w.db.head record.runKey)) :
    ∃ r, w.rowAt head.lastTraceSegmentId head.lastRowIndex = some r ∧
      r.runKey = record.runKey ∧ head.forgetEvent =
        (RunHead.written x r head.lastTraceSegmentId head.lastRowIndex 0).forgetEvent := by
  rcases RunHead.after_cases x record segmentId rowIndex eventId (w.db.head record.runKey) with
    hnew | hold
  · rw [hhead, hnew]
    exact ⟨record, hrow, rfl, rfl⟩
  · rw [← hhead] at hold
    exact hw.head_row _ _ hold

theorem World.Materialised.event (hw : w.Materialised x) (hn : w.Numbered)
    (hrow : w.rowAt segmentId rowIndex = some record) :
    World.Materialised x { w with db := (w.db.applyEvent x segmentId rowIndex record).1 } := by
  constructor
  · intro k
    rw [Db.applyEvent_head]
    refine (Table.get_upsert _ _ _ _ _).trans ?_
    split
    next hk =>
      subst hk
      rw [hw.runLocators]
      cases w.db.head record.runKey with
      | none => rfl
      | some old =>
        simp only [Table.upserted, RunHead.after, Option.map_some]
        rw [show RunLocator.yieldsTo record w.db.nextRunEventId old.runLocator =
          RunHead.yieldsTo record w.db.nextRunEventId old from rfl]
        split
        · rfl
        · rfl
    next => exact hw.runLocators k
  · intro k
    rw [Db.applyEvent_head]
    refine (Table.get_upsert _ _ _ _ _).trans ?_
    split
    next hk =>
      subst hk
      rw [hw.traceLocators]
      cases w.db.head record.runKey with
      | none => rfl
      | some old =>
        simp only [Table.upserted, RunHead.after, Option.map_some]
        rw [show TraceLocator.yieldsTo record w.db.nextRunEventId old.traceLocator =
          RunHead.yieldsTo record w.db.nextRunEventId old from rfl]
        split
        · rfl
        · rfl
    next => exact hw.traceLocators k
  · intro event hevent
    rw [Db.applyEvent_head]
    split
    · rfl
    next hk =>
      rcases List.mem_append.1 hevent with hevent | hevent
      · exact hw.event_head event hevent
      · rw [List.mem_singleton.1 hevent] at hk
        exact absurd rfl hk
  · intro event hevent htype
    rcases List.mem_append.1 hevent with hevent | hevent
    · exact hw.event_row event hevent htype
    · rw [List.mem_singleton.1 hevent]
      exact ⟨record, hrow, rfl⟩
  · intro k head hhead
    rw [Db.applyEvent_head] at hhead
    split at hhead
    next hk =>
      subst hk
      exact hw.after_row hrow (Option.some.inj hhead).symm
    next => exact hw.head_row k head hhead
  · intro k head hhead hdeleted
    rw [Db.applyEvent_head] at hhead
    rw [Db.applyEvent_eventsOf]
    split at hhead
    next hk =>
      subst hk
      rw [if_pos rfl]
      exact hw.after_latest hn.event_lt hrow hdeleted (Option.some.inj hhead).symm
    next hk =>
      rw [if_neg hk, List.append_nil]
      exact hw.head_latest k head hhead hdeleted

theorem World.Consistent.change (hw : w.Consistent x) (h : World.Change x writes w w') :
    w'.Consistent x := by
  refine ⟨hw.toNumbered.change h, ?_⟩
  have hrow := hw.toNumbered.rowAt_change h
  cases h with
  | put => exact hw.toMaterialised.of_rowAt hrow rfl rfl rfl rfl rfl
  | insertSegment => exact hw.toMaterialised.of_rowAt hrow rfl rfl rfl rfl rfl
  | event segmentId rowIndex record segment hwrites hsegment hactive hread hkey =>
    exact hw.toMaterialised.event hw.toNumbered hread
  | refresh p t =>
    exact hw.toMaterialised.of_rowAt hrow rfl (Db.refresh_head x w.db p t) rfl rfl rfl
  | skip => exact hw.toMaterialised.of_rowAt hrow rfl rfl rfl rfl rfl

theorem World.Changes.consistent (h : World.Changes x writes w w') (hw : w.Consistent x) :
    w'.Consistent x :=
  h.invariant _ (fun _ _ => World.Consistent.change) hw

theorem World.Consistent.persistSegment (hw : w.Consistent x)
    (hfree : w.nameFree partition name records) :
    (w.persistSegment x partition name records fault).1.Consistent x :=
  (World.persistSegment_changes w hfree).consistent hw

theorem Db.insertTombstone_cases (db : Db) (k : RunKey) (head : RunHead) (time : Int) :
    (∃ old ∈ db.runEvents, old.eventKey = (k.projectName, tombstoneKey k time) ∧
      db.insertTombstone k head time =
        ({ db with nextRunEventId := db.nextRunEventId + 1 }, old.id)) ∨
    (¬ db.hasEventKey (k.projectName, tombstoneKey k time) ∧
      db.insertTombstone k head time =
        ({ db with
            nextRunEventId := db.nextRunEventId + 1
            runEvents := db.runEvents ++ [.ofTombstone k head time db.nextRunEventId] },
          db.nextRunEventId)) := by
  unfold Db.insertTombstone
  dsimp only
  split
  next old hfind =>
    have hkey := List.find?_some hfind
    exact .inl ⟨old, List.mem_of_find?_eq_some hfind, of_decide_eq_true hkey, rfl⟩
  next hfind =>
    refine .inr ⟨?_, rfl⟩
    rintro ⟨event, hevent, hkey⟩
    exact List.find?_eq_none.1 hfind event hevent (decide_eq_true hkey)

theorem Db.insertTombstone_frame (db : Db) (k : RunKey) (head : RunHead) (time : Int) :
    (db.insertTombstone k head time).1 =
      { db with
        nextRunEventId := db.nextRunEventId + 1
        runEvents := (db.insertTombstone k head time).1.runEvents } := by
  rcases db.insertTombstone_cases k head time with ⟨_, -, -, h⟩ | ⟨-, h⟩
  · rw [h]
  · rw [h]

theorem Db.writeDeletion_eq (db : Db) (k : RunKey) (head : RunHead) (time : Int)
    (reason : Option String) :
    db.writeDeletion k head time reason =
      { db with
        nextRunEventId := db.nextRunEventId + 1
        runEvents := (db.insertTombstone k head time).1.runEvents
        runDeletions := db.runDeletions.insert k ⟨time, reason⟩
        runHeads := db.runHeads.modify k
          (RunHead.setDeleted time reason (db.insertTombstone k head time).2)
        runLocators := db.runLocators.modify k
          (RunLocator.setTombstone time (db.insertTombstone k head time).2)
        traceLocators := db.traceLocators.modify k
          (TraceLocator.setTombstone time (db.insertTombstone k head time).2) } := by
  unfold Db.writeDeletion
  dsimp only
  rw [Db.insertTombstone_frame]

theorem Db.writeDeletion_head (db : Db) (k : RunKey) (head : RunHead) (time : Int)
    (reason : Option String) (k' : RunKey) :
    (db.writeDeletion k head time reason).head k' =
      if k = k' then
        (db.head k').map (RunHead.setDeleted time reason (db.insertTombstone k head time).2)
      else db.head k' := by
  rw [Db.writeDeletion_eq]
  unfold Db.head
  dsimp only
  rw [Table.get_modify]
  split
  · rw [Option.map_map, Option.map_map]
    rfl
  · rfl

theorem Db.writeDeletion_runDeletions (db : Db) (k : RunKey) (head : RunHead) (time : Int)
    (reason : Option String) (k' : RunKey) :
    (db.writeDeletion k head time reason).runDeletions[k']? =
      if k = k' then some ⟨time, reason⟩ else db.runDeletions[k']? := by
  rw [Db.writeDeletion_eq]
  exact Table.get_insert _ _ _ _

/-- The events after a deletion: those before, and the tombstone if its key was free. -/
theorem Db.mem_writeDeletion_runEvents {db : Db}
    (h : event ∈ (db.writeDeletion k head time reason).runEvents) :
    event ∈ db.runEvents ∨ event = RunEvent.ofTombstone k head time db.nextRunEventId := by
  rw [Db.writeDeletion_eq] at h
  rcases db.insertTombstone_cases k head time with ⟨_, -, -, hi⟩ | ⟨-, hi⟩
  · rw [hi] at h
    exact .inl h
  · rw [hi] at h
    rcases List.mem_append.1 h with h | h
    · exact .inl h
    · exact .inr (List.mem_singleton.1 h)

theorem Db.writeDeletion_eventsOf {db : Db} (hk : k ≠ k') :
    (db.writeDeletion k head time reason).eventsOf k' = db.eventsOf k' := by
  rw [Db.writeDeletion_eq, Db.eventsOf]
  rcases db.insertTombstone_cases k head time with ⟨_, -, -, h⟩ | ⟨-, h⟩
  · rw [h]
    rfl
  · rw [h, List.filter_append, List.filter_singleton]
    rw [show (RunEvent.ofTombstone k head time db.nextRunEventId).runKey = k from rfl]
    simp [hk, Db.eventsOf]

theorem World.Numbered.writeDeletion (hw : w.Numbered) :
    World.Numbered { w with db := w.db.writeDeletion k head time reason } := by
  have hnew := hw.nextRunEventId_not_mem
  rw [Db.writeDeletion_eq]
  rcases w.db.insertTombstone_cases k head time with ⟨_, -, -, h⟩ | ⟨hfree, h⟩
  · rw [h]
    refine ⟨?_, hw.event_ids, hw.event_keys, hw.segment_lt, hw.segment_object⟩
    intro event hevent
    exact (hw.event_lt event hevent).trans (Nat.lt_succ_self _)
  · rw [h]
    refine ⟨?_, ?_, ?_, hw.segment_lt, hw.segment_object⟩
    · intro event hevent
      rcases List.mem_append.1 hevent with hevent | hevent
      · exact (hw.event_lt event hevent).trans (Nat.lt_succ_self _)
      · rw [List.mem_singleton.1 hevent]
        exact Nat.lt_succ_self _
    · rw [List.map_append]
      exact List.nodup_append'.2
        ⟨hw.event_ids, List.nodup_singleton _, by simpa [RunEvent.ofTombstone] using hnew⟩
    · rw [List.map_append]
      refine List.nodup_append'.2 ⟨hw.event_keys, List.nodup_singleton _, ?_⟩
      rw [List.map_singleton, List.disjoint_singleton, Db.mem_eventKeys]
      exact hfree

theorem World.rowAt_writeDeletion (w : World) (k : RunKey) (head : RunHead) (time : Int)
    (reason : Option String) :
    World.rowAt { w with db := w.db.writeDeletion k head time reason } = w.rowAt := by
  rw [Db.writeDeletion_eq]
  rfl

theorem World.Materialised.writeDeletion (hw : w.Materialised x)
    (hhead : w.db.runHeads[k]? = some head) :
    World.Materialised x { w with db := w.db.writeDeletion k head time reason } := by
  constructor
  · intro k'
    rw [Db.writeDeletion_head, Db.writeDeletion_eq]
    refine (Table.get_modify _ _ _ _).trans ?_
    rw [hw.runLocators]
    split
    · rw [Option.map_map, Option.map_map]
      rfl
    · rfl
  · intro k'
    rw [Db.writeDeletion_head, Db.writeDeletion_eq]
    refine (Table.get_modify _ _ _ _).trans ?_
    rw [hw.traceLocators]
    split
    · rw [Option.map_map, Option.map_map]
      rfl
    · rfl
  · intro event hevent
    rw [Db.writeDeletion_head]
    have hsome : (w.db.head event.runKey).isSome := by
      rcases Db.mem_writeDeletion_runEvents hevent with h | rfl
      · exact hw.event_head event h
      · rw [Db.head, show (RunEvent.ofTombstone k head time _).runKey = k from rfl, hhead]
        rfl
    split
    · rw [Option.isSome_map]
      exact hsome
    · exact hsome
  · intro event hevent htype
    rw [World.rowAt_writeDeletion]
    rcases Db.mem_writeDeletion_runEvents hevent with h | rfl
    · exact hw.event_row event h htype
    · exact absurd rfl htype
  · intro k' head' hhead'
    rw [World.rowAt_writeDeletion]
    rw [Db.writeDeletion_head] at hhead'
    split at hhead'
    · obtain ⟨old, hold, rfl⟩ := Option.map_eq_some_iff.1 hhead'
      exact hw.head_row k' old hold
    · exact hw.head_row k' head' hhead'
  · intro k' head' hhead' hdeleted
    rw [Db.writeDeletion_runDeletions] at hdeleted
    split at hdeleted
    · cases hdeleted
    next hk =>
      rw [Db.writeDeletion_head, if_neg hk] at hhead'
      rw [World.rowAt_writeDeletion, Db.writeDeletion_eventsOf hk]
      exact hw.head_latest k' head' hhead' hdeleted

theorem World.Consistent.refresh (hw : w.Consistent x) (p t : String) :
    World.Consistent x { w with db := w.db.refreshTraceTreeMetadata x p t } := by
  have hchange : World.Change x (fun _ _ => True) w _ := .refresh w p t
  exact hw.change hchange

theorem World.Consistent.writeDeletion (hw : w.Consistent x)
    (hhead : w.db.runHeads[k]? = some head) :
    World.Consistent x { w with db := w.db.writeDeletion k head time reason } :=
  ⟨hw.toNumbered.writeDeletion, hw.toMaterialised.writeDeletion hhead⟩

theorem World.Consistent.deleteRunInTx (hw : w.Consistent x) (k : RunKey) (time : Int)
    (reason : Option String) :
    World.Consistent x { w with db := (w.db.deleteRunInTx x k time reason).1 } := by
  unfold Db.deleteRunInTx
  split
  · exact hw
  next head hhead =>
    split
    · exact hw
    · exact (hw.writeDeletion hhead).refresh _ _

/-- Expiring runs deletes them one by one. -/
theorem Db.expireProjectRunsBefore_induction (inv : Db → Prop) {db : Db}
    (hstep : ∀ db k, inv db → inv (db.deleteRunInTx x k time (some "retention_expired")).1)
    (hdb : inv db) : inv (db.expireProjectRunsBefore x projectName cutoff time) := by
  unfold Db.expireProjectRunsBefore
  generalize db.expiryCandidates projectName cutoff = candidates
  induction candidates generalizing db with
  | nil => exact hdb
  | cons row candidates ih => exact ih (hstep db row.1 hdb)

theorem World.Consistent.expireProjectRunsBefore (hw : w.Consistent x) (projectName : String)
    (cutoff time : Int) :
    World.Consistent x { w with db := w.db.expireProjectRunsBefore x projectName cutoff time } := by
  refine Db.expireProjectRunsBefore_induction (fun db => World.Consistent x { w with db }) ?_ hw
  intro db k hdb
  exact hdb.deleteRunInTx k time _

end KevinDb
