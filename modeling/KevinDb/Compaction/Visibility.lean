import KevinDb.Compaction.System
import KevinDb.Frame
import KevinDb.Query.Live

namespace KevinDb
set_option autoImplicit true

variable {x : Externals} {w w' : World} {k : RunKey} {head : RunHead} {execution : Execution}
  {db : Db} {runs shown : List RunSummary}

/-- A committed copy: its key names the segments of its batch, and its run has left them. -/
def World.CopyDone (w : World) (event : RunEvent) : Prop :=
  ∃ run ids, ids ≠ [] ∧ (∀ id ∈ ids, id < w.db.nextTraceSegmentId) ∧
    event.idempotencyKey = compactionIdempotencyKey run (compactionBatchKey ids) ∧
    ∀ head, w.db.head event.runKey = some head → w.db.runDeletions[event.runKey]? = none →
      head.lastTraceSegmentId ∉ ids

def World.Copied (w : World) : Prop :=
  ∀ event ∈ w.db.runEvents, event.eventType = .compact → w.CopyDone event

/-- A copy that the execution makes. -/
def Execution.Owns (execution : Execution) (copy : SpanRecord) : Prop :=
  copy.projectName = execution.projectName ∧
    ∃ run, copy = spanRecordFromRunSummary run (compactionBatchKey execution.segmentIds)

/-- An undeleted run that is still on a segment to be retired has a copy pending, and its copies
have the event time of its head. -/
def Execution.Covers (execution : Execution) (w : World) : Prop :=
  ∀ k head, w.db.head k = some head → w.db.runDeletions[k]? = none →
    head.lastTraceSegmentId ∈ execution.segmentIds →
    (∃ copy ∈ execution.pending, copy.runKey = k) ∧
      ∀ copy ∈ execution.pending, copy.runKey = k →
        copy.eventTimeUnixNano = head.lastEventTimeUnixNano

structure Execution.Sound (w : World) (execution : Execution) : Prop where
  segments : ∀ id ∈ execution.segmentIds, ∃ segment, w.db.traceSegments[id]? = some segment ∧
    segment.projectName = execution.projectName
  owns : ∀ copy ∈ execution.pending, execution.Owns copy
  ids_ne : execution.stage ≠ .listing → execution.segmentIds ≠ []
  covers : execution.stage ≠ .listing → execution.Covers w

structure System.Visible (x : Externals) (s : System) : Prop where
  consistent : s.world.Consistent x
  active : s.world.Active
  copied : s.world.Copied
  sound : ∀ execution ∈ s.executions, execution.Sound s.world

theorem System.Visible.initial (x : Externals) : System.initial.Visible x := by
  refine ⟨World.Consistent.empty x, ?_, ?_, ?_⟩
  · intro k head hhead
    cases hhead
  · intro event hevent
    cases hevent
  · intro execution hexecution
    cases hexecution

theorem World.Active.changes (hc : w.Consistent x) (hw : w.Active)
    (h : World.Changes x writes w w') : w'.Active := by
  intro k head hhead hdeleted
  rw [h.runDeletions] at hdeleted
  rcases h.head_cases hc hhead with hold | ⟨_, _, _, _, -, -, rfl, -, segment, hsegment, hactive⟩
  · obtain ⟨segment, hsegment, hactive⟩ := hw k head hold hdeleted
    exact ⟨segment, h.traceSegments hc hsegment, hactive⟩
  · exact ⟨segment, hsegment, hactive⟩

/-- A write moves a head only to a segment made by it. -/
theorem World.head_of_writes (hc : w.Consistent x)
    (h : World.Writes x records w w') (hhead : w'.db.head k = some head)
    (hlt : head.lastTraceSegmentId < w.db.nextTraceSegmentId) :
    w.db.head k = some head := by
  rcases h.head_cases hc hhead with hold | ⟨_, _, _, _, hwrites, -, rfl, -, -⟩
  · exact hold
  · exact absurd hwrites.1 (Nat.not_le.2 hlt)

theorem World.CopyDone.changes (hc : w.Consistent x) (hw : w.CopyDone event)
    (h : World.Writes x records w w') :
    w'.CopyDone event := by
  obtain ⟨run, ids, hne, hlt, hkey, hoff⟩ := hw
  refine ⟨run, ids, hne, fun id hid => (hlt id hid).trans_le h.nextTraceSegmentId_le, hkey, ?_⟩
  intro head hhead hdeleted hmem
  rw [h.runDeletions] at hdeleted
  exact hoff head (World.head_of_writes hc h hhead (hlt _ hmem)) hdeleted hmem

theorem Execution.Sound.ids_lt (hc : w.Consistent x) (hw : execution.Sound w) :
    ∀ id ∈ execution.segmentIds, id < w.db.nextTraceSegmentId := by
  intro id hid
  obtain ⟨segment, hsegment, -⟩ := hw.segments id hid
  exact hc.segment_lt id segment hsegment

theorem Execution.Sound.changes (hc : w.Consistent x) (hw : execution.Sound w)
    (h : World.Writes x records w w') :
    execution.Sound w' := by
  refine ⟨?_, hw.owns, hw.ids_ne, ?_⟩
  · intro id hid
    obtain ⟨segment, hsegment, hproject⟩ := hw.segments id hid
    exact ⟨segment, h.traceSegments hc hsegment, hproject⟩
  · intro hstage k head hhead hdeleted hmem
    rw [h.runDeletions] at hdeleted
    exact hw.covers hstage k head (World.head_of_writes hc h hhead (hw.ids_lt hc _ hmem)) hdeleted hmem

theorem World.Active.deletes (hw : w.Active) (h : w.db.Deletes db) :
    World.Active { w with db } := by
  intro k head hhead hdeleted
  obtain ⟨hdeleted, hsame⟩ := h.undeleted k hdeleted
  rw [h.traceSegments]
  exact hw k head (hsame.symm.trans hhead) hdeleted

theorem World.Copied.deletes (hw : w.Copied) (h : w.db.Deletes db) :
    World.Copied { w with db } := by
  intro event hevent htype
  rcases h.mem_runEvents event hevent with hevent | htombstone
  · obtain ⟨run, ids, hne, hlt, hkey, hoff⟩ := hw event hevent htype
    refine ⟨run, ids, hne, ?_, hkey, ?_⟩
    · rw [h.nextTraceSegmentId]
      exact hlt
    · intro head hhead hdeleted
      obtain ⟨hdeleted, hsame⟩ := h.undeleted _ hdeleted
      exact hoff head (hsame.symm.trans hhead) hdeleted
  · rw [htype] at htombstone
    cases htombstone

theorem Execution.Sound.deletes (hw : execution.Sound w) (h : w.db.Deletes db) :
    execution.Sound { w with db } := by
  refine ⟨?_, hw.owns, hw.ids_ne, ?_⟩
  · rw [h.traceSegments]
    exact hw.segments
  · intro hstage k head hhead hdeleted
    obtain ⟨hdeleted, hsame⟩ := h.undeleted k hdeleted
    exact hw.covers hstage k head (hsame.symm.trans hhead) hdeleted

theorem System.Visible.deletes {s : System} (hs : s.Visible x) (h : s.world.db.Deletes db)
    (hc : World.Consistent x { s.world with db }) :
    System.Visible x { s with world := { s.world with db } } :=
  ⟨hc, hs.active.deletes h, hs.copied.deletes h, fun e he => (hs.sound e he).deletes h⟩

theorem Execution.start_sound (w : World) (projectName : String) :
    (Execution.start w projectName).Sound w := by
  refine ⟨?_, ?_, fun h => absurd rfl h, fun h => absurd rfl h⟩
  · intro id hid
    obtain ⟨row, hrow, rfl⟩ := List.mem_map.1 hid
    obtain ⟨hrow, hproject⟩ := List.mem_filter.1 hrow
    exact ⟨row.2, Std.TreeMap.mem_toList_iff_getElem?_eq_some.1 hrow,
      (of_decide_eq_true hproject).1⟩
  · intro copy hcopy
    cases hcopy

theorem Execution.mem_copies (hc : w.Consistent x)
    (hlisted : w.listRuns execution.projectName = some shown) (hperm : runs.Perm shown) :
    copy ∈ execution.copies runs ↔
      ∃ record ∈ w.shownRecords execution.projectName, copy =
        spanRecordFromRunSummary (.ofRecord record) (compactionBatchKey execution.segmentIds) := by
  rw [World.listRuns_eq hc, Option.some.injEq] at hlisted
  have hmem : ∀ run, run ∈ runs ↔
      ∃ record ∈ w.shownRecords execution.projectName, RunSummary.ofRecord record = run := by
    intro run
    rw [hperm.mem_iff, ← hlisted, List.mem_insertionSort, List.mem_map]
  rw [Execution.copies, List.mem_map]
  constructor
  · rintro ⟨run, hrun, rfl⟩
    obtain ⟨record, hrecord, rfl⟩ := (hmem run).1 hrun
    exact ⟨record, hrecord, rfl⟩
  · rintro ⟨record, hrecord, rfl⟩
    exact ⟨_, (hmem _).2 ⟨record, hrecord, rfl⟩, rfl⟩

theorem Execution.Sound.listed {new : Execution} (hc : w.Consistent x) (ha : w.Active)
    (hw : execution.Sound w) (hlisted : w.listRuns execution.projectName = some shown)
    (hperm : runs.Perm shown) (hnew : execution.listed runs = some new) : new.Sound w := by
  have hpending : ∀ copy, copy ∈ new.pending ↔ _ := fun copy =>
    (Execution.mem_pending_listed hnew).trans (Execution.mem_copies hc hlisted hperm)
  have hids : new.segmentIds = execution.segmentIds ∧ new.projectName = execution.projectName ∧
      execution.segmentIds ≠ [] := by
    unfold Execution.listed at hnew
    split at hnew
    · cases hnew
    next hmany =>
      cases hnew
      refine ⟨rfl, rfl, ?_⟩
      intro hnil
      rw [hnil] at hmany
      exact hmany (.inr (Nat.zero_le _))
  refine ⟨?_, ?_, fun _ => hids.1 ▸ hids.2.2, fun _ => ?_⟩
  · rw [hids.1, hids.2.1]
    exact hw.segments
  · intro copy hcopy
    obtain ⟨record, hrecord, rfl⟩ := (hpending copy).1 hcopy
    obtain ⟨k, head, -, -, -, -, hproject⟩ := World.mem_shownRecords hc hrecord
    rw [Execution.Owns, hids.1, hids.2.1]
    exact ⟨hproject, _, rfl⟩
  · intro k head hhead hdeleted hmem
    obtain ⟨segment, hsegment, hactive⟩ := ha k head hhead hdeleted
    obtain ⟨segment', hsegment', hproject⟩ := hw.segments _ (hids.1 ▸ hmem)
    rw [hsegment] at hsegment'
    cases hsegment'
    rw [hc.head_project hhead hsegment] at hproject
    obtain ⟨row, hrow, rfl⟩ := Db.head_eq_some hhead
    constructor
    · obtain ⟨record, hrecord, -, hkey⟩ := World.exists_mem_shownRecords hc hrow
        ((hc.isLive_iff hrow).2 hdeleted) hsegment hactive
      rw [hproject] at hrecord
      exact ⟨_, (hpending _).2 ⟨record, hrecord, rfl⟩, hkey⟩
    · intro copy hcopy hkey
      obtain ⟨record, hrecord, rfl⟩ := (hpending copy).1 hcopy
      obtain ⟨k', head', hk', -, hread, hkey', -⟩ := World.mem_shownRecords hc hrecord
      have hsame : k' = k := hkey'.symm.trans hkey
      rw [hsame, hrow] at hk'
      cases hk'
      have htime : record.eventTimeUnixNano = _ := hc.head_time hhead hdeleted hread
      exact htime

/-- The key of a copy, if it is taken, is taken by a copy of the same run. -/
def Db.heldByCopy (db : Db) (copy : SpanRecord) : Prop :=
  ∀ event ∈ db.runEvents, event.eventKey = copy.eventKey →
    event.eventType = .compact ∧ event.runKey = copy.runKey

instance (db : Db) (copy : SpanRecord) : Decidable (db.heldByCopy copy) :=
  inferInstanceAs (Decidable (∀ event ∈ db.runEvents, _))

/-- No other event has the key of a copy about to be written whose run is live and still on a
segment to be retired. -/
def System.keysHeldByCopies (s : System) : Action → Prop
  | .persist i _ _ => ∀ execution ∈ s.executions[i]?, ∀ copy ∈ execution.current,
      ∀ head ∈ s.world.db.runHeads[copy.runKey]?, s.world.db.isLive copy.runKey head →
        head.lastTraceSegmentId ∈ execution.segmentIds → s.world.db.heldByCopy copy
  | _ => True

instance (s : System) (action : Action) : Decidable (s.keysHeldByCopies action) := by
  cases action <;> unfold System.keysHeldByCopies <;> infer_instance

theorem Execution.Owns.runEventIdempotencyKey (h : execution.Owns copy) :
    ∃ run, KevinDb.runEventIdempotencyKey copy =
      compactionIdempotencyKey run (compactionBatchKey execution.segmentIds) := by
  obtain ⟨-, run, rfl⟩ := h
  exact ⟨run, rfl⟩

/-- A copy that the filter drops is not needed any more. -/
theorem Execution.Sound.dropped (hc : w.Consistent x) (hw : execution.Sound w) (hcopied : w.Copied)
    (hstage : execution.stage = .writing ((partition, records) :: work))
    (hkeys : ∀ copy ∈ records, ∀ head ∈ w.db.runHeads[copy.runKey]?,
      w.db.isLive copy.runKey head → head.lastTraceSegmentId ∈ execution.segmentIds →
      w.db.heldByCopy copy)
    (hcopy : copy ∈ records) (hdropped : copy ∉ filterDuplicateRecords w.db records)
    (hhead : w.db.head copy.runKey = some head)
    (hdeleted : w.db.runDeletions[copy.runKey]? = none) :
    head.lastTraceSegmentId ∉ execution.segmentIds := by
  intro hmem
  have hpending : ∀ c ∈ records, execution.Owns c := by
    intro c hc
    refine hw.owns c ?_
    rw [Execution.pending, hstage]
    exact List.mem_append_left _ hc
  obtain ⟨event, hevent, hkey⟩ :=
    filterDuplicateRecords_dropped (fun c hc => (hpending c hc).1) hcopy hdropped
  obtain ⟨row, hrow, rfl⟩ := Db.head_eq_some hhead
  obtain ⟨htype, hrun⟩ :=
    hkeys copy hcopy row hrow ((hc.isLive_iff hrow).2 hdeleted) hmem event hevent hkey
  obtain ⟨run, ids, hne, -, hids, hoff⟩ := hcopied event hevent htype
  obtain ⟨run', hids'⟩ := (hpending copy hcopy).runEventIdempotencyKey
  have hsame : ids = execution.segmentIds := by
    refine compactionIdempotencyKey_batch hne (hw.ids_ne ?_)
      (hids.symm.trans ((Prod.mk.inj hkey).2.trans hids'))
    rw [hstage]
    exact Stage.noConfusion
  rw [← hsame] at hmem
  rw [hrun] at hoff
  exact hoff _ hhead hdeleted hmem

/-- A committed copy takes the head of its run off the segments to be retired. -/
theorem Execution.Sound.written (hc : w.Consistent x) (hc' : w'.Consistent x)
    (hw : execution.Sound w) (hstage : execution.stage ≠ .listing)
    (h : World.Writes x records w w')
    (hevents : w'.db.runEvents = w.db.runEvents ++
      rowEvents w.db.nextTraceSegmentId 0 w.db.nextRunEventId window)
    (hcopy : copy ∈ window) (hpending : copy ∈ execution.pending)
    (hhead : w'.db.head copy.runKey = some head)
    (hdeleted : w'.db.runDeletions[copy.runKey]? = none) :
    head.lastTraceSegmentId ∉ execution.segmentIds := by
  intro hmem
  have hold := World.head_of_writes hc h hhead (hw.ids_lt hc _ hmem)
  have hdeleted₀ : w.db.runDeletions[copy.runKey]? = none := by
    rw [← h.runDeletions]
    exact hdeleted
  have htime := (hw.covers hstage _ head hold hdeleted₀ hmem).2 copy hpending rfl
  obtain ⟨id, hid, hlt, -⟩ := hc.head_event hold hdeleted₀
  obtain ⟨id', hid', -, hmax⟩ := hc'.head_event hhead hdeleted
  rw [hid] at hid'
  cases hid'
  obtain ⟨i, j, hj, hnew⟩ := exists_mem_rowEvents w.db.nextTraceSegmentId 0
    w.db.nextRunEventId hcopy
  have hevent : RunEvent.ofRecord copy w.db.nextTraceSegmentId i j ∈ w'.db.runEvents := by
    rw [hevents]
    exact List.mem_append_right _ hnew
  have hle := (hmax _ hevent rfl).2 htime
  exact absurd (hlt.trans_le hj) (Nat.not_lt.2 hle)

/-- An execution may forget the copies of runs that have left the segments to be retired. -/
theorem Execution.Sound.forget {new : Execution} (hw : execution.Sound w)
    (hstage : execution.stage ≠ .listing)
    (hids : new.segmentIds = execution.segmentIds)
    (hproject : new.projectName = execution.projectName)
    (hsub : ∀ copy ∈ new.pending, copy ∈ execution.pending)
    (hgone : ∀ copy ∈ execution.pending, copy ∈ new.pending ∨
      ∀ head, w.db.head copy.runKey = some head → w.db.runDeletions[copy.runKey]? = none →
        head.lastTraceSegmentId ∉ execution.segmentIds) : new.Sound w := by
  refine ⟨?_, ?_, fun _ => hids ▸ hw.ids_ne hstage, fun _ => ?_⟩
  · rw [hids, hproject]
    exact hw.segments
  · intro copy hcopy
    rw [Execution.Owns, hids, hproject]
    exact hw.owns copy (hsub copy hcopy)
  · intro k head hhead hdeleted hmem
    rw [hids] at hmem
    obtain ⟨⟨copy, hcopy, hkey⟩, htimes⟩ := hw.covers hstage k head hhead hdeleted hmem
    refine ⟨?_, fun c hc => htimes c (hsub c hc)⟩
    rcases hgone copy hcopy with hnew | hoff
    · exact ⟨copy, hnew, hkey⟩
    · rw [hkey] at hoff
      exact absurd hmem (hoff head hhead hdeleted)

section Turn

variable {maxSpansPerSegment : Nat} {partition : PartitionKey} {name : SegmentName}
  {records : List SpanRecord} {work : List (PartitionKey × List SpanRecord)} {turn : Turn}
  {fault : Option TurnFault}

theorem World.TurnResult.runEvents
    (h : World.TurnResult x maxSpansPerSegment w partition name fault records w' turn) :
    w'.db.runEvents = w.db.runEvents ∨ ∃ window,
      (∀ copy ∈ window, copy ∈ filterDuplicateRecords w.db records) ∧
      w'.db.runEvents = w.db.runEvents ++
        rowEvents w.db.nextTraceSegmentId 0 w.db.nextRunEventId window := by
  cases h with
  | unfiltered => exact .inl rfl
  | finished => exact .inl rfl
  | written window rest _ receipt hfault hwindow hsplit hpersist hevents =>
    refine .inr ⟨window, ?_, hevents⟩
    intro copy hcopy
    rw [hsplit]
    exact List.mem_append_left _ hcopy
  | kept window _ db hfault hwindow hpersist hdb =>
    rw [hdb]
    exact .inl rfl
  | failed window _ db hfault hwindow hpersist hdb =>
    rw [hdb]
    exact .inl rfl

/-- What a turn leaves of the copies: those neither dropped nor written. -/
theorem Execution.Sound.turned {new : Execution} (hc : w.Consistent x) (hcopied : w.Copied)
    (hw : execution.Sound w) (hstage : execution.stage = .writing ((partition, records) :: work))
    (hkeys : ∀ copy ∈ records, ∀ head ∈ w.db.runHeads[copy.runKey]?,
      w.db.isLive copy.runKey head → head.lastTraceSegmentId ∈ execution.segmentIds →
      w.db.heldByCopy copy)
    (hfree : w.nameFree partition name (filterDuplicateRecords w.db records))
    (h : World.TurnResult x maxSpansPerSegment w partition name fault records w' turn)
    (hnew : execution.turned partition work turn = some new) : new.Sound w' := by
  have hlisted : execution.stage ≠ .listing := by
    rw [hstage]
    exact Stage.noConfusion
  have hpending : ∀ copy, copy ∈ execution.pending ↔
      copy ∈ records ∨ copy ∈ work.flatMap Prod.snd := by
    intro copy
    rw [Execution.pending, hstage]
    exact List.mem_append
  have hwrites := h.writes hfree
  have hc' := hwrites.consistent hc
  have hdropped : ∀ copy ∈ records, copy ∉ filterDuplicateRecords w.db records →
      ∀ head, w'.db.head copy.runKey = some head → w'.db.runDeletions[copy.runKey]? = none →
        head.lastTraceSegmentId ∉ execution.segmentIds := by
    intro copy hcopy hnot head hhead hdeleted hmem
    rw [hwrites.runDeletions] at hdeleted
    have hold := World.head_of_writes hc hwrites hhead (hw.ids_lt hc _ hmem)
    exact hw.dropped hc hcopied hstage hkeys hcopy hnot hold hdeleted hmem
  refine (hw.changes hc hwrites).forget hlisted ?_ ?_ ?_ ?_
  · cases turn <;> cases hnew <;> rfl
  · cases turn <;> cases hnew <;> rfl
  · exact fun copy hcopy => Execution.pending_turned hstage h hnew hcopy
  · intro copy hcopy
    by_cases hkept : copy ∈ records → copy ∈ filterDuplicateRecords w.db records
    · have hmem := ((hpending copy).1 hcopy).imp_left hkept
      cases h with
      | unfiltered => cases hnew
      | finished hnone =>
        cases hnew
        rw [hnone] at hmem
        exact .inl (hmem.resolve_left List.not_mem_nil)
      | written window rest _ receipt hfault hwindow hsplit hpersist hevents =>
        cases hnew
        rw [hsplit, List.mem_append, or_assoc] at hmem
        rcases hmem with hmem | hmem
        · exact .inr fun head hhead hdeleted =>
            hw.written hc hc' hlisted hwrites hevents hmem hcopy hhead hdeleted
        · exact .inl (List.mem_append.2 hmem)
      | kept =>
        cases hnew
        exact .inl (List.mem_append.2 hmem)
      | failed => cases hnew
    · rw [Classical.not_imp] at hkept
      exact .inr (hdropped copy hkept.1 hkept.2)

theorem World.Copied.turned (hc : w.Consistent x) (hcopied : w.Copied)
    (hw : execution.Sound w) (hstage : execution.stage = .writing ((partition, records) :: work))
    (hfree : w.nameFree partition name (filterDuplicateRecords w.db records))
    (h : World.TurnResult x maxSpansPerSegment w partition name fault records w' turn) :
    w'.Copied := by
  have hwrites := h.writes hfree
  have hc' := hwrites.consistent hc
  have hlisted : execution.stage ≠ .listing := by
    rw [hstage]
    exact Stage.noConfusion
  intro event hevent htype
  rcases h.runEvents with hsame | ⟨window, hwindow, hevents⟩
  · rw [hsame] at hevent
    exact (hcopied event hevent htype).changes hc hwrites
  · rw [hevents] at hevent
    rcases List.mem_append.1 hevent with hevent | hevent
    · exact (hcopied event hevent htype).changes hc hwrites
    · obtain ⟨copy, hcopy, i, j, -, rfl⟩ := mem_rowEvents hevent
      have hpending : copy ∈ execution.pending := by
        rw [Execution.pending, hstage]
        refine List.mem_append_left _ ?_
        exact (filterDuplicateRecords_sublist w.db records).subset (hwindow copy hcopy)
      obtain ⟨run, hkey⟩ := (hw.owns copy hpending).runEventIdempotencyKey
      refine ⟨run, execution.segmentIds, hw.ids_ne hlisted, ?_, hkey, ?_⟩
      · intro id hid
        exact (hw.ids_lt hc id hid).trans_le hwrites.nextTraceSegmentId_le
      · intro head hhead hdeleted
        exact hw.written hc hc' hlisted hwrites hevents hcopy hpending hhead hdeleted

end Turn

/-- With no copy left to write, no head of an undeleted run is on a segment to be retired. -/
theorem World.Active.mark (ha : w.Active) (hw : execution.Sound w)
    (hstage : execution.stage = .writing []) (time : Int) :
    World.Active { w with db := w.db.markSegmentsCompacted execution.segmentIds time } := by
  intro k head hhead hdeleted
  obtain ⟨segment, hsegment, hactive⟩ := ha k head hhead hdeleted
  refine ⟨segment, ?_, hactive⟩
  refine (Db.markSegmentsCompacted_get w.db execution.segmentIds time ?_).trans hsegment
  intro hmem
  have hlisted : execution.stage ≠ .listing := by
    rw [hstage]
    exact Stage.noConfusion
  obtain ⟨⟨copy, hcopy, -⟩, -⟩ := hw.covers hlisted k head hhead hdeleted hmem
  rw [Execution.pending, hstage] at hcopy
  cases hcopy

theorem Execution.Sound.mark (hw : execution.Sound w) (ids : List Nat) (time : Int) :
    execution.Sound { w with db := w.db.markSegmentsCompacted ids time } := by
  refine ⟨?_, hw.owns, hw.ids_ne, hw.covers⟩
  intro id hid
  obtain ⟨segment, hsegment, hproject⟩ := hw.segments id hid
  have hfixed := w.db.markSegmentsCompacted_fixed ids time id
  rw [hsegment] at hfixed
  obtain ⟨marked, hmarked, he⟩ := Option.map_eq_some_iff.1 hfixed
  exact ⟨marked, hmarked, (Prod.mk.inj he).1.trans hproject⟩

theorem System.Visible.step (x : Externals) (maxSpansPerSegment : Nat) (s : System)
    (action : Action) (s' : System) (hs : s.Visible x) (hheld : s.keysHeldByCopies action)
    (h : s.step x maxSpansPerSegment action = some s') : s'.Visible x := by
  cases System.step_cases h with
  | ingest partition name records fault hfree huser =>
    have hwrites : World.Writes x _ s.world
        (s.world.persistSegment x partition name records fault).1 :=
      World.persistSegment_changes s.world hfree
    refine ⟨hs.consistent.persistSegment hfree, hs.active.changes hs.consistent hwrites, ?_,
      fun e he => (hs.sound e he).changes hs.consistent hwrites⟩
    intro event hevent htype
    rcases hwrites.mem_runEvents hevent with hold | ⟨_, _, record, _, hwritten, -, rfl⟩
    · exact (hs.copied event hold htype).changes hs.consistent hwrites
    · have hkind := huser record (Db.committed_subset hwritten.2)
      rw [show record.eventKind = .compact from htype] at hkind
      cases hkind
  | delete k time reason =>
    exact hs.deletes (s.world.db.deleteRunInTx_deletes x k time reason)
      (hs.consistent.deleteRunInTx k time reason)
  | expire projectName cutoff time =>
    exact hs.deletes (s.world.db.expireProjectRunsBefore_deletes x projectName cutoff time)
      (hs.consistent.expireProjectRunsBefore projectName cutoff time)
  | readIds projectName =>
    refine ⟨hs.consistent, hs.active, hs.copied, ?_⟩
    intro e he
    rcases List.mem_append.1 he with he | he
    · exact hs.sound e he
    · rw [List.mem_singleton.1 he]
      exact Execution.start_sound s.world projectName
  | listRuns i runs shown execution hi hstage hshown hperm =>
    refine ⟨hs.consistent, hs.active, hs.copied, ?_⟩
    intro e he
    rcases System.mem_update he with he | he
    · exact hs.sound e he
    · exact (hs.sound execution (List.mem_of_getElem? hi)).listed hs.consistent hs.active hshown
        hperm he
  | persist i name fault execution partition records work world turn hi hstage hfree hturn =>
    have hsound := hs.sound execution (List.mem_of_getElem? hi)
    have hwrites := hturn.writes hfree
    have hkeys := hheld execution hi
    rw [Execution.current, hstage] at hkeys
    refine ⟨hwrites.consistent hs.consistent,
      hs.active.changes hs.consistent hwrites,
      hs.copied.turned hs.consistent hsound hstage hfree hturn, ?_⟩
    intro e he
    rcases System.mem_update he with he | he
    · exact (hs.sound e he).changes hs.consistent hwrites
    · exact hsound.turned hs.consistent hs.copied hstage hkeys hfree hturn he
  | mark i time execution hi hstage =>
    exact ⟨hs.consistent.mark _ time,
      hs.active.mark (hs.sound execution (List.mem_of_getElem? hi)) hstage time, hs.copied,
      fun e he => (hs.sound e (List.mem_of_mem_eraseIdx he)).mark _ time⟩
  | stop i =>
    exact ⟨hs.consistent, hs.active, hs.copied,
      fun e he => hs.sound e (List.mem_of_mem_eraseIdx he)⟩

/-- While no other event holds the key of a copy that is still needed, the head of a live run is
on a segment in use. -/
theorem live_heads_visible (x : Externals) (maxSpansPerSegment : Nat) (actions : List Action)
    (s : System) (h : Transition.run (System.step x maxSpansPerSegment) .initial actions = some s)
    (hheld : Transition.Meets (System.step x maxSpansPerSegment) System.keysHeldByCopies .initial
      actions) (k : RunKey) (head : RunHead) (hk : s.world.db.runHeads[k]? = some head)
    (hlive : s.world.db.isLive k head) :
    ∃ segment, s.world.db.traceSegments[head.lastTraceSegmentId]? = some segment ∧
      segment.compactedAtUnixNano = none := by
  have hs := Transition.run_invariant _ (System.Visible.step x maxSpansPerSegment)
    (System.Visible.initial x) hheld h
  have hdeleted := (hs.consistent.isLive_iff hk).1 hlive
  exact hs.active k head.forgetTree (Db.head_of_runHeads hk) hdeleted

/-- Two runs in two segments. -/
def ingestTwo (first second : SpanRecord) : List Action :=
  [.ingest (recordPartitionKey first) ⟨1, 1⟩ [first] none,
    .ingest (recordPartitionKey second) ⟨2, 2⟩ [second] none]

/-- The start of a compaction that lists two runs. -/
def listTwo (first second : SpanRecord) : List Action :=
  [.readIds "p", .listRuns 0 [.ofRecord first, .ofRecord second]]

/-- A compaction whose copies have keys of their own leaves the head of a run visible. -/
theorem live_heads_visible_two :
    ∃ s head segment, Transition.run (System.step .sample 1) .initial
        (ingestTwo (.sample "t" "s" "n" .«end» 10 30) (.sample "t" "u" "n" .«end» 10 30) ++
          listTwo (.sample "t" "s" "n" .«end» 10 30) (.sample "t" "u" "n" .«end» 10 30) ++
          [.persist 0 ⟨3, 3⟩ none, .persist 0 ⟨4, 4⟩ none, .persist 0 ⟨5, 5⟩ none, .mark 0 90]) =
        some s ∧
      s.world.db.runHeads[RunKey.mk "p" "t" "s"]? = some head ∧ head.lastTraceSegmentId = 3 ∧
      s.world.db.traceSegments[head.lastTraceSegmentId]? = some segment ∧
      segment.compactedAtUnixNano = none := by
  generalize hactions : ingestTwo _ _ ++ _ ++ _ = actions
  have hrun : (Transition.run (System.step .sample 1) .initial actions).map
      (fun s => s.world.db.runHeads[RunKey.mk "p" "t" "s"]?.map fun head =>
        (s.world.db.isLive ⟨"p", "t", "s"⟩ head, head.lastTraceSegmentId)) =
      some (some (true, 3)) := by
    subst hactions
    decide +kernel
  have hheld : Transition.Meets (System.step .sample 1) System.keysHeldByCopies .initial
      actions := by
    subst hactions
    decide +kernel
  obtain ⟨s, hs, hrow⟩ := Option.map_eq_some_iff.1 hrun
  obtain ⟨head, hhead, hlive⟩ := Option.map_eq_some_iff.1 hrow
  obtain ⟨hlive, hid⟩ := Prod.mk.inj hlive
  obtain ⟨segment, hsegment, hactive⟩ :=
    live_heads_visible .sample 1 actions s hs hheld ⟨"p", "t", "s"⟩ head hhead hlive
  exact ⟨s, head, segment, hs, hhead, hid, hsegment, hactive⟩

/-- Runs `b:c` of trace `a` and `c` of trace `a:b` get one key for their copies. The second copy
is dropped as a duplicate, and its run stays on a segment that is then retired. -/
theorem live_head_hidden :
    ¬ ∀ (actions : List Action) (s : System),
      Transition.run (System.step .sample 1) .initial actions = some s →
      ∀ (k : RunKey) (head : RunHead), s.world.db.runHeads[k]? = some head →
        s.world.db.isLive k head →
        ∃ segment, s.world.db.traceSegments[head.lastTraceSegmentId]? = some segment ∧
          segment.compactedAtUnixNano = none := by
  intro hvisible
  have hrun : (Transition.run (System.step .sample 1) .initial
      (ingestTwo (.sample "a" "b:c" "n" .«end» 10 30) (.sample "a:b" "c" "n" .«end» 10 30) ++
        listTwo (.sample "a" "b:c" "n" .«end» 10 30) (.sample "a:b" "c" "n" .«end» 10 30) ++
        [.persist 0 ⟨3, 3⟩ none, .persist 0 ⟨4, 4⟩ none, .mark 0 90])).map
      (fun s => s.world.db.runHeads[RunKey.mk "p" "a:b" "c"]?.map fun head =>
        (s.world.db.isLive ⟨"p", "a:b", "c"⟩ head,
          s.world.db.traceSegments[head.lastTraceSegmentId]?.map
            TraceSegment.compactedAtUnixNano)) = some (some (true, some (some 90))) := by
    decide +kernel
  obtain ⟨s, hs, hrow⟩ := Option.map_eq_some_iff.1 hrun
  obtain ⟨head, hhead, hlive⟩ := Option.map_eq_some_iff.1 hrow
  obtain ⟨hlive, hmarked⟩ := Prod.mk.inj hlive
  obtain ⟨segment, hsegment, hactive⟩ := hvisible _ s hs _ head hhead hlive
  rw [hsegment, Option.map_some, hactive] at hmarked
  cases hmarked

end KevinDb
