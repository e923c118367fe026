import KevinDb.Consistency
import KevinDb.Ingest.Compact

namespace KevinDb
set_option autoImplicit true

variable {x : Externals} {w w' : World} {k : RunKey} {head : RunHead}

theorem World.Changes.runDeletions (h : World.Changes x writes w w') :
    w'.db.runDeletions = w.db.runDeletions := by
  induction h with
  | refl => rfl
  | tail _ hlast ih =>
    rw [← ih]
    cases hlast <;> rfl

theorem World.Changes.nextTraceSegmentId_le (h : World.Changes x writes w w') :
    w.db.nextTraceSegmentId ≤ w'.db.nextTraceSegmentId := by
  induction h with
  | refl => exact le_rfl
  | tail _ hlast ih =>
    refine ih.trans ?_
    cases hlast with
    | put => exact le_rfl
    | insertSegment => exact Nat.le_succ _
    | event => exact le_rfl
    | refresh => exact le_rfl
    | skip _ _ hsegments _ => exact hsegments

/-- The segments there were before stay as they were. -/
theorem World.Changes.traceSegments (hw : w.Consistent x) (h : World.Changes x writes w w')
    {id : Nat} {segment : TraceSegment} (hsegment : w.db.traceSegments[id]? = some segment) :
    w'.db.traceSegments[id]? = some segment := by
  have hboth : w'.Consistent x ∧ w'.db.traceSegments[id]? = some segment := by
    induction h with
    | refl => exact ⟨hw, hsegment⟩
    | tail _ hlast ih =>
      refine ⟨ih.1.change hlast, ?_⟩
      cases hlast with
      | put => exact ih.2
      | insertSegment =>
        refine (Table.get_insert _ _ _ _).trans ((if_neg ?_).trans ih.2)
        exact (ih.1.segment_lt id segment ih.2).ne'
      | event => exact ih.2
      | refresh => exact ih.2
      | skip => exact ih.2
  exact hboth.2

/-- The head of a run comes from a written record, which it names in a segment in use. -/
def World.HeadWritten (x : Externals) (writes : Nat → SpanRecord → Prop) (w : World) (k : RunKey)
    (head : RunHead) : Prop :=
  ∃ segmentId rowIndex record eventId, writes segmentId record ∧ record.runKey = k ∧
    head = RunHead.written x record segmentId rowIndex eventId ∧
    w.rowAt segmentId rowIndex = some record ∧
    ∃ segment, w.db.traceSegments[segmentId]? = some segment ∧ segment.compactedAtUnixNano = none

theorem World.HeadWritten.change (h : World.HeadWritten x writes w k head) (hw : w.Consistent x)
    (hchange : World.Change x writes w w') : World.HeadWritten x writes w' k head := by
  obtain ⟨segmentId, rowIndex, record, eventId, hwrites, hk, hwritten, hread, segment, hsegment,
    hactive⟩ := h
  exact ⟨segmentId, rowIndex, record, eventId, hwrites, hk, hwritten,
    hw.toNumbered.rowAt_change hchange _ _ _ hread, segment,
    World.Changes.traceSegments hw (.single hchange) hsegment, hactive⟩

/-- A head is left alone, or it comes from a written record. -/
theorem World.Changes.head_cases (hw : w.Consistent x) (h : World.Changes x writes w w')
    (hhead : w'.db.head k = some head) :
    w.db.head k = some head ∨ World.HeadWritten x writes w' k head := by
  induction h generalizing head with
  | refl => exact .inl hhead
  | tail hfirst hlast ih =>
    have hkeep := fun head (h : World.HeadWritten x writes _ k head) =>
      h.change (World.Changes.consistent hfirst hw) hlast
    cases hlast with
    | put => exact (ih hhead).imp_right (hkeep head)
    | insertSegment => exact (ih hhead).imp_right (hkeep head)
    | event segmentId rowIndex record segment hwrites hsegment hactive hread hkey =>
      rw [Db.applyEvent_head] at hhead
      split at hhead
      next hk =>
        have hhead := Option.some.inj hhead
        rcases RunHead.after_cases x record segmentId rowIndex _ _ with hnew | hold
        · exact .inr ⟨_, _, _, _, hwrites, hk, hhead.symm.trans hnew, hread, segment, hsegment,
            hactive⟩
        · exact (ih (hold.trans (congrArg some hhead))).imp_right (hkeep head)
      next => exact (ih hhead).imp_right (hkeep head)
    | refresh p t =>
      rw [Db.refresh_head] at hhead
      exact (ih hhead).imp_right (hkeep head)
    | skip => exact (ih hhead).imp_right (hkeep head)

/-- Events stay, and the new ones are of written records, with new ids. -/
theorem World.Changes.runEvents_subset (h : World.Changes x writes w w') :
    w.db.runEvents ⊆ w'.db.runEvents ∧ w.db.nextRunEventId ≤ w'.db.nextRunEventId := by
  induction h with
  | refl => exact ⟨List.Subset.refl _, le_rfl⟩
  | tail _ hlast ih =>
    cases hlast with
    | put => exact ih
    | insertSegment => exact ih
    | event =>
      exact ⟨List.Subset.trans ih.1 (List.subset_append_left _ _), ih.2.trans (Nat.le_succ _)⟩
    | refresh => exact ih
    | skip _ _ _ hevents => exact ⟨ih.1, ih.2.trans hevents⟩

theorem World.Changes.mem_runEvents (h : World.Changes x writes w w')
    (hevent : event ∈ w'.db.runEvents) :
    event ∈ w.db.runEvents ∨ ∃ segmentId rowIndex record eventId, writes segmentId record ∧
      w.db.nextRunEventId ≤ eventId ∧
      event = RunEvent.ofRecord record segmentId rowIndex eventId := by
  induction h with
  | refl => exact .inl hevent
  | tail hfirst hlast ih =>
    cases hlast with
    | put => exact ih hevent
    | insertSegment => exact ih hevent
    | event segmentId rowIndex record segment hwrites hsegment hactive hrow hkey =>
      rcases List.mem_append.1 hevent with hevent | hevent
      · exact ih hevent
      · exact .inr ⟨_, _, _, _, hwrites, (World.Changes.runEvents_subset hfirst).2,
          List.mem_singleton.1 hevent⟩
    | refresh => exact ih hevent
    | skip => exact ih hevent

/-- What deleting runs does: a run without a deletion row keeps its head and its events, and
segments are left alone. -/
structure Db.Deletes (db db' : Db) : Prop where
  undeleted : ∀ k : RunKey, db'.runDeletions[k]? = none →
    db.runDeletions[k]? = none ∧ db'.head k = db.head k
  mem_runEvents : ∀ event ∈ db'.runEvents, event ∈ db.runEvents ∨ event.eventType = .tombstone
  traceSegments : db'.traceSegments = db.traceSegments
  nextTraceSegmentId : db'.nextTraceSegmentId = db.nextTraceSegmentId

theorem Db.Deletes.refl (db : Db) : db.Deletes db :=
  ⟨fun _ h => ⟨h, rfl⟩, fun _ h => .inl h, rfl, rfl⟩

theorem Db.Deletes.trans {db₁ db₂ db₃ : Db} (h : db₁.Deletes db₂) (h' : db₂.Deletes db₃) :
    db₁.Deletes db₃ := by
  refine ⟨?_, ?_, h'.traceSegments.trans h.traceSegments,
    h'.nextTraceSegmentId.trans h.nextTraceSegmentId⟩
  · intro k hk
    obtain ⟨hk, hhead⟩ := h'.undeleted k hk
    obtain ⟨hk, hhead'⟩ := h.undeleted k hk
    exact ⟨hk, hhead.trans hhead'⟩
  · intro event hevent
    rcases h'.mem_runEvents event hevent with hevent | hevent
    · exact h.mem_runEvents event hevent
    · exact .inr hevent

theorem Db.writeDeletion_deletes (db : Db) (k : RunKey) (head : RunHead) (time : Int)
    (reason : Option String) : db.Deletes (db.writeDeletion k head time reason) := by
  refine ⟨?_, ?_, ?_, ?_⟩
  · intro k' hk'
    rw [Db.writeDeletion_runDeletions] at hk'
    split at hk'
    · cases hk'
    next hne =>
      rw [Db.writeDeletion_head, if_neg hne]
      exact ⟨hk', rfl⟩
  · intro event hevent
    rcases Db.mem_writeDeletion_runEvents hevent with hevent | rfl
    · exact .inl hevent
    · exact .inr rfl
  · rw [Db.writeDeletion_eq]
  · rw [Db.writeDeletion_eq]

theorem Db.refresh_deletes (x : Externals) (db : Db) (p t : String) :
    db.Deletes (db.refreshTraceTreeMetadata x p t) :=
  ⟨fun k h => ⟨h, congrFun (Db.refresh_head x db p t) k⟩, fun _ h => .inl h, rfl, rfl⟩

theorem Db.deleteRunInTx_deletes (x : Externals) (db : Db) (k : RunKey) (time : Int)
    (reason : Option String) : db.Deletes (db.deleteRunInTx x k time reason).1 := by
  unfold Db.deleteRunInTx
  split
  · exact .refl db
  · split
    · exact .refl db
    · exact (db.writeDeletion_deletes k _ time reason).trans (Db.refresh_deletes x _ _ _)

theorem Db.expireProjectRunsBefore_deletes (x : Externals) (db : Db) (projectName : String)
    (cutoff time : Int) : db.Deletes (db.expireProjectRunsBefore x projectName cutoff time) := by
  refine Db.expireProjectRunsBefore_induction (fun db' => db.Deletes db') ?_ (.refl db)
  intro db' k h
  exact h.trans (db'.deleteRunInTx_deletes x k time _)

theorem Db.markSegmentsCompacted_get (db : Db) (ids : List Nat) (time : Int) {id : Nat}
    (hid : id ∉ ids) :
    (db.markSegmentsCompacted ids time).traceSegments[id]? = db.traceSegments[id]? := by
  unfold Db.markSegmentsCompacted
  dsimp only
  generalize db.traceSegments = segments
  induction ids generalizing segments with
  | nil => rfl
  | cons first ids ih =>
    rw [List.mem_cons, not_or] at hid
    rw [List.foldl_cons, ih hid.2, Table.get_modify, if_neg (Ne.symm hid.1)]

theorem Db.markSegmentsCompacted_fixed (db : Db) (ids : List Nat) (time : Int) (id : Nat) :
    (db.markSegmentsCompacted ids time).traceSegments[id]?.map
        (fun segment => (segment.projectName, segment.uri)) =
      db.traceSegments[id]?.map fun segment => (segment.projectName, segment.uri) := by
  refine Table.get_foldl_modify db.traceSegments ids (fun id => id)
    (fun _ => TraceSegment.setCompacted time) _ ?_ id
  intro _ segment
  unfold TraceSegment.setCompacted
  split
  · rfl
  · rfl

theorem World.rowAt_mark (w : World) (ids : List Nat) (time : Int) :
    World.rowAt { w with db := w.db.markSegmentsCompacted ids time } = w.rowAt := by
  funext id rowIndex
  have hfixed := w.db.markSegmentsCompacted_fixed ids time id
  unfold World.rowAt
  dsimp only
  generalize (w.db.markSegmentsCompacted ids time).traceSegments[id]? = marked at hfixed ⊢
  cases marked with
  | none =>
    rw [Option.map_none, eq_comm, Option.map_eq_none_iff] at hfixed
    rw [hfixed]
  | some segment =>
    obtain ⟨old, hold, he⟩ := Option.map_eq_some_iff.1 hfixed.symm
    rw [hold]
    simp only [Option.bind_eq_bind, Option.bind_some]
    rw [(Prod.mk.inj he).2]

theorem World.Consistent.mark (hw : w.Consistent x) (ids : List Nat) (time : Int) :
    World.Consistent x { w with db := w.db.markSegmentsCompacted ids time } := by
  have hsegments : ∀ (id : Nat) (segment : TraceSegment),
      (w.db.markSegmentsCompacted ids time).traceSegments[id]? = some segment →
      ∃ old : TraceSegment, w.db.traceSegments[id]? = some old ∧
        old.projectName = segment.projectName ∧ old.uri = segment.uri := by
    intro id segment hsegment
    have hfixed := w.db.markSegmentsCompacted_fixed ids time id
    rw [hsegment] at hfixed
    obtain ⟨old, hold, he⟩ := Option.map_eq_some_iff.1 hfixed.symm
    exact ⟨old, hold, (Prod.mk.inj he).1, (Prod.mk.inj he).2⟩
  refine ⟨⟨hw.event_lt, hw.event_ids, hw.event_keys, ?_, ?_⟩, ?_⟩
  · intro id segment hsegment
    obtain ⟨old, hold, -⟩ := hsegments id segment hsegment
    exact hw.segment_lt id old hold
  · intro id segment hsegment
    obtain ⟨old, hold, hproject, huri⟩ := hsegments id segment hsegment
    rw [← hproject, ← huri]
    exact hw.segment_object id old hold
  · refine hw.toMaterialised.of_rowAt ?_ rfl rfl rfl rfl rfl
    intro id rowIndex record hrow
    rw [World.rowAt_mark]
    exact hrow

/-- An undeleted run's head names an event that no event of the run outranks. -/
theorem World.Consistent.head_event (hw : w.Consistent x) (hhead : w.db.head k = some head)
    (hdeleted : w.db.runDeletions[k]? = none) :
    ∃ id, head.lastRunEventId = some id ∧ id < w.db.nextRunEventId ∧
      ∀ event ∈ w.db.runEvents, event.runKey = k →
        event.eventTimeUnixNano ≤ head.lastEventTimeUnixNano ∧
        (event.eventTimeUnixNano = head.lastEventTimeUnixNano → event.id ≤ id) := by
  obtain ⟨record, id, hrow, hwritten, hlatest⟩ := hw.head_latest k head hhead hdeleted
  have hid : head.lastRunEventId = some id := by rw [hwritten]; rfl
  have htime : head.lastEventTimeUnixNano = record.eventTimeUnixNano := by rw [hwritten]; rfl
  refine ⟨id, hid, hw.event_lt _ (List.mem_filter.1 hlatest.1).1, ?_⟩
  intro event hevent hk
  have hrank := hlatest.2 event (List.mem_filter.2 ⟨hevent, decide_eq_true hk⟩)
  rw [htime]
  refine ⟨RunEvent.time_le_of_rank_le hrank, ?_⟩
  intro he
  rcases Prod.Lex.toLex_le_toLex.1 hrank with hlt | ⟨-, hle⟩
  · exact absurd he hlt.ne
  · exact hle

end KevinDb
