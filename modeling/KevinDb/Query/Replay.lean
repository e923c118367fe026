import KevinDb.Query.RandomAccess
import KevinDb.Query.Visible

namespace KevinDb
set_option autoImplicit true

variable {x : Externals} {w : World} {db : Db} {k : RunKey} {head : RunHead} {row : RunLocator}

/-- The run id belongs to at most one run. -/
def Db.namesOneRun (db : Db) (runId : String) : Prop :=
  ∀ (k k' : RunKey) (row row' : RunLocator), db.runLocators[k]? = some row →
    db.runLocators[k']? = some row' → row.isNamed runId → row'.isNamed runId → k = k'

instance (db : Db) (runId : String) : Decidable (db.namesOneRun runId) :=
  decidable_of_iff (∀ row ∈ db.runLocators.toList, ∀ row' ∈ db.runLocators.toList,
      row.2.isNamed runId → row'.2.isNamed runId → row.1 = row'.1) <| by
    have hmem := fun (k : RunKey) (row : RunLocator) =>
      Std.TreeMap.mem_toList_iff_getElem?_eq_some (t := db.runLocators) (k := k) (v := row)
    constructor
    · intro h k k' row row' hrow hrow'
      exact h (k, row) ((hmem k row).2 hrow) (k', row') ((hmem k' row').2 hrow')
    · rintro h ⟨k, row⟩ hrow ⟨k', row'⟩ hrow'
      exact h k k' row row' ((hmem k row).1 hrow) ((hmem k' row').1 hrow')

/-- What an id that names one run loads: the locator of its row, if a query shows it. -/
theorem Db.loadRunLocator_eq_some (hone : db.namesOneRun runId)
    (hmem : (row, locator) ∈ db.locatorRows runId includeDeleted) :
    db.loadRunLocator runId includeDeleted = some locator := by
  cases hload : db.loadRunLocator runId includeDeleted with
  | none =>
    rw [Db.loadRunLocator_eq_none.1 hload] at hmem
    cases hmem
  | some locator' =>
    obtain ⟨row', hmem', -⟩ := Db.loadRunLocator_first hload
    obtain ⟨k, segment, head, hrow, hsegment, -, hnamed, -, -, rfl⟩ := Db.mem_locatorRows.1 hmem
    obtain ⟨k', segment', head', hrow', hsegment', -, hnamed', -, -, rfl⟩ :=
      Db.mem_locatorRows.1 hmem'
    have hk := hone k k' row row' hrow hrow' hnamed hnamed'
    subst hk
    rw [hrow] at hrow'
    cases hrow'
    rw [hsegment] at hsegment'
    cases hsegment'
    rfl

/-- Replaying ends with what the latest event of the run says. -/
theorem Db.replayEventLocator_eq (hids : (db.runEvents.map RunEvent.id).Nodup)
    (hrow : db.runLocators[locator.runKey]? = some row)
    (hlatest : IsLatest RunEvent.rank (db.eventsOf locator.runKey) event)
    {segment : TraceSegment} (hsegment : db.traceSegments[event.traceSegmentId]? = some segment) :
    db.replayEventLocator locator =
      if event.eventType = .tombstone then none
      else some (row.locator locator.runKey segment.uri event.rowIndex) := by
  unfold Db.replayEventLocator
  dsimp only
  generalize hrows : (db.eventsOf locator.runKey).filterMap _ = rows
  have hmem : ∀ e l, (e, l) ∈ rows ↔ e ∈ db.eventsOf locator.runKey ∧
      ∃ segment : TraceSegment, db.traceSegments[e.traceSegmentId]? = some segment ∧
        l = row.locator locator.runKey segment.uri e.rowIndex := by
    intro e l
    rw [← hrows, List.mem_filterMap]
    simp only [hrow]
    constructor
    · rintro ⟨e', he', h⟩
      cases hseg : db.traceSegments[e'.traceSegmentId]? with
      | none =>
        rw [hseg] at h
        cases h
      | some segment =>
        rw [hseg] at h
        cases h
        exact ⟨he', segment, hseg, rfl⟩
    · rintro ⟨he, segment, hseg, rfl⟩
      refine ⟨e, he, ?_⟩
      rw [hseg]
  have hrank : IsLatest (fun r : RunEvent × Locator => r.1.rank) rows
      (event, row.locator locator.runKey segment.uri event.rowIndex) := by
    refine ⟨(hmem _ _).2 ⟨hlatest.1, segment, hsegment, rfl⟩, ?_⟩
    rintro ⟨e, l⟩ he
    exact hlatest.2 e ((hmem e l).1 he).1
  have hinj : ∀ r ∈ rows, ∀ r' ∈ rows, r.1.rank = r'.1.rank → r = r' := by
    rintro ⟨e, l⟩ hr ⟨e', l'⟩ hr' he
    obtain ⟨hevent, segment₁, hseg, rfl⟩ := (hmem e l).1 hr
    obtain ⟨hevent', segment₂, hseg', rfl⟩ := (hmem e' l').1 hr'
    have hid : e.id = e'.id := congrArg (fun r : Int ×ₗ Nat => (ofLex r).2) he
    have hsame := List.inj_on_of_nodup_map hids (List.mem_filter.1 hevent).1
      (List.mem_filter.1 hevent').1 hid
    subst hsame
    rw [hseg] at hseg'
    cases hseg'
    rfl
  have hlast := hrank.getLast?_insertionSort hinj
  rw [foldl_forget, hlast]
  rfl

/-- A deleted run has a tombstone as its latest event, and its head has the time and the segment
of the tombstone. -/
def Db.Settled (db : Db) : Prop :=
  ∀ k : RunKey, db.runDeletions[k]?.isSome → ∃ head tombstone, db.head k = some head ∧
    head.deletedAtUnixNano.isSome ∧ tombstone.eventType = .tombstone ∧
    tombstone.traceSegmentId = head.lastTraceSegmentId ∧
    tombstone.eventTimeUnixNano = head.lastEventTimeUnixNano ∧
    IsLatest RunEvent.rank (db.eventsOf k) tombstone

/-- The head of an undeleted run comes from a record. -/
def Db.Untombstoned (db : Db) : Prop :=
  ∀ k head, db.head k = some head → db.runDeletions[k]? = none → head.lastEventType ≠ .tombstone

theorem World.Consistent.head_segment (hc : w.Consistent x) (hhead : w.db.head k = some head) :
    ∃ segment, w.db.traceSegments[head.lastTraceSegmentId]? = some segment := by
  obtain ⟨record, hrow, -, -⟩ := hc.head_row k head hhead
  obtain ⟨segment, -, hsegment, -⟩ := World.rowAt_eq_some.1 hrow
  exact ⟨segment, hsegment⟩

/-- What replaying the events of a run gives: its row if the run is live, nothing otherwise. -/
theorem World.Consistent.replay_locator (hc : w.Consistent x) (hs : w.db.Settled)
    (hu : w.db.Untombstoned) (hk : w.db.runHeads[k]? = some head)
    (hrow : w.db.runLocators[k]? = some row) {segment : TraceSegment}
    (hsegment : w.db.traceSegments[row.traceSegmentId]? = some segment) :
    w.db.replayEventLocator (row.locator k segment.uri row.rowIndex) =
      if w.db.isLive k head then some (row.locator k segment.uri row.rowIndex) else none := by
  have hhead := Db.head_of_runHeads hk
  have hsame : row = head.runLocator := by
    have h := hc.runLocators k
    rw [hrow, hhead] at h
    exact Option.some.inj h
  cases hdeleted : w.db.runDeletions[k]? with
  | none =>
    rw [if_pos ((hc.isLive_iff hk).2 hdeleted)]
    obtain ⟨record, id, -, hwritten, hlatest⟩ := hc.head_latest k _ hhead hdeleted
    have htype : record.eventKind ≠ .tombstone := by
      have htype := hu k _ hhead hdeleted
      rw [hwritten] at htype
      exact htype
    rw [hsame] at hsegment
    have hreplay := Db.replayEventLocator_eq hc.event_ids
      (show w.db.runLocators[(row.locator k segment.uri row.rowIndex).runKey]? = some row from hrow)
      hlatest hsegment
    rw [hreplay, hsame]
    exact if_neg htype
  | some deletion =>
    have hlive : ¬ w.db.isLive k head := by
      rw [hc.isLive_iff hk, hdeleted]
      exact Option.some_ne_none deletion
    rw [if_neg hlive]
    obtain ⟨head', tombstone, hhead', -, htype, hid, -, hlatest⟩ :=
      hs k (by rw [hdeleted]; rfl)
    obtain ⟨segment', hsegment'⟩ := hc.head_segment hhead'
    rw [← hid] at hsegment'
    have hreplay := Db.replayEventLocator_eq hc.event_ids
      (show w.db.runLocators[(row.locator k segment.uri row.rowIndex).runKey]? = some row from hrow)
      hlatest hsegment'
    rw [hreplay, if_pos htype]

/-- Replaying an id that names one run gives what loading it gives. -/
theorem World.Consistent.replay_eq_load (hc : w.Consistent x) (hs : w.db.Settled)
    (hu : w.db.Untombstoned) (hone : w.db.namesOneRun runId) :
    w.replayRunById runId = w.loadRunById runId := by
  unfold World.replayRunById World.loadRunById
  split
  · rfl
  have hsub : ∀ c ∈ w.db.locatorRows runId false, c ∈ w.db.locatorRows runId true := by
    rintro ⟨row, locator⟩ hc
    obtain ⟨k, segment, head, hrow, hsegment, hk, hnamed, hactive, hlive, he⟩ :=
      Db.mem_locatorRows.1 hc
    exact Db.mem_locatorRows.2 ⟨k, segment, head, hrow, hsegment, hk, hnamed, hactive, rfl, he⟩
  cases hload : w.db.loadRunLocator runId true with
  | none =>
    have hnone : w.db.loadRunLocator runId false = none := by
      rw [Db.loadRunLocator_eq_none] at hload ⊢
      rw [hload] at hsub
      exact List.eq_nil_iff_forall_not_mem.2 fun c hc => List.not_mem_nil (hsub c hc)
    rw [hnone]
  | some locator =>
    obtain ⟨row, hmem, -⟩ := Db.loadRunLocator_first hload
    obtain ⟨k, segment, head, hrow, hsegment, hk, hnamed, hactive, -, rfl⟩ :=
      Db.mem_locatorRows.1 hmem
    dsimp only
    rw [hc.replay_locator hs hu hk hrow hsegment]
    by_cases hlive : w.db.isLive k head
    · have hshown : (row, row.locator k segment.uri row.rowIndex) ∈ w.db.locatorRows runId false :=
        Db.mem_locatorRows.2 ⟨k, segment, head, hrow, hsegment, hk, hnamed, hactive, hlive, rfl⟩
      rw [if_pos hlive, Db.loadRunLocator_eq_some hone hshown]
    · have hfalse : w.db.loadRunLocator runId false = none := by
        rw [Db.loadRunLocator_eq_none, List.eq_nil_iff_forall_not_mem]
        rintro ⟨row', locator'⟩ hmem'
        obtain ⟨k', segment', head', hrow', -, hk', hnamed', -, hlive', -⟩ :=
          Db.mem_locatorRows.1 hmem'
        have hsame := hone k k' row row' hrow hrow' hnamed hnamed'
        subst hsame
        rw [hk] at hk'
        cases hk'
        exact hlive hlive'
      rw [if_neg hlive, hfalse]

end KevinDb
