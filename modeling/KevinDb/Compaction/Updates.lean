import KevinDb.Compaction.Preservation
import KevinDb.Compaction.Replay

namespace KevinDb
set_option autoImplicit true

variable {x : Externals} {w w' : World} {k : RunKey} {head : RunHead} {committed : List SpanRecord}

def Action.isDeletion : Action → Bool
  | .delete .. | .expire .. => true
  | .ingest .. | .readIds _ | .listRuns .. | .persist .. | .mark .. | .stop _ => false

/-- The events of a run that clients sent. -/
def Db.userEventsOf (db : Db) (k : RunKey) : List RunEvent :=
  (db.eventsOf k).filter fun event => event.eventType.isUser

/-- A copy with the event time of the head of its run says what the row of the head says. -/
def World.tiesAlike (w : World) (copy : SpanRecord) : Prop :=
  ∀ head ∈ w.db.runHeads[copy.runKey]?,
    copy.eventTimeUnixNano = head.lastEventTimeUnixNano →
      w.content head = some (RunSummary.ofRecord copy)

instance (w : World) (copy : SpanRecord) : Decidable (w.tiesAlike copy) :=
  inferInstanceAs (Decidable (∀ head ∈ w.db.runHeads[copy.runKey]?, _))

/-- No copy is committed that ties with an update of other content. -/
def System.copiesTieAlike (maxSpansPerSegment : Nat) (s : System) : Action → Prop
  | .persist i name fault =>
    ∀ copy ∈ s.committed maxSpansPerSegment (.persist i name fault), s.world.tiesAlike copy
  | _ => True

instance (maxSpansPerSegment : Nat) (s : System) (action : Action) :
    Decidable (s.copiesTieAlike maxSpansPerSegment action) :=
  match action with
  | .persist i name fault => inferInstanceAs (Decidable
      (∀ copy ∈ s.committed maxSpansPerSegment (.persist i name fault), s.world.tiesAlike copy))
  | .ingest .. | .delete .. | .expire .. | .readIds _ | .listRuns .. | .mark .. | .stop _ =>
    .isTrue True.intro

/-- Each head has the time and the content of the latest event that clients sent for its run. -/
def World.Updated (w : World) : Prop :=
  ∀ k head, w.db.head k = some head → ∃ event record,
    IsLatest RunEvent.rank (w.db.userEventsOf k) event ∧
    w.rowAt event.traceSegmentId event.rowIndex = some record ∧
    event.eventTimeUnixNano = head.lastEventTimeUnixNano ∧
    w.content head = some (RunSummary.ofRecord record)

/-- The run of a pending copy has a head that is not older. -/
def World.Precedes (w : World) (copy : SpanRecord) : Prop :=
  ∃ head, w.db.head copy.runKey = some head ∧
    copy.eventTimeUnixNano ≤ head.lastEventTimeUnixNano

structure System.UpToDate (x : Externals) (s : System) : Prop where
  consistent : s.world.Consistent x
  undeleted : ∀ k : RunKey, s.world.db.runDeletions[k]? = none
  updated : s.world.Updated
  pending : ∀ execution ∈ s.executions, ∀ copy ∈ execution.pending, copy.eventKind = .compact
  precedes : ∀ execution ∈ s.executions, ∀ copy ∈ execution.pending, s.world.Precedes copy

theorem System.UpToDate.initial (x : Externals) : System.initial.UpToDate x := by
  refine ⟨World.Consistent.empty x, fun _ => rfl, ?_, ?_, ?_⟩
  · intro k head hhead
    cases hhead
  · exact List.forall_mem_nil _
  · exact List.forall_mem_nil _

theorem Db.mem_userEventsOf {db : Db} {event : RunEvent} :
    event ∈ db.userEventsOf k ↔
      event ∈ db.runEvents ∧ event.runKey = k ∧ event.eventType.isUser := by
  rw [Db.userEventsOf, Db.eventsOf, List.mem_filter, List.mem_filter, decide_eq_true_iff, and_assoc]

/-- A head that a client's record leaves is that of the record. -/
theorem World.Updated.of_user (hw : w.Consistent x) (hhead : w.db.head k = some head)
    (hdeleted : w.db.runDeletions[k]? = none) (huser : head.lastEventType.isUser) :
    ∃ event record, IsLatest RunEvent.rank (w.db.userEventsOf k) event ∧
      w.rowAt event.traceSegmentId event.rowIndex = some record ∧
      event.eventTimeUnixNano = head.lastEventTimeUnixNano ∧
      w.content head = some (RunSummary.ofRecord record) := by
  obtain ⟨record, id, hrow, hwritten, hlatest⟩ := hw.head_latest k head hhead hdeleted
  have htype : head.lastEventType = record.eventKind := congrArg RunHead.lastEventType hwritten
  rw [htype] at huser
  refine ⟨RunEvent.ofRecord record head.lastTraceSegmentId head.lastRowIndex id, record, ?_, hrow,
    (congrArg RunHead.lastEventTimeUnixNano hwritten).symm, ?_⟩
  · refine ⟨List.mem_filter.2 ⟨hlatest.1, huser⟩, ?_⟩
    intro event hevent
    exact hlatest.2 event (List.mem_filter.1 hevent).1
  · exact World.content_eq_some.2 ⟨record, hrow, rfl⟩

/-- Records of clients keep the heads up to date. -/
theorem World.Updated.ingest (hw : w.Updated) (hc : w.Consistent x)
    (h : World.Writes x committed w w') (hundeleted : ∀ k : RunKey, w.db.runDeletions[k]? = none)
    (huser : ∀ record ∈ committed, record.eventKind.isUser) : w'.Updated := by
  intro k head hhead
  have hc' := h.consistent hc
  have hdeleted' : w'.db.runDeletions[k]? = none := by
    rw [h.runDeletions]
    exact hundeleted k
  by_cases hsent : head.lastEventType.isUser
  · exact World.Updated.of_user hc' hhead hdeleted' hsent
  rcases h.head_cases hc hhead with hold | ⟨_, _, record, _, hwrites, -, hwritten, -, -⟩
  · obtain ⟨event, record, hlatest, hrow, htime, hcontent⟩ := hw k head hold
    obtain ⟨hevent, hkey, htype⟩ := Db.mem_userEventsOf.1 hlatest.1
    refine ⟨event, record, ⟨Db.mem_userEventsOf.2 ⟨h.runEvents_subset.1 hevent, hkey, htype⟩, ?_⟩,
      h.rowAt hc hrow, htime, (h.content hc hold).trans hcontent⟩
    intro new hnew
    obtain ⟨hmem, hk, hkind⟩ := Db.mem_userEventsOf.1 hnew
    rcases h.mem_runEvents hmem with hmem | ⟨_, _, sent, newId, -, hid, rfl⟩
    · exact hlatest.2 new (Db.mem_userEventsOf.2 ⟨hmem, hk, hkind⟩)
    · -- A new event with the time of the head would have taken the head.
      obtain ⟨id, hlast, hlt, -⟩ := hc.head_event hold (hundeleted k)
      obtain ⟨id', hlast', -, hmax⟩ := hc'.head_event hhead hdeleted'
      rw [hlast] at hlast'
      cases hlast'
      obtain ⟨hle, hsame⟩ := hmax _ hmem hk
      refine (RunEvent.rank_lt_of_time_lt (lt_of_le_of_ne (htime ▸ hle) ?_)).le
      intro he
      exact absurd (hlt.trans_le hid) (Nat.not_lt.2 (hsame (he.trans htime)))
  · have hkind : head.lastEventType = record.eventKind := congrArg RunHead.lastEventType hwritten
    rw [hkind] at hsent
    exact absurd (huser record hwrites.2) hsent

/-- Copies that fit keep the heads up to date. -/
theorem World.Updated.copies (hw : w.Updated) (hc : w.Consistent x)
    (h : World.Writes x committed w w') (hundeleted : ∀ k : RunKey, w.db.runDeletions[k]? = none)
    (hkind : ∀ copy ∈ committed, copy.eventKind = .compact)
    (hfits : ∀ copy ∈ committed, w.CopyFits copy) : w'.Updated := by
  intro k head' hhead'
  obtain ⟨head, hhead, hsame, hcontent'⟩ :=
    World.Changes.head_of_copies hc h hfits hhead' (hundeleted k)
  obtain ⟨event, record, hlatest, hrow, htime, hcontent⟩ := hw k head hhead
  obtain ⟨hevent, hkey, htype⟩ := Db.mem_userEventsOf.1 hlatest.1
  refine ⟨event, record, ⟨Db.mem_userEventsOf.2 ⟨h.runEvents_subset.1 hevent, hkey, htype⟩, ?_⟩,
    h.rowAt hc hrow, htime.trans hsame.symm, hcontent'.trans hcontent⟩
  intro new hnew
  obtain ⟨hmem, hk, hsent⟩ := Db.mem_userEventsOf.1 hnew
  rcases h.mem_runEvents hmem with hmem | ⟨_, _, copy, _, hwrites, -, rfl⟩
  · exact hlatest.2 new (Db.mem_userEventsOf.2 ⟨hmem, hk, hsent⟩)
  · rw [show (RunEvent.ofRecord copy _ _ _).eventType = copy.eventKind from rfl,
      hkind copy hwrites.2] at hsent
    cases hsent

theorem World.Precedes.changes (hc : w.Consistent x) (h : World.Changes x writes w w')
    (hundeleted : ∀ k : RunKey, w.db.runDeletions[k]? = none) (hw : w.Precedes copy) :
    w'.Precedes copy := by
  obtain ⟨head, hhead, hle⟩ := hw
  obtain ⟨head', hhead', hle'⟩ := h.head_stays hc hhead (hundeleted _)
  exact ⟨head', hhead', hle.trans hle'⟩

theorem World.Updated.mark (hw : w.Updated) (ids : List Nat) (time : Int) :
    World.Updated { w with db := w.db.markSegmentsCompacted ids time } := by
  unfold World.Updated World.content
  rw [World.rowAt_mark]
  exact hw

theorem System.UpToDate.step (x : Externals) (maxSpansPerSegment : Nat) (s : System)
    (action : Action) (s' : System) (hs : s.UpToDate x)
    (hcond : action.isDeletion = false ∧ s.copiesTieAlike maxSpansPerSegment action)
    (h : s.step x maxSpansPerSegment action = some s') : s'.UpToDate x := by
  have hc := hs.consistent
  have hconsistent := World.Consistent.step x maxSpansPerSegment s action s' hc h
  have hpending := System.pending_step hs.pending h
  cases System.step_cases h with
  | ingest partition name records fault hfree huser =>
    have hwrites : World.Writes x _ s.world
        (s.world.persistSegment x partition name records fault).1 :=
      World.persistSegment_changes s.world hfree
    refine ⟨hconsistent, ?_, hs.updated.ingest hc hwrites hs.undeleted ?_, hpending,
      fun e he copy hcopy => (hs.precedes e he copy hcopy).changes hc hwrites hs.undeleted⟩
    · intro k
      rw [hwrites.runDeletions]
      exact hs.undeleted k
    · exact fun record hrecord => huser record (Db.committed_subset hrecord)
  | delete => cases hcond.1
  | expire => cases hcond.1
  | readIds projectName =>
    refine ⟨hconsistent, hs.undeleted, hs.updated, hpending, ?_⟩
    intro e he
    rcases List.mem_append.1 he with he | he
    · exact hs.precedes e he
    · rw [List.mem_singleton.1 he]
      exact List.forall_mem_nil _
  | listRuns i listing shown execution hi hstage hshown hperm =>
    refine ⟨hconsistent, hs.undeleted, hs.updated, hpending, ?_⟩
    intro e he
    rcases System.mem_update he with he | he
    · exact hs.precedes e he
    · intro copy hcopy
      obtain ⟨head, hhead, hle, -⟩ :=
        hc.copyFits (Execution.liveRun_of_listed hc hshown hperm he copy hcopy)
      exact ⟨head, hhead, hle⟩
  | persist i name fault execution partition records work world turn hi hstage hfree hturn =>
    have hmem := List.mem_of_getElem? hi
    have hwrites := hturn.writes hfree
    have hties := hcond.2
    simp only [System.copiesTieAlike, System.committed_persist hi hstage] at hties
    refine ⟨hconsistent, ?_, hs.updated.copies hc hwrites hs.undeleted ?_ ?_, hpending, ?_⟩
    · intro k
      rw [hwrites.runDeletions]
      exact hs.undeleted k
    · intro copy hcopy
      exact hs.pending execution hmem copy (Execution.turnCommitted_pending hstage _ hcopy)
    · intro copy hcopy
      obtain ⟨head, hhead, hle⟩ :=
        hs.precedes execution hmem copy (Execution.turnCommitted_pending hstage _ hcopy)
      obtain ⟨row, hk, rfl⟩ := Db.head_eq_some hhead
      exact ⟨row.forgetTree, hhead, hle, hties copy hcopy row hk⟩
    · intro e he
      rcases System.mem_update he with he | he
      · exact fun copy hcopy => (hs.precedes e he copy hcopy).changes hc hwrites hs.undeleted
      · intro copy hcopy
        exact (hs.precedes execution hmem copy (Execution.pending_turned hstage hturn he hcopy)
          ).changes hc hwrites hs.undeleted
  | mark i time execution hi hstage =>
    exact ⟨hconsistent, hs.undeleted, hs.updated.mark _ time, hpending,
      fun e he => hs.precedes e (List.mem_of_mem_eraseIdx he)⟩
  | stop i =>
    exact ⟨hconsistent, hs.undeleted, hs.updated, hpending,
      fun e he => hs.precedes e (List.mem_of_mem_eraseIdx he)⟩

/-- Without deletions, and with copies that tie with no other update, the row of a head says what
the latest event that clients sent for the run says. -/
theorem last_update_kept (x : Externals) (maxSpansPerSegment : Nat) (actions : List Action)
    (s : System) (h : Transition.run (System.step x maxSpansPerSegment) .initial actions = some s)
    (hkept : ∀ action ∈ actions, action.isDeletion = false)
    (hties : Transition.Meets (System.step x maxSpansPerSegment)
      (System.copiesTieAlike maxSpansPerSegment) .initial actions)
    (k : RunKey) (head : RunHead) (hk : s.world.db.runHeads[k]? = some head) :
    ∃ event record row, IsLatest RunEvent.rank (s.world.db.userEventsOf k) event ∧
      s.world.rowAt event.traceSegmentId event.rowIndex = some record ∧
      s.world.rowAt head.lastTraceSegmentId head.lastRowIndex = some row ∧
      RunSummary.ofRecord row = RunSummary.ofRecord record := by
  have hs := Transition.run_invariant _ (System.UpToDate.step x maxSpansPerSegment)
    (System.UpToDate.initial x) (.and_of_forall hkept hties) h
  obtain ⟨event, record, hlatest, hrecord, -, hcontent⟩ :=
    hs.updated k head.forgetTree (Db.head_of_runHeads hk)
  obtain ⟨row, hrow, hsame⟩ := World.content_eq_some.1 hcontent
  exact ⟨event, record, row, hlatest, hrecord, hrow, hsame⟩

/-- A compaction of a pending run and a finished one, with an update of the first that commits
after the listing. -/
def updateListed (eventKind : RunEventKind) (endTimeUnixNano : Int) : List Action :=
  ingestTwo (.sample "t" "s" "a" .start 10 0) (.sample "t" "u" "n" .«end» 10 30) ++
    listTwo (.sample "t" "s" "a" .start 10 0) (.sample "t" "u" "n" .«end» 10 30) ++
    [.ingest ⟨"p", 0⟩ ⟨3, 3⟩ [.sample "t" "s" "b" eventKind 10 endTimeUnixNano] none,
      .persist 0 ⟨4, 4⟩ none, .persist 0 ⟨5, 5⟩ none, .persist 0 ⟨6, 6⟩ none, .mark 0 90]

theorem last_update_kept_end :
    ∃ s head event record row, Transition.run (System.step .sample 1) .initial
        (updateListed .«end» 40) = some s ∧ s.executions = [] ∧
      s.world.db.runHeads[RunKey.mk "p" "t" "s"]? = some head ∧
      IsLatest RunEvent.rank (s.world.db.userEventsOf ⟨"p", "t", "s"⟩) event ∧
      s.world.rowAt event.traceSegmentId event.rowIndex = some record ∧
      s.world.rowAt head.lastTraceSegmentId head.lastRowIndex = some row ∧
      RunSummary.ofRecord row = RunSummary.ofRecord record := by
  generalize hactions : updateListed _ _ = actions
  have hrun : (Transition.run (System.step .sample 1) .initial actions).map
      (fun s => (decide (s.executions = []),
        (s.world.db.runHeads[RunKey.mk "p" "t" "s"]?).isSome)) = some (true, true) := by
    subst hactions
    decide +kernel
  have hkept : ∀ action ∈ actions, action.isDeletion = false := by
    subst hactions
    decide
  have hties : Transition.Meets (System.step .sample 1) (System.copiesTieAlike 1) .initial
      actions := by
    subst hactions
    decide +kernel
  obtain ⟨s, hs, hfacts⟩ := Option.map_eq_some_iff.1 hrun
  obtain ⟨hidle, hsome⟩ := Prod.mk.inj hfacts
  obtain ⟨head, hhead⟩ := Option.isSome_iff_exists.1 hsome
  obtain ⟨event, record, row, hlatest⟩ :=
    last_update_kept .sample 1 actions s hs hkept hties ⟨"p", "t", "s"⟩ head hhead
  exact ⟨s, head, event, record, row, hs, of_decide_eq_true hidle, hhead, hlatest⟩

/-- An update of a pending run that keeps its start time ties with the copy made before it, and
the copy takes the head. -/
theorem last_update_lost :
    ¬ ∀ (actions : List Action) (s : System),
      Transition.run (System.step .sample 1) .initial actions = some s →
      (∀ action ∈ actions, action.isDeletion = false) → s.executions = [] →
      ∀ (k : RunKey) (head : RunHead), s.world.db.runHeads[k]? = some head →
        ∃ event record row, IsLatest RunEvent.rank (s.world.db.userEventsOf k) event ∧
          s.world.rowAt event.traceSegmentId event.rowIndex = some record ∧
          s.world.rowAt head.lastTraceSegmentId head.lastRowIndex = some row ∧
          RunSummary.ofRecord row = RunSummary.ofRecord record := by
  intro hlast
  generalize hactions : updateListed .update 0 = actions
  have hrun : (Transition.run (System.step .sample 1) .initial actions).map
      (fun s => (decide (s.executions = []),
        s.world.db.runHeads[RunKey.mk "p" "t" "s"]?.bind fun head =>
          (s.world.content head).map RunSummary.name)) = some (true, some "a") := by
    subst hactions
    decide +kernel
  have hevents : (Transition.run (System.step .sample 1) .initial actions).map
      (fun s => (s.world.db.userEventsOf ⟨"p", "t", "s"⟩).map fun event =>
        (event.eventTimeUnixNano, event.id,
          (s.world.rowAt event.traceSegmentId event.rowIndex).map SpanRecord.name)) =
      some [(10, 1, some "a"), (10, 3, some "b")] := by
    subst hactions
    decide +kernel
  have hkept : ∀ action ∈ actions, action.isDeletion = false := by
    subst hactions
    decide
  obtain ⟨s, hs, hfacts⟩ := Option.map_eq_some_iff.1 hrun
  obtain ⟨hidle, hhead⟩ := Prod.mk.inj hfacts
  rw [hs, Option.map_some, Option.some.injEq] at hevents
  obtain ⟨head, hhead, hname⟩ := Option.bind_eq_some_iff.1 hhead
  obtain ⟨event, record, row, hlatest, hrecord, hrow, hsame⟩ :=
    hlast actions s hs hkept (of_decide_eq_true hidle) _ head hhead
  have hmem := fun columns : Int × Nat × Option String => hevents ▸ List.mem_map (b := columns)
  obtain ⟨update, hupdate, hcolumns⟩ := (hmem (10, 3, some "b")).1 (by decide)
  obtain ⟨htime, hcolumns⟩ := Prod.mk.inj hcolumns
  obtain ⟨hid, -⟩ := Prod.mk.inj hcolumns
  have hevent := (hmem _).2 ⟨event, hlatest.1, rfl⟩
  rw [hrecord] at hevent
  rw [World.content, hrow, Option.map_some, hsame] at hname
  simp only [Option.map_some, List.mem_cons, Prod.mk.injEq, List.not_mem_nil, or_false,
    Option.some.injEq] at hevent hname
  rcases hevent with ⟨htime', hid', -⟩ | ⟨-, -, hlast⟩
  · have hrank := hlatest.2 update hupdate
    rw [RunEvent.rank, RunEvent.rank, htime, htime', hid, hid', Prod.Lex.toLex_le_toLex] at hrank
    omega
  · rw [show (RunSummary.ofRecord record).name = record.name from rfl, hlast] at hname
    exact absurd hname (by decide)

end KevinDb
