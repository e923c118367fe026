import KevinDb.Compaction.Deletion
import KevinDb.Query.Replay

namespace KevinDb
set_option autoImplicit true

variable {x : Externals} {w w' : World} {db : Db} {k : RunKey} {head : RunHead}
  {committed : List SpanRecord}

/-- The tombstone of a deletion at this time comes after the events of the run, under a free key. -/
def Db.deletesLast (db : Db) (k : RunKey) (head : RunHead) (deletedAtUnixNano : Int) : Prop :=
  head.lastEventTimeUnixNano ≤ deletedAtUnixNano ∧
    ¬ db.hasEventKey (k.projectName, tombstoneKey k deletedAtUnixNano)

instance (db : Db) (k : RunKey) (head : RunHead) (deletedAtUnixNano : Int) :
    Decidable (db.deletesLast k head deletedAtUnixNano) :=
  inferInstanceAs (Decidable (_ ∧ _))

/-- The tombstones of an expiry come after the events of their runs, under keys of their own. -/
def Db.expiresLast (db : Db) (projectName : String) (cutoffUnixNano deletedAtUnixNano : Int) :
    Prop :=
  let candidates := db.expiryCandidates projectName cutoffUnixNano
  (∀ row ∈ candidates, db.deletesLast row.1 row.2 deletedAtUnixNano) ∧
    (candidates.map fun row => tombstoneKey row.1 deletedAtUnixNano).Nodup

instance (db : Db) (projectName : String) (cutoffUnixNano deletedAtUnixNano : Int) :
    Decidable (db.expiresLast projectName cutoffUnixNano deletedAtUnixNano) :=
  inferInstanceAs (Decidable (_ ∧ _))

/-- Deletions come after the events of the runs, with tombstone keys of their own, and deleted
runs get late events only. -/
def System.tombstonesStayLast (maxSpansPerSegment : Nat) (s : System) : Action → Prop
  | .delete k deletedAtUnixNano _ => ∀ head ∈ s.world.db.runHeads[k]?,
      head.deletedAtUnixNano = none → s.world.db.deletesLast k head deletedAtUnixNano
  | .expire projectName cutoffUnixNano deletedAtUnixNano =>
    s.world.db.expiresLast projectName cutoffUnixNano deletedAtUnixNano
  | action => s.deletedRunsGetLateEvents maxSpansPerSegment action

instance (maxSpansPerSegment : Nat) (s : System) (action : Action) :
    Decidable (s.tombstonesStayLast maxSpansPerSegment action) :=
  match action with
  | .delete k deletedAtUnixNano _ => inferInstanceAs (Decidable
      (∀ head ∈ s.world.db.runHeads[k]?, head.deletedAtUnixNano = none →
        s.world.db.deletesLast k head deletedAtUnixNano))
  | .expire projectName cutoffUnixNano deletedAtUnixNano => inferInstanceAs (Decidable
      (s.world.db.expiresLast projectName cutoffUnixNano deletedAtUnixNano))
  | .ingest .. | .readIds .. | .listRuns .. | .persist .. | .mark .. | .stop .. =>
    inferInstanceAs (Decidable (s.deletedRunsGetLateEvents maxSpansPerSegment _))

theorem Db.Settled.empty : Db.empty.Settled := by
  intro k hdeleted
  cases hdeleted

theorem Db.Settled.refresh (hs : db.Settled) (p t : String) :
    (db.refreshTraceTreeMetadata x p t).Settled := by
  unfold Db.Settled
  rw [Db.refresh_head]
  exact hs

theorem Db.Settled.writes (hs : w.db.Settled) (h : World.Writes x committed w w')
    (hlate : ∀ record ∈ committed, w.db.isLate record) : w'.db.Settled := by
  have hlate : ∀ segmentId record, w.db.nextTraceSegmentId ≤ segmentId ∧ record ∈ committed →
      w.db.isLate record := fun _ r hr => hlate r hr.2
  intro k hdeleted
  rw [h.runDeletions] at hdeleted
  obtain ⟨head, tombstone, hhead, hmark, htype, hsegment, htime, hlatest⟩ := hs k hdeleted
  refine ⟨head, tombstone, h.head_of_deleted hlate hhead hdeleted, hmark, htype, hsegment, htime,
    ?_⟩
  induction h with
  | refl => exact hlatest
  | tail _ hlast ih =>
    cases hlast with
    | put => exact ih
    | insertSegment => exact ih
    | event segmentId rowIndex record segment hwrites hseg hactive hread hkey =>
      rw [Db.applyEvent_eventsOf]
      split
      next hk =>
        subst hk
        obtain ⟨row, hrow, rfl⟩ := Db.head_eq_some hhead
        refine ih.append_of_lt (RunEvent.rank_lt_of_time_lt ?_)
        rw [htime]
        exact hlate segmentId record hwrites row hrow hdeleted
      next =>
        rw [List.append_nil]
        exact ih
    | refresh => exact ih
    | skip => exact ih

theorem Db.writeDeletion_eventsOf_self
    (hfree : ¬ db.hasEventKey (k.projectName, tombstoneKey k time)) :
    (db.writeDeletion k head time reason).eventsOf k =
      db.eventsOf k ++ [RunEvent.ofTombstone k head time db.nextRunEventId] := by
  have hinsert := (db.insertTombstone_cases k head time).resolve_left (by
    rintro ⟨old, hold, hkey, -⟩
    exact hfree ⟨old, hold, hkey⟩)
  rw [Db.writeDeletion_eq, hinsert.2, Db.eventsOf, List.filter_append, List.filter_singleton]
  rw [show (RunEvent.ofTombstone k head time db.nextRunEventId).runKey = k from rfl]
  simp [Db.eventsOf]

/-- Deleting an undeleted run puts a tombstone last, if its time and key allow it. -/
theorem Db.Settled.writeDeletion (hc : w.Consistent x) (hs : w.db.Settled)
    (hk : w.db.runHeads[k]? = some head) (hundeleted : w.db.runDeletions[k]? = none)
    (hlast : w.db.deletesLast k head time) : (w.db.writeDeletion k head time reason).Settled := by
  intro k' hdeleted
  rw [Db.writeDeletion_runDeletions] at hdeleted
  split at hdeleted
  next he =>
    subst he
    have hhead := Db.head_of_runHeads hk
    refine ⟨RunHead.setDeleted time reason (w.db.insertTombstone k head time).2 head.forgetTree,
      RunEvent.ofTombstone k head time w.db.nextRunEventId, ?_, rfl, rfl, rfl, rfl, ?_⟩
    · rw [Db.writeDeletion_head, if_pos rfl, hhead, Option.map_some]
    · obtain ⟨record, id, -, hwritten, hlatest⟩ := hc.head_latest k _ hhead hundeleted
      have htime : head.lastEventTimeUnixNano = record.eventTimeUnixNano :=
        congrArg RunHead.lastEventTimeUnixNano hwritten
      have hid : id < w.db.nextRunEventId := hc.event_lt _ (List.mem_filter.1 hlatest.1).1
      rw [Db.writeDeletion_eventsOf_self hlast.2]
      exact hlatest.append_of_le (RunEvent.rank_le_of_time_le (htime.symm.trans_le hlast.1) hid.le)
  next hne =>
    rw [Db.writeDeletion_head, if_neg hne, Db.writeDeletion_eventsOf hne]
    exact hs k' hdeleted

theorem Db.Settled.deleteRunInTx (hc : w.Consistent x) (hs : w.db.Settled)
    (hlast : ∀ head ∈ w.db.runHeads[k]?, head.deletedAtUnixNano = none →
      w.db.deletesLast k head time) : (w.db.deleteRunInTx x k time reason).1.Settled := by
  unfold Db.deleteRunInTx
  split
  · exact hs
  next head hk =>
    split
    · exact hs
    next hmark =>
      rw [Option.not_isSome_iff_eq_none] at hmark
      have hundeleted : w.db.runDeletions[k]? = none := by
        rw [← Option.not_isSome_iff_eq_none]
        intro hdeleted
        obtain ⟨head', -, hhead', hmark', -⟩ := hs k hdeleted
        rw [Db.head_of_runHeads hk] at hhead'
        cases hhead'
        rw [show head.forgetTree.deletedAtUnixNano = none from hmark] at hmark'
        cases hmark'
      exact (hs.writeDeletion hc hk hundeleted (hlast head hk hmark)).refresh _ _

theorem Db.deleteRunInTx_head_of_ne (hne : k ≠ k') :
    (db.deleteRunInTx x k time reason).1.head k' = db.head k' := by
  unfold Db.deleteRunInTx
  split
  · rfl
  · split
    · rfl
    · rw [Db.refresh_head, Db.writeDeletion_head, if_neg hne]

theorem Db.refresh_runEvents (x : Externals) (db : Db) (p t : String) :
    (db.refreshTraceTreeMetadata x p t).runEvents = db.runEvents := rfl

theorem Db.deleteRunInTx_hasEventKey
    (h : (db.deleteRunInTx x k time reason).1.hasEventKey key) :
    db.hasEventKey key ∨ key = (k.projectName, tombstoneKey k time) := by
  unfold Db.deleteRunInTx at h
  split at h
  · exact .inl h
  · split at h
    · exact .inl h
    · obtain ⟨event, hevent, rfl⟩ := h
      rw [Db.refresh_runEvents] at hevent
      rcases Db.mem_writeDeletion_runEvents hevent with hevent | rfl
      · exact .inl ⟨event, hevent, rfl⟩
      · exact .inr rfl

/-- Deleting runs one by one puts their tombstones last. -/
theorem Db.Settled.deleteAll (rows : List (RunKey × RunHead))
    (hc : World.Consistent x { w with db }) (hs : db.Settled)
    (hrows : ∀ row ∈ rows, db.head row.1 = some row.2.forgetTree ∧ db.deletesLast row.1 row.2 time)
    (hkeys : (rows.map fun row => tombstoneKey row.1 time).Nodup) :
    (rows.foldl (fun db row => (db.deleteRunInTx x row.1 time reason).1) db).Settled := by
  induction rows generalizing db with
  | nil => exact hs
  | cons row rows ih =>
    obtain ⟨hhead, hlast⟩ := hrows row List.mem_cons_self
    rw [List.map_cons, List.nodup_cons] at hkeys
    refine ih (hc.deleteRunInTx row.1 time reason) ?_ ?_ hkeys.2
    · refine hs.deleteRunInTx hc ?_
      intro head hk _
      rw [Db.head_of_runHeads hk] at hhead
      have htime := congrArg RunHead.lastEventTimeUnixNano (Option.some.inj hhead)
      exact ⟨htime.trans_le hlast.1, hlast.2⟩
    · intro row' hrow'
      have hne : tombstoneKey row'.1 time ≠ tombstoneKey row.1 time := by
        intro he
        exact hkeys.1 (he ▸ List.mem_map_of_mem hrow')
      obtain ⟨hhead', hlast'⟩ := hrows row' (List.mem_cons_of_mem _ hrow')
      refine ⟨(Db.deleteRunInTx_head_of_ne ?_).trans hhead', hlast'.1, ?_⟩
      · rintro he
        exact hne (he ▸ rfl)
      · intro hheld
        rcases Db.deleteRunInTx_hasEventKey hheld with hheld | he
        · exact hlast'.2 hheld
        · exact hne (Prod.mk.inj he).2

theorem Db.Settled.expireProjectRunsBefore (hc : w.Consistent x) (hs : w.db.Settled)
    (hlast : w.db.expiresLast projectName cutoff time) :
    (w.db.expireProjectRunsBefore x projectName cutoff time).Settled := by
  refine Db.Settled.deleteAll _ hc hs ?_ hlast.2
  intro row hrow
  have hmem := (List.mem_filter.1 hrow).1
  exact ⟨Db.head_of_runHeads (Std.TreeMap.mem_toList_iff_getElem?_eq_some.1 hmem),
    hlast.1 row hrow⟩

/-- The pending copies are copies, and no undeleted run has a tombstone for its head. -/
structure System.Replayable (x : Externals) (s : System) : Prop where
  consistent : s.world.Consistent x
  settled : s.world.db.Settled
  untombstoned : s.world.db.Untombstoned
  pending : ∀ execution ∈ s.executions, ∀ copy ∈ execution.pending, copy.eventKind = .compact

theorem System.Replayable.initial (x : Externals) : System.initial.Replayable x := by
  refine ⟨World.Consistent.empty x, Db.Settled.empty, ?_, ?_⟩
  · intro k head hhead
    cases hhead
  · intro execution hexecution
    cases hexecution

theorem Db.Untombstoned.writes (hc : w.Consistent x) (hu : w.db.Untombstoned)
    (h : World.Writes x committed w w')
    (hkind : ∀ record ∈ committed, record.eventKind ≠ .tombstone) : w'.db.Untombstoned := by
  intro k head hhead hundeleted
  rw [h.runDeletions] at hundeleted
  rcases h.head_cases hc hhead with hold | ⟨_, _, record, _, hwrites, -, rfl, -, -⟩
  · exact hu k head hold hundeleted
  · exact hkind record hwrites.2

theorem Db.Untombstoned.deletes (hu : db.Untombstoned) (h : db.Deletes db') :
    db'.Untombstoned := by
  intro k head hhead hundeleted
  obtain ⟨hundeleted, hsame⟩ := h.undeleted k hundeleted
  exact hu k head (hsame.symm.trans hhead) hundeleted

/-- The records of an action are sent by clients or pending copies. -/
theorem System.committed_kind {s s' : System}
    (hpending : ∀ execution ∈ s.executions, ∀ copy ∈ execution.pending, copy.eventKind = .compact)
    (h : s.step x maxSpansPerSegment action = some s') :
    ∀ record ∈ s.committed maxSpansPerSegment action,
      record.eventKind.isUser ∨ record.eventKind = .compact := by
  intro record hrecord
  cases System.step_cases h with
  | ingest partition name records fault hfree huser =>
    exact .inl (huser record (Db.committed_subset hrecord))
  | persist i name fault execution partition records work world turn hi hstage hfree hturn =>
    rw [System.committed_persist hi hstage] at hrecord
    exact .inr (hpending _ (List.mem_of_getElem? hi) record
      (Execution.turnCommitted_pending hstage _ hrecord))
  | _ => cases hrecord

/-- Pending copies stay copies. -/
theorem System.pending_step {s s' : System}
    (hpending : ∀ execution ∈ s.executions, ∀ copy ∈ execution.pending, copy.eventKind = .compact)
    (h : s.step x maxSpansPerSegment action = some s') :
    ∀ execution ∈ s'.executions, ∀ copy ∈ execution.pending, copy.eventKind = .compact := by
  intro e he
  cases System.step_cases h with
  | ingest => exact hpending e he
  | delete => exact hpending e he
  | expire => exact hpending e he
  | readIds projectName =>
    rcases List.mem_append.1 he with he | he
    · exact hpending e he
    · rw [List.mem_singleton.1 he]
      intro copy hcopy
      cases hcopy
  | listRuns i runs listed execution hi hstage hlisted hperm =>
    rcases System.mem_update he with he | he
    · exact hpending e he
    · intro copy hcopy
      rw [Execution.mem_pending_listed he] at hcopy
      obtain ⟨run, -, rfl⟩ := List.mem_map.1 hcopy
      rfl
  | persist i name fault execution partition records work world turn hi hstage hfree hturn =>
    rcases System.mem_update he with he | he
    · exact hpending e he
    · intro copy hcopy
      exact hpending execution (List.mem_of_getElem? hi) copy
        (Execution.pending_turned hstage hturn he hcopy)
  | mark i time execution hi hstage => exact hpending e (List.mem_of_mem_eraseIdx he)
  | stop i => exact hpending e (List.mem_of_mem_eraseIdx he)

theorem System.Replayable.step (x : Externals) (maxSpansPerSegment : Nat) (s : System)
    (action : Action) (s' : System) (hs : s.Replayable x)
    (hlast : s.tombstonesStayLast maxSpansPerSegment action)
    (h : s.step x maxSpansPerSegment action = some s') : s'.Replayable x := by
  have hconsistent := World.Consistent.step x maxSpansPerSegment s action s' hs.consistent h
  have hpending := System.pending_step hs.pending h
  have hkind := System.committed_kind hs.pending h
  have htombstone : ∀ record ∈ s.committed maxSpansPerSegment action,
      record.eventKind ≠ .tombstone := by
    intro record hrecord he
    have hkind := hkind record hrecord
    rw [he] at hkind
    simp [RunEventKind.isUser] at hkind
  have hlate : s.deletedRunsGetLateEvents maxSpansPerSegment action := by
    cases action with
    | delete => exact List.forall_mem_nil _
    | expire => exact List.forall_mem_nil _
    | _ => exact hlast
  refine ⟨hconsistent, ?_, ?_, hpending⟩
  · generalize hw' : s'.world = w'
    have hstep := System.storeStep h
    rw [hw'] at hstep
    cases hstep with
    | write action w' hwrites => exact hs.settled.writes hwrites hlate
    | delete k time reason => exact hs.settled.deleteRunInTx hs.consistent hlast
    | expire projectName cutoff time =>
      exact hs.settled.expireProjectRunsBefore hs.consistent hlast
    | mark action ids time => exact hs.settled
  · generalize hw' : s'.world = w'
    have hstep := System.storeStep h
    rw [hw'] at hstep
    cases hstep with
    | write action w' hwrites => exact hs.untombstoned.writes hs.consistent hwrites htombstone
    | delete k time reason => exact hs.untombstoned.deletes (Db.deleteRunInTx_deletes x _ k time _)
    | expire projectName cutoff time =>
      exact hs.untombstoned.deletes (Db.expireProjectRunsBefore_deletes x _ projectName cutoff time)
    | mark action ids time => exact hs.untombstoned

/-- While tombstones stay last, replaying a run id that names one run gives what loading it
gives. -/
theorem replay_refines_head (x : Externals) (maxSpansPerSegment : Nat) (actions : List Action)
    (s : System) (h : Transition.run (System.step x maxSpansPerSegment) .initial actions = some s)
    (hlast : Transition.Meets (System.step x maxSpansPerSegment)
      (System.tombstonesStayLast maxSpansPerSegment) .initial actions)
    (runId : String) (hone : s.world.db.namesOneRun runId) :
    s.world.replayRunById runId = s.world.loadRunById runId := by
  have hs := Transition.run_invariant _ (System.Replayable.step x maxSpansPerSegment)
    (System.Replayable.initial x) hlast h
  exact hs.consistent.replay_eq_load hs.settled hs.untombstoned hone

theorem replay_refines_head_late :
    ∃ s run, Transition.run (System.step .sample 1) .initial
        (deleteThenIngest .update 20 ++
          [.ingest ⟨"p", 0⟩ ⟨3, 3⟩ [.sample "t" "u" "c" .start 10 0] none,
            .ingest ⟨"p", 0⟩ ⟨4, 4⟩ [.sample "t" "u" "d" .«end» 10 30] none]) = some s ∧
      s.world.loadRunById "u" = some (some run) ∧ run.name = "d" ∧
      s.world.replayRunById "u" = some (some run) := by
  generalize hactions : deleteThenIngest .update 20 ++ _ = actions
  have hrun : (Transition.run (System.step .sample 1) .initial actions).map (fun s =>
      (decide (s.world.db.namesOneRun "u"),
        (s.world.loadRunById "u").map (Option.map RunSummary.name))) =
      some (true, some (some "d")) := by
    subst hactions
    decide +kernel
  have hlast : Transition.Meets (System.step .sample 1) (System.tombstonesStayLast 1) .initial
      actions := by
    subst hactions
    decide +kernel
  obtain ⟨s, hs, hload⟩ := Option.map_eq_some_iff.1 hrun
  obtain ⟨hone, hload⟩ := Prod.mk.inj hload
  obtain ⟨found, hload, hfound⟩ := Option.map_eq_some_iff.1 hload
  obtain ⟨run, rfl, hname⟩ := Option.map_eq_some_iff.1 hfound
  refine ⟨s, run, hs, hload, hname, ?_⟩
  rw [replay_refines_head .sample 1 actions s hs hlast "u" (of_decide_eq_true hone)]
  exact hload

/-- Replaying shows a run that was updated after its deletion, and loading it does not. -/
theorem replay_shows_deleted_run :
    ¬ ∀ (actions : List Action) (s : System),
      Transition.run (System.step .sample 1) .initial actions = some s →
      ∀ runId, s.world.db.namesOneRun runId →
        s.world.replayRunById runId = s.world.loadRunById runId := by
  intro hrefines
  have hrun : (Transition.run (System.step .sample 1) .initial (deleteThenIngest .update 50)).map
      (fun s => (decide (s.world.db.namesOneRun "s"),
        (s.world.replayRunById "s").map Option.isSome,
        (s.world.loadRunById "s").map Option.isSome)) =
      some (true, some true, some false) := by
    decide +kernel
  obtain ⟨s, hs, hruns⟩ := Option.map_eq_some_iff.1 hrun
  obtain ⟨hone, hruns⟩ := Prod.mk.inj hruns
  obtain ⟨hreplay, hload⟩ := Prod.mk.inj hruns
  rw [hrefines _ s hs "s" (of_decide_eq_true hone), hload] at hreplay
  cases hreplay

end KevinDb
