import KevinDb.Compaction.Content

namespace KevinDb
set_option autoImplicit true

variable {x : Externals} {w w' : World} {k : RunKey} {head : RunHead} {committed : List SpanRecord}

/-- A record that comes for a deleted run is older than the event its head names. -/
def Db.isLate (db : Db) (record : SpanRecord) : Prop :=
  ∀ head ∈ db.runHeads[record.runKey]?, db.runDeletions[record.runKey]?.isSome →
    record.eventTimeUnixNano < head.lastEventTimeUnixNano

instance (db : Db) (record : SpanRecord) : Decidable (db.isLate record) :=
  inferInstanceAs (Decidable (∀ head ∈ db.runHeads[record.runKey]?, _))

/-- No action commits an event of a deleted run that is as new as its head. -/
def System.deletedRunsGetLateEvents (maxSpansPerSegment : Nat) (s : System) (action : Action) :
    Prop :=
  ∀ record ∈ s.committed maxSpansPerSegment action, s.world.db.isLate record

instance (maxSpansPerSegment : Nat) (s : System) (action : Action) :
    Decidable (s.deletedRunsGetLateEvents maxSpansPerSegment action) :=
  inferInstanceAs (Decidable (∀ record ∈ s.committed maxSpansPerSegment action, _))

/-- Late events leave the heads of deleted runs as they are. -/
theorem World.Changes.head_of_deleted (h : World.Changes x writes w w')
    (hlate : ∀ segmentId record, writes segmentId record → w.db.isLate record)
    (hhead : w.db.head k = some head) (hdeleted : w.db.runDeletions[k]?.isSome) :
    w'.db.head k = some head := by
  obtain ⟨row, hrow, rfl⟩ := Db.head_eq_some hhead
  induction h with
  | refl => exact hhead
  | tail _ hlast ih =>
    cases hlast with
    | put => exact ih
    | insertSegment => exact ih
    | event segmentId rowIndex record segment hwrites hsegment hactive hread hkey =>
      rw [Db.applyEvent_head]
      split
      next hk =>
        subst hk
        have hlt := hlate segmentId record hwrites row hrow hdeleted
        have hkeep : ∀ id, RunHead.yieldsTo record id row.forgetTree = false :=
          RunHead.yieldsTo_of_lt hlt
        rw [ih, RunHead.after, Table.upserted, hkeep]
        rfl
      next => exact ih
    | refresh p t =>
      rw [Db.refresh_head]
      exact ih
    | skip => exact ih

/-- A run with a deletion row has a head, and the head has a deletion mark. -/
def Db.Marked (db : Db) : Prop :=
  ∀ k : RunKey, db.runDeletions[k]?.isSome →
    ∃ head, db.head k = some head ∧ head.deletedAtUnixNano.isSome

theorem Db.Marked.empty : Db.empty.Marked := by
  intro k hdeleted
  cases hdeleted

theorem Db.Marked.writes (hw : w.db.Marked) (h : World.Writes x committed w w')
    (hlate : ∀ record ∈ committed, w.db.isLate record) : w'.db.Marked := by
  intro k hdeleted
  rw [h.runDeletions] at hdeleted
  obtain ⟨head, hhead, hmark⟩ := hw k hdeleted
  exact ⟨head, h.head_of_deleted (fun _ r hr => hlate r hr.2) hhead hdeleted, hmark⟩

theorem Db.Marked.writeDeletion {db : Db} (hdb : db.Marked) (hk : db.runHeads[k]? = some head) :
    (db.writeDeletion k head time reason).Marked := by
  intro k' hdeleted
  rw [Db.writeDeletion_runDeletions] at hdeleted
  rw [Db.writeDeletion_head]
  split at hdeleted
  next he =>
    subst he
    rw [if_pos rfl, Db.head_of_runHeads hk]
    exact ⟨_, rfl, rfl⟩
  next hne =>
    rw [if_neg hne]
    exact hdb k' hdeleted

theorem Db.Marked.deleteRunInTx {db : Db} (hdb : db.Marked) (x : Externals) (k : RunKey)
    (time : Int) (reason : Option String) : (db.deleteRunInTx x k time reason).1.Marked := by
  unfold Db.deleteRunInTx
  split
  · exact hdb
  next head hk =>
    split
    · exact hdb
    · intro k' hdeleted
      rw [Db.refresh_head]
      exact hdb.writeDeletion hk k' hdeleted

theorem Db.Marked.step (x : Externals) (maxSpansPerSegment : Nat) (s : System) (action : Action)
    (s' : System) (hs : s.world.db.Marked)
    (hlate : s.deletedRunsGetLateEvents maxSpansPerSegment action)
    (h : s.step x maxSpansPerSegment action = some s') : s'.world.db.Marked := by
  generalize hw' : s'.world = w'
  have hstep := System.storeStep h
  rw [hw'] at hstep
  cases hstep with
  | write action w' hwrites => exact hs.writes hwrites hlate
  | delete k time reason => exact hs.deleteRunInTx x k time reason
  | expire projectName cutoff time =>
    refine Db.expireProjectRunsBefore_induction Db.Marked ?_ hs
    intro db k hdb
    exact hdb.deleteRunInTx x k time _
  | mark action ids time => exact hs

/-- While deleted runs get late events only, a head has a deletion mark exactly if the run has a
deletion row. -/
theorem deletion_marks_agree (x : Externals) (maxSpansPerSegment : Nat) (actions : List Action)
    (s : System) (h : Transition.run (System.step x maxSpansPerSegment) .initial actions = some s)
    (hlate : Transition.Meets (System.step x maxSpansPerSegment)
      (System.deletedRunsGetLateEvents maxSpansPerSegment) .initial actions)
    (k : RunKey) (head : RunHead) (hk : s.world.db.runHeads[k]? = some head) :
    head.deletedAtUnixNano.isSome ↔ s.world.db.runDeletions[k]?.isSome := by
  have hc := Transition.run_invariant_of_step (fun s => s.world.Consistent x)
    (World.Consistent.step x maxSpansPerSegment) (World.Consistent.empty x) h
  have hmarked := Transition.run_invariant (fun s => s.world.db.Marked)
    (Db.Marked.step x maxSpansPerSegment) Db.Marked.empty hlate h
  constructor
  · intro hmark
    by_contra hnone
    rw [Option.not_isSome_iff_eq_none] at hnone
    have hlive := (hc.isLive_iff hk).2 hnone
    rw [Db.isLive, Bool.and_eq_true, Option.isNone_iff_eq_none] at hlive
    rw [hlive.1] at hmark
    cases hmark
  · intro hdeleted
    obtain ⟨head', hhead', hmark⟩ := hmarked k hdeleted
    rw [Db.head_of_runHeads hk] at hhead'
    cases hhead'
    exact hmark

/-- A run that is deleted, and gets another event of the given kind and end time afterwards. -/
def deleteThenIngest (eventKind : RunEventKind) (endTimeUnixNano : Int) : List Action :=
  [.ingest ⟨"p", 0⟩ ⟨1, 1⟩ [.sample "t" "s" "a" .«end» 10 30] none,
    .delete ⟨"p", "t", "s"⟩ 40 none,
    .ingest ⟨"p", 0⟩ ⟨2, 2⟩ [.sample "t" "s" "b" eventKind 10 endTimeUnixNano] none]

theorem deletion_marks_agree_late :
    ∃ s head, Transition.run (System.step .sample 1) .initial (deleteThenIngest .update 20) =
        some s ∧
      s.world.db.runHeads[RunKey.mk "p" "t" "s"]? = some head ∧
      (head.deletedAtUnixNano.isSome ↔
        s.world.db.runDeletions[RunKey.mk "p" "t" "s"]?.isSome) := by
  have hrun : (Transition.run (System.step .sample 1) .initial (deleteThenIngest .update 20)).map
      (fun s => s.world.db.runHeads[RunKey.mk "p" "t" "s"]?.map RunHead.eventRef) =
      some (some ⟨1, 0, .tombstone, 40, some 2⟩) := by
    decide +kernel
  have hlate : Transition.Meets (System.step .sample 1) (System.deletedRunsGetLateEvents 1) .initial
      (deleteThenIngest .update 20) := by
    decide +kernel
  obtain ⟨s, hs, hrow⟩ := Option.map_eq_some_iff.1 hrun
  obtain ⟨head, hhead, -⟩ := Option.map_eq_some_iff.1 hrow
  exact ⟨s, head, hs, hhead, deletion_marks_agree .sample 1 _ s hs hlate _ head hhead⟩

/-- An update newer than the deletion clears the mark of the head and leaves the deletion row. -/
theorem deletion_marks_disagree :
    ¬ ∀ (actions : List Action) (s : System),
      Transition.run (System.step .sample 1) .initial actions = some s →
      ∀ (k : RunKey) (head : RunHead), s.world.db.runHeads[k]? = some head →
        (head.deletedAtUnixNano.isSome ↔ s.world.db.runDeletions[k]?.isSome) := by
  intro hagree
  have hrun : (Transition.run (System.step .sample 1) .initial (deleteThenIngest .update 50)).map
      (fun s => (s.world.db.runDeletions[RunKey.mk "p" "t" "s"]?,
        s.world.db.runHeads[RunKey.mk "p" "t" "s"]?.map RunHead.deletedAtUnixNano)) =
      some (some ⟨40, none⟩, some none) := by
    decide +kernel
  obtain ⟨s, hs, hrow⟩ := Option.map_eq_some_iff.1 hrun
  obtain ⟨hdeleted, hhead⟩ := Prod.mk.inj hrow
  obtain ⟨head, hhead, hmark⟩ := Option.map_eq_some_iff.1 hhead
  have hiff := hagree _ s hs _ head hhead
  rw [hdeleted, hmark] at hiff
  exact absurd (hiff.2 rfl) Bool.false_ne_true

end KevinDb
