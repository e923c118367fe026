import KevinDb.Ingest.Compact
import KevinDb.Store

namespace KevinDb
set_option autoImplicit true

/-- Where an execution of `compact_project` stands: before listing the runs, or with copies
of runs still to be written, partition by partition. -/
inductive Stage where
  | listing
  | writing (work : List (PartitionKey × List SpanRecord))
deriving DecidableEq

/-- An execution of `compact_project` with the segment ids it has read. -/
structure Execution where
  projectName : String
  segmentIds : List Nat
  stage : Stage
deriving DecidableEq

/-- The copies of an execution that are not written yet. -/
def Execution.pending (execution : Execution) : List SpanRecord :=
  match execution.stage with
  | .listing => []
  | .writing work => work.flatMap Prod.snd

/-- The copies of the partition that is being written. -/
def Execution.current (execution : Execution) : List SpanRecord :=
  match execution.stage with
  | .writing ((_, records) :: _) => records
  | _ => []

/-- The store and the executions of `compact_project` in progress. -/
structure System where
  world : World
  executions : List Execution

def System.initial : System := ⟨.empty, []⟩

/-- The transactions of the system. An execution is named by its position. -/
inductive Action where
  | ingest (partition : PartitionKey) (name : SegmentName) (records : List SpanRecord)
      (fault : Option SegmentFault)
  | delete (k : RunKey) (deletedAtUnixNano : Int) (reason : Option String)
  | expire (projectName : String) (cutoffUnixNano deletedAtUnixNano : Int)
  | readIds (projectName : String)
  | listRuns (i : Nat) (runs : List RunSummary)
  | persist (i : Nat) (name : SegmentName) (fault : Option TurnFault)
  | mark (i : Nat) (compactedAtUnixNano : Int)
  | stop (i : Nat)

/-- The kinds that clients send. -/
def RunEventKind.isUser : RunEventKind → Bool
  | .start | .update | .«end» => true
  | .compact | .tombstone => false

def Execution.start (world : World) (projectName : String) : Execution :=
  ⟨projectName, world.db.activeProjectSegmentIds projectName, .listing⟩

/-- The copies that a listing gives, in the order of the runs. -/
def Execution.copies (execution : Execution) (runs : List RunSummary) : List SpanRecord :=
  runs.map fun run => spanRecordFromRunSummary run (compactionBatchKey execution.segmentIds)

/-- An execution after its listing, unless it has nothing to compact. -/
def Execution.listed (execution : Execution) (runs : List RunSummary) : Option Execution :=
  if runs = [] ∨ execution.segmentIds.length ≤ 1 then none
  else some { execution with
    stage := .writing (groupRecordsByPartition (execution.copies runs)).toList }

/-- An execution after a turn over its first partition, unless the turn failed. -/
def Execution.turned (execution : Execution) (partition : PartitionKey)
    (work : List (PartitionKey × List SpanRecord)) : Turn → Option Execution
  | .finished => some { execution with stage := .writing work }
  | .continued _ rest => some { execution with stage := .writing ((partition, rest) :: work) }
  | .failed _ => none

/-- Put an execution in its place again, or drop it when it has ended. -/
def System.update (executions : List Execution) (i : Nat) : Option Execution → List Execution
  | some execution => executions.set i execution
  | none => executions.eraseIdx i

/-- One transaction. `listRuns` takes the runs of the listing in any order. -/
def System.step (x : Externals) (maxSpansPerSegment : Nat) (s : System) : Action → Option System
  | .ingest partition name records fault =>
    if s.world.nameFree partition name records ∧ ∀ r ∈ records, r.eventKind.isUser then
      some { s with world := (s.world.persistSegment x partition name records fault).1 }
    else none
  | .delete k deletedAtUnixNano reason =>
    some { s with world := { s.world with
      db := (s.world.db.deleteRunInTx x k deletedAtUnixNano reason).1 } }
  | .expire projectName cutoffUnixNano deletedAtUnixNano =>
    some { s with world := { s.world with
      db := s.world.db.expireProjectRunsBefore x projectName cutoffUnixNano deletedAtUnixNano } }
  | .readIds projectName =>
    some { s with executions := s.executions ++ [.start s.world projectName] }
  | .listRuns i runs =>
    match s.executions[i]? with
    | none => none
    | some execution =>
      if execution.stage = .listing ∧
          ∃ listed ∈ s.world.listRuns execution.projectName, runs.Perm listed then
        some { s with executions := System.update s.executions i (execution.listed runs) }
      else none
  | .persist i name fault =>
    match s.executions[i]? with
    | none => none
    | some execution =>
      match execution.stage with
      | .writing ((partition, records) :: work) =>
        if s.world.nameFree partition name (filterDuplicateRecords s.world.db records) then
          let (world, turn) :=
            s.world.persistTurn x maxSpansPerSegment partition name fault records
          some ⟨world, System.update s.executions i (execution.turned partition work turn)⟩
        else none
      | _ => none
  | .mark i compactedAtUnixNano =>
    match s.executions[i]? with
    | none => none
    | some execution =>
      if execution.stage = .writing [] then
        some ⟨{ s.world with
            db := s.world.db.markSegmentsCompacted execution.segmentIds compactedAtUnixNano },
          s.executions.eraseIdx i⟩
      else none
  | .stop i => some { s with executions := s.executions.eraseIdx i }

/-- What a step can do. -/
inductive System.Step (x : Externals) (maxSpansPerSegment : Nat) (s : System) :
    Action → System → Prop
  | ingest (partition : PartitionKey) (name : SegmentName) (records : List SpanRecord)
      (fault : Option SegmentFault) (hfree : s.world.nameFree partition name records)
      (huser : ∀ r ∈ records, r.eventKind.isUser) :
      Step x maxSpansPerSegment s (.ingest partition name records fault)
        { s with world := (s.world.persistSegment x partition name records fault).1 }
  | delete (k : RunKey) (time : Int) (reason : Option String) :
      Step x maxSpansPerSegment s (.delete k time reason)
        { s with world := { s.world with db := (s.world.db.deleteRunInTx x k time reason).1 } }
  | expire (projectName : String) (cutoff time : Int) :
      Step x maxSpansPerSegment s (.expire projectName cutoff time)
        { s with world := { s.world with
          db := s.world.db.expireProjectRunsBefore x projectName cutoff time } }
  | readIds (projectName : String) :
      Step x maxSpansPerSegment s (.readIds projectName)
        { s with executions := s.executions ++ [.start s.world projectName] }
  | listRuns (i : Nat) (runs listed : List RunSummary) (execution : Execution)
      (hi : s.executions[i]? = some execution) (hstage : execution.stage = .listing)
      (hlisted : s.world.listRuns execution.projectName = some listed)
      (hperm : runs.Perm listed) :
      Step x maxSpansPerSegment s (.listRuns i runs)
        { s with executions := System.update s.executions i (execution.listed runs) }
  | persist (i : Nat) (name : SegmentName) (fault : Option TurnFault) (execution : Execution)
      (partition : PartitionKey) (records : List SpanRecord)
      (work : List (PartitionKey × List SpanRecord)) (world : World) (turn : Turn)
      (hi : s.executions[i]? = some execution)
      (hstage : execution.stage = .writing ((partition, records) :: work))
      (hfree : s.world.nameFree partition name (filterDuplicateRecords s.world.db records))
      (hturn :
        World.TurnResult x maxSpansPerSegment s.world partition name fault records world turn) :
      Step x maxSpansPerSegment s (.persist i name fault)
        ⟨world, System.update s.executions i (execution.turned partition work turn)⟩
  | mark (i : Nat) (time : Int) (execution : Execution)
      (hi : s.executions[i]? = some execution) (hstage : execution.stage = .writing []) :
      Step x maxSpansPerSegment s (.mark i time)
        ⟨{ s.world with db := s.world.db.markSegmentsCompacted execution.segmentIds time },
          s.executions.eraseIdx i⟩
  | stop (i : Nat) :
      Step x maxSpansPerSegment s (.stop i) { s with executions := s.executions.eraseIdx i }

theorem System.step_cases {s s' : System} (h : s.step x maxSpansPerSegment action = some s') :
    System.Step x maxSpansPerSegment s action s' := by
  cases action with
  | ingest partition name records fault =>
    simp only [System.step, Option.ite_none_right_eq_some, Option.some.injEq] at h
    obtain ⟨⟨hfree, huser⟩, rfl⟩ := h
    exact .ingest partition name records fault hfree huser
  | delete k time reason =>
    cases h
    exact .delete k time reason
  | expire projectName cutoff time =>
    cases h
    exact .expire projectName cutoff time
  | readIds projectName =>
    cases h
    exact .readIds projectName
  | listRuns i runs =>
    simp only [System.step] at h
    split at h
    · cases h
    next execution hi =>
      simp only [Option.ite_none_right_eq_some, Option.some.injEq] at h
      obtain ⟨⟨hstage, listed, hlisted, hperm⟩, rfl⟩ := h
      exact .listRuns i runs listed execution hi hstage hlisted hperm
  | persist i name fault =>
    simp only [System.step] at h
    split at h
    · cases h
    next execution hi =>
      split at h
      next partition records work hstage =>
        simp only [Option.ite_none_right_eq_some, Option.some.injEq] at h
        obtain ⟨hfree, rfl⟩ := h
        exact .persist i name fault execution partition records work _ _ hi hstage hfree
          (World.persistTurn_result x maxSpansPerSegment s.world partition name fault records)
      · cases h
  | mark i time =>
    simp only [System.step] at h
    split at h
    · cases h
    next execution hi =>
      simp only [Option.ite_none_right_eq_some, Option.some.injEq] at h
      obtain ⟨hstage, rfl⟩ := h
      exact .mark i time execution hi hstage
  | stop i =>
    cases h
    exact .stop i

/-- The records that an action commits. -/
def System.committed (maxSpansPerSegment : Nat) (s : System) : Action → List SpanRecord
  | .ingest partition _ records fault => s.world.db.committed partition records fault
  | .persist i _ fault =>
    match s.executions[i]? with
    | some ⟨_, _, .writing ((partition, records) :: _)⟩ =>
      s.world.db.turnCommitted maxSpansPerSegment partition fault records
    | _ => []
  | _ => []

theorem System.committed_persist {s : System} (hi : s.executions[i]? = some execution)
    (hstage : execution.stage = .writing ((partition, records) :: work)) :
    s.committed maxSpansPerSegment (.persist i name fault) =
      s.world.db.turnCommitted maxSpansPerSegment partition fault records := by
  cases execution
  cases hstage
  simp only [System.committed, hi]

/-- What a turn commits are pending copies. -/
theorem Execution.turnCommitted_pending {execution : Execution}
    (hstage : execution.stage = .writing ((partition, records) :: work)) (db : Db) :
    db.turnCommitted maxSpansPerSegment partition fault records ⊆ execution.pending := by
  intro copy hcopy
  rw [Execution.pending, hstage]
  exact List.mem_append_left _
    ((filterDuplicateRecords_sublist _ _).subset (Db.turnCommitted_subset hcopy))

/-- What a step can do to the store. -/
inductive System.StoreStep (x : Externals) (w : World) (committed : List SpanRecord) :
    Action → World → Prop
  | write (action : Action) (w' : World) (hwrites : World.Writes x committed w w') :
      StoreStep x w committed action w'
  | delete (k : RunKey) (time : Int) (reason : Option String) :
      StoreStep x w committed (.delete k time reason)
        { w with db := (w.db.deleteRunInTx x k time reason).1 }
  | expire (projectName : String) (cutoff time : Int) :
      StoreStep x w committed (.expire projectName cutoff time)
        { w with db := w.db.expireProjectRunsBefore x projectName cutoff time }
  | mark (action : Action) (ids : List Nat) (time : Int) :
      StoreStep x w committed action { w with db := w.db.markSegmentsCompacted ids time }

theorem System.storeStep {s s' : System} (h : s.step x maxSpansPerSegment action = some s') :
    System.StoreStep x s.world (s.committed maxSpansPerSegment action) action s'.world := by
  cases System.step_cases h with
  | ingest partition name records fault hfree huser =>
    exact .write _ _ (World.persistSegment_changes s.world hfree)
  | delete k time reason => exact .delete k time reason
  | expire projectName cutoff time => exact .expire projectName cutoff time
  | readIds projectName => exact .write _ _ .refl
  | listRuns i runs listed execution hi hstage hlisted hperm => exact .write _ _ .refl
  | persist i name fault execution partition records work world turn hi hstage hfree hturn =>
    refine .write _ _ ?_
    rw [System.committed_persist hi hstage]
    exact hturn.writes hfree
  | mark i time execution hi hstage => exact .mark _ execution.segmentIds time
  | stop i => exact .write _ _ .refl

theorem System.mem_update {executions : List Execution}
    (h : execution ∈ System.update executions i updated) :
    execution ∈ executions ∨ updated = some execution := by
  cases updated with
  | none => exact .inl (List.mem_of_mem_eraseIdx h)
  | some new =>
    rcases List.mem_or_eq_of_mem_set h with h | rfl
    · exact .inl h
    · exact .inr rfl

/-- A turn makes no new copies. -/
theorem Execution.pending_turned {execution new : Execution}
    (hstage : execution.stage = .writing ((partition, records) :: work))
    (h : World.TurnResult x maxSpansPerSegment w partition name fault records w' turn)
    (hnew : execution.turned partition work turn = some new) :
    new.pending ⊆ execution.pending := by
  intro copy hcopy
  have hsub := (filterDuplicateRecords_sublist w.db records).subset
  rw [Execution.pending, hstage]
  cases h with
  | unfiltered => cases hnew
  | finished =>
    cases hnew
    exact List.mem_append_right _ hcopy
  | written window rest _ receipt hfault hwindow hsplit hpersist hevents =>
    cases hnew
    rw [hsplit] at hsub
    rcases List.mem_append.1 hcopy with hmem | hmem
    · exact List.mem_append_left _ (hsub (List.mem_append_right _ hmem))
    · exact List.mem_append_right _ hmem
  | kept =>
    cases hnew
    rcases List.mem_append.1 hcopy with hmem | hmem
    · exact List.mem_append_left _ (hsub hmem)
    · exact List.mem_append_right _ hmem
  | failed => cases hnew

theorem Execution.mem_pending_listed {execution new : Execution}
    (h : execution.listed runs = some new) :
    copy ∈ new.pending ↔ copy ∈ execution.copies runs := by
  unfold Execution.listed at h
  split at h
  · cases h
  · cases h
    simp only [Execution.pending, List.mem_flatMap]
    constructor
    · rintro ⟨⟨partition, group⟩, hgroup, hcopy⟩
      rw [mem_groupRecordsByPartition hgroup] at hcopy
      exact (List.mem_filter.1 hcopy).1
    · intro hcopy
      obtain ⟨group, hgroup, hmem⟩ := exists_mem_groupRecordsByPartition hcopy
      exact ⟨_, hgroup, hmem⟩

end KevinDb
