import KevinDb.Compaction.System
import KevinDb.Frame
import KevinDb.Query.Live

namespace KevinDb
set_option autoImplicit true

variable {x : Externals} {w w' : World} {k : RunKey} {head head' : RunHead}
  {committed : List SpanRecord}

theorem World.Consistent.step (x : Externals) (maxSpansPerSegment : Nat) (s : System)
    (action : Action) (s' : System) (hs : s.world.Consistent x)
    (h : s.step x maxSpansPerSegment action = some s') : s'.world.Consistent x := by
  generalize hw' : s'.world = w'
  have hstep := System.storeStep h
  rw [hw'] at hstep
  cases hstep with
  | write action w' hwrites => exact hwrites.consistent hs
  | delete k time reason => exact hs.deleteRunInTx k time reason
  | expire projectName cutoff time => exact hs.expireProjectRunsBefore projectName cutoff time
  | mark action ids time => exact hs.mark ids time

theorem runStatus_copy (statusCode endTimeUnixNano : Int) :
    runStatus (if runStatus statusCode endTimeUnixNano = .error then 2
      else if endTimeUnixNano = 0 then 0 else 1) endTimeUnixNano =
        runStatus statusCode endTimeUnixNano := by
  unfold runStatus
  by_cases herror : statusCode = 2
  · simp [herror]
  · by_cases hpending : endTimeUnixNano = 0
    · simp [herror, hpending]
    · simp [herror, hpending]

/-- A copy shows what the listing has shown. -/
theorem RunSummary.ofRecord_copy (record : SpanRecord) (batchKey : String) :
    RunSummary.ofRecord (spanRecordFromRunSummary (.ofRecord record) batchKey) =
      RunSummary.ofRecord record := by
  have hid := RunSummary.ofRecord_runId record
  simp only [RunSummary.ofRecord] at hid
  simp only [RunSummary.ofRecord, spanRecordFromRunSummary, hid]
  congr 1
  exact runStatus_copy _ _

theorem World.Changes.rowAt (hw : w.Consistent x) (h : World.Changes x writes w w')
    (hrow : w.rowAt segmentId rowIndex = some record) :
    w'.rowAt segmentId rowIndex = some record := by
  induction h with
  | refl => exact hrow
  | tail hfirst hlast ih =>
    have hc := World.Changes.consistent hfirst hw
    exact hc.toNumbered.rowAt_change hlast _ _ _ ih

theorem World.Changes.content (hw : w.Consistent x) (h : World.Changes x writes w w')
    (hhead : w.db.head k = some head) : w'.content head = w.content head := by
  obtain ⟨record, hrow, hcontent⟩ := hw.content_isSome hhead
  rw [hcontent, World.content, h.rowAt hw hrow]
  rfl

/-- The head of an undeleted run stays, and never goes back in time. -/
theorem World.Changes.head_stays (hw : w.Consistent x) (h : World.Changes x writes w w')
    (hhead : w.db.head k = some head) (hdeleted : w.db.runDeletions[k]? = none) :
    ∃ head', w'.db.head k = some head' ∧
      head.lastEventTimeUnixNano ≤ head'.lastEventTimeUnixNano := by
  have hc := h.consistent hw
  obtain ⟨record, id, -, hwritten, hlatest⟩ := hw.head_latest k head hhead hdeleted
  obtain ⟨hevent, hkey⟩ := List.mem_filter.1 hlatest.1
  have hkey := of_decide_eq_true hkey
  have hstays := h.runEvents_subset.1 hevent
  obtain ⟨head', hhead'⟩ := Option.isSome_iff_exists.1 (hc.event_head _ hstays)
  rw [hkey] at hhead'
  rw [← h.runDeletions] at hdeleted
  obtain ⟨_, -, -, hmax⟩ := hc.head_event hhead' hdeleted
  refine ⟨head', hhead', ?_⟩
  rw [hwritten]
  exact (hmax _ hstays hkey).1

/-- A copy that is not newer than the head of its run, and says the same if it is as old. -/
def World.CopyFits (w : World) (copy : SpanRecord) : Prop :=
  ∃ head, w.db.head copy.runKey = some head ∧
    copy.eventTimeUnixNano ≤ head.lastEventTimeUnixNano ∧
    (copy.eventTimeUnixNano = head.lastEventTimeUnixNano →
      w.content head = some (RunSummary.ofRecord copy))

/-- Writing copies that fit changes neither the times nor the contents of the heads. -/
theorem World.Changes.head_of_copies (hw : w.Consistent x) (h : World.Writes x committed w w')
    (hfits : ∀ copy ∈ committed, w.CopyFits copy) (hhead' : w'.db.head k = some head')
    (hdeleted : w.db.runDeletions[k]? = none) :
    ∃ head, w.db.head k = some head ∧
      head'.lastEventTimeUnixNano = head.lastEventTimeUnixNano ∧
      w'.content head' = w.content head := by
  rcases h.head_cases hw hhead' with hold | ⟨segmentId, rowIndex, copy, id, hwrites, rfl, hwritten,
    hrow, -⟩
  · exact ⟨head', hold, rfl, h.content hw hold⟩
  · obtain ⟨head, hhead, hle, hsame⟩ := hfits copy hwrites.2
    have htime : head'.lastEventTimeUnixNano = copy.eventTimeUnixNano := by rw [hwritten]; rfl
    obtain ⟨_, hsame', hge⟩ := h.head_stays hw hhead hdeleted
    rw [hhead'] at hsame'
    cases hsame'
    rw [htime] at hge
    have he := le_antisymm hle hge
    refine ⟨head, hhead, htime.trans he, ?_⟩
    rw [hsame he, hwritten]
    exact congrArg (Option.map RunSummary.ofRecord) hrow

/-- Writing copies that fit changes no live run. -/
theorem World.Changes.liveRun_of_copies (hw : w.Consistent x) (h : World.Writes x committed w w')
    (hfits : ∀ copy ∈ committed, w.CopyFits copy) (k : RunKey) : w'.liveRun k = w.liveRun k := by
  unfold World.liveRun
  rw [h.runDeletions]
  by_cases hdeleted : w.db.runDeletions[k]? = none
  · simp only [if_pos hdeleted]
    cases hhead : w.db.head k with
    | none =>
      cases hhead' : w'.db.head k with
      | none => rfl
      | some head' =>
        obtain ⟨head, hold, -⟩ := World.Changes.head_of_copies hw h hfits hhead' hdeleted
        rw [hhead] at hold
        cases hold
    | some head =>
      obtain ⟨head', hhead', -⟩ := World.Changes.head_stays hw h hhead hdeleted
      obtain ⟨head₀, hold, -, hcontent⟩ := World.Changes.head_of_copies hw h hfits hhead' hdeleted
      rw [hhead] at hold
      cases hold
      rw [hhead']
      exact hcontent
  · simp only [if_neg hdeleted, Option.bind_fun_none]

end KevinDb
