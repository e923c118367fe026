import KevinDb.Query.RandomAccess
import KevinDb.Query.Visible

namespace KevinDb
set_option autoImplicit true

variable {x : Externals} {w w' : World} {k : RunKey} {head : RunHead} {record : SpanRecord}
  {run : RunSummary}

/-- What queries show of the row that a head names. -/
def World.content (w : World) (head : RunHead) : Option RunSummary :=
  (w.rowAt head.lastTraceSegmentId head.lastRowIndex).map RunSummary.ofRecord

/-- The content of a run that is not deleted. -/
def World.liveRun (w : World) (k : RunKey) : Option RunSummary :=
  (w.db.head k).bind fun head => if w.db.runDeletions[k]? = none then w.content head else none

/-- The heads of undeleted runs are on segments in use. -/
def World.Active (w : World) : Prop :=
  ∀ k head, w.db.head k = some head → w.db.runDeletions[k]? = none →
    ∃ segment, w.db.traceSegments[head.lastTraceSegmentId]? = some segment ∧
      segment.compactedAtUnixNano = none

def RunSummary.eventTimeUnixNano (run : RunSummary) : Int :=
  if run.endTimeUnixNano > 0 then run.endTimeUnixNano else run.startTimeUnixNano

/-- A run id names a run by its own id or by the generated one. -/
def RunSummary.isNamed (x : Externals) (runId : String) (run : RunSummary) : Prop :=
  run.runId.getD "" = runId ∨ x.generatedRunId run.projectName run.traceId run.spanId = runId

theorem RunSummary.ofRecord_runId (record : SpanRecord) :
    (RunSummary.ofRecord record).runId.getD "" = record.runId := by
  unfold RunSummary.ofRecord
  dsimp only
  split
  next hempty => exact hempty.symm
  next => rfl

theorem World.Consistent.content_isSome (hw : w.Consistent x) (hhead : w.db.head k = some head) :
    ∃ record, w.rowAt head.lastTraceSegmentId head.lastRowIndex = some record ∧
      w.content head = some (.ofRecord record) := by
  obtain ⟨record, hrow, -⟩ := hw.head_row k head hhead
  refine ⟨record, hrow, ?_⟩
  rw [World.content, hrow]
  rfl

theorem World.liveRun_eq_some :
    w.liveRun k = some run ↔ ∃ head, w.db.head k = some head ∧
      w.db.runDeletions[k]? = none ∧ w.content head = some run := by
  unfold World.liveRun
  rw [Option.bind_eq_some_iff]
  constructor
  · rintro ⟨head, hhead, hrun⟩
    simp only [Option.ite_none_right_eq_some] at hrun
    exact ⟨head, hhead, hrun⟩
  · rintro ⟨head, hhead, hrun⟩
    refine ⟨head, hhead, ?_⟩
    simp only [Option.ite_none_right_eq_some]
    exact hrun

theorem World.content_eq_some :
    w.content head = some run ↔ ∃ record,
      w.rowAt head.lastTraceSegmentId head.lastRowIndex = some record ∧
        RunSummary.ofRecord record = run :=
  Option.map_eq_some_iff

/-- A live run has the key it is stored under, and the event time of its head. -/
theorem World.Consistent.content_key (hw : w.Consistent x) (hhead : w.db.head k = some head)
    (hcontent : w.content head = some run) : run.runKey = k := by
  obtain ⟨record, hrow, rfl⟩ := World.content_eq_some.1 hcontent
  obtain ⟨record', hrow', hkey, -⟩ := hw.head_row k head hhead
  rw [hrow] at hrow'
  cases hrow'
  exact hkey

theorem World.Consistent.content_time (hw : w.Consistent x) (hhead : w.db.head k = some head)
    (hdeleted : w.db.runDeletions[k]? = none) (hcontent : w.content head = some run) :
    run.eventTimeUnixNano = head.lastEventTimeUnixNano := by
  obtain ⟨record, hrow, rfl⟩ := World.content_eq_some.1 hcontent
  exact hw.head_time hhead hdeleted hrow

theorem World.Consistent.exists_isLive_iff (hw : w.Consistent x) (k : RunKey) :
    (∃ head ∈ w.db.runHeads[k]?, w.db.isLive k head) ↔ (w.liveRun k).isSome := by
  rw [Option.isSome_iff_exists]
  constructor
  · rintro ⟨row, hk, hlive⟩
    obtain ⟨record, -, hcontent⟩ := hw.content_isSome (Db.head_of_runHeads hk)
    exact ⟨_, World.liveRun_eq_some.2 ⟨_, Db.head_of_runHeads hk, (hw.isLive_iff hk).1 hlive,
      hcontent⟩⟩
  · rintro ⟨run, hrun⟩
    obtain ⟨head, hhead, hdeleted, -⟩ := World.liveRun_eq_some.1 hrun
    obtain ⟨row, hk, -⟩ := Db.head_eq_some hhead
    exact ⟨row, hk, (hw.isLive_iff hk).2 hdeleted⟩

/-- A listing shows the live runs of the project. -/
theorem World.mem_shown_iff (hw : w.Consistent x) (ha : w.Active) :
    run ∈ (w.shownRecords projectName).map RunSummary.ofRecord ↔
      run.projectName = projectName ∧ w.liveRun run.runKey = some run := by
  rw [List.mem_map]
  constructor
  · rintro ⟨record, hrecord, rfl⟩
    obtain ⟨k, row, hk, hlive, hrow, rfl, hproject⟩ := World.mem_shownRecords hw hrecord
    refine ⟨hproject, World.liveRun_eq_some.2 ⟨row.forgetTree, Db.head_of_runHeads hk,
      (hw.isLive_iff hk).1 hlive, ?_⟩⟩
    exact World.content_eq_some.2 ⟨record, hrow, rfl⟩
  · rintro ⟨rfl, hlive⟩
    obtain ⟨head, hhead, hdeleted, hcontent⟩ := World.liveRun_eq_some.1 hlive
    obtain ⟨record, hrow, hrun⟩ := World.content_eq_some.1 hcontent
    obtain ⟨segment, hsegment, hactive⟩ := ha _ head hhead hdeleted
    obtain ⟨row, hk, rfl⟩ := Db.head_eq_some hhead
    obtain ⟨record', hrecord', hrow', -⟩ := World.exists_mem_shownRecords hw hk
      ((hw.isLive_iff hk).2 hdeleted) hsegment hactive
    cases hrow.symm.trans hrow'
    exact ⟨record, hrecord', hrun⟩

theorem World.shown_pairwise (hw : w.Consistent x) (projectName : String) :
    ((w.shownRecords projectName).map RunSummary.ofRecord).Pairwise
      fun a b => compare a.runKey b.runKey = .lt := by
  rw [World.shownRecords, List.pairwise_map, List.pairwise_map]
  exact World.shownRows_pairwise hw projectName

/-- Stores with the same live runs list the same runs. -/
theorem World.listRuns_congr (hw : w.Consistent x) (ha : w.Active) (hw' : w'.Consistent x)
    (ha' : w'.Active) (hlive : ∀ k, w'.liveRun k = w.liveRun k) (projectName : String) :
    w'.listRuns projectName = w.listRuns projectName := by
  have hshown : (w'.shownRecords projectName).map RunSummary.ofRecord =
      (w.shownRecords projectName).map RunSummary.ofRecord := by
    refine Table.ordered_eq RunSummary.runKey (World.shown_pairwise hw' projectName)
      (World.shown_pairwise hw projectName) ?_
    intro run
    rw [World.mem_shown_iff hw' ha', World.mem_shown_iff hw ha, hlive]
  rw [World.listRuns_eq hw', World.listRuns_eq hw, hshown]

/-- Of the live runs that a run id names, no two have the same event time. -/
def Db.tellsApart (db : Db) (runId : String) : Prop :=
  ∀ entry ∈ db.locatorRows runId false, ∀ entry' ∈ db.locatorRows runId false,
    entry.1.eventTimeUnixNano = entry'.1.eventTimeUnixNano → entry.2.runKey = entry'.2.runKey

instance (db : Db) (runId : String) : Decidable (db.tellsApart runId) :=
  inferInstanceAs (Decidable (∀ entry ∈ db.locatorRows runId false, _))

theorem World.Consistent.isNamed_iff (hw : w.Consistent x) (hhead : w.db.head k = some head)
    (hcontent : w.content head = some run) (runId : String) :
    head.runLocator.isNamed runId ↔ run.isNamed x runId := by
  obtain ⟨record, hrow, rfl⟩ := World.content_eq_some.1 hcontent
  obtain ⟨record', hrow', -, hwritten⟩ := hw.head_row k head hhead
  rw [hrow] at hrow'
  cases hrow'
  have hid : head.runLocator.runId = record.runId := congrArg RunHead.runId hwritten
  have hgenerated : head.runLocator.generatedRunId =
      x.generatedRunId record.projectName record.traceId record.spanId :=
    congrArg RunHead.generatedRunId hwritten
  rw [RunLocator.isNamed, RunSummary.isNamed, RunSummary.ofRecord_runId, hid, hgenerated]
  rfl

/-- The locator of a head leads to its row. -/
theorem World.Consistent.queryRunLocatorSegment (hw : w.Consistent x)
    (hhead : w.db.head k = some head) {segment : TraceSegment}
    (hsegment : w.db.traceSegments[head.lastTraceSegmentId]? = some segment)
    (hcontent : w.content head = some run) :
    w.queryRunLocatorSegment (head.runLocator.locator k segment.uri head.lastRowIndex) =
      some (some run) := by
  obtain ⟨record, hrow, rfl⟩ := World.content_eq_some.1 hcontent
  obtain ⟨record', hrow', rfl, hwritten⟩ := hw.head_row k head hhead
  rw [hrow] at hrow'
  cases hrow'
  have hid : head.runId = record.runId := congrArg RunHead.runId hwritten
  obtain ⟨segment', records, hsegment', hobject, hget⟩ := World.rowAt_eq_some.1 hrow
  rw [hsegment] at hsegment'
  cases hsegment'
  have hselects : (head.runLocator.locator record.runKey segment.uri
      head.lastRowIndex).selects record = true := by
    simp [Locator.selects, RunLocator.locator, RunHead.runLocator, SpanRecord.runKey, hid]
  have hread : w.readSegment segment.uri = some records := by
    rw [World.readSegment, hobject]
  unfold World.queryRunLocatorSegment
  rw [show (head.runLocator.locator record.runKey segment.uri head.lastRowIndex).segmentUri =
    segment.uri from rfl, hread]
  simp only [Option.bind_eq_bind, Option.bind_some, Option.pure_def]
  rw [show (head.runLocator.locator record.runKey segment.uri head.lastRowIndex).rowIndex =
    head.lastRowIndex from rfl, hget, Option.filter_some, if_pos hselects]
  rfl

/-- The rows that a run id selects are those of the live runs it names. -/
theorem World.Consistent.mem_locatorRows (hw : w.Consistent x)
    (h : entry ∈ w.db.locatorRows runId false) :
    ∃ run, w.liveRun entry.2.runKey = some run ∧
      run.isNamed x runId ∧ entry.1.eventTimeUnixNano = run.eventTimeUnixNano ∧
      w.queryRunLocatorSegment entry.2 = some (some run) := by
  obtain ⟨row, locator⟩ := entry
  obtain ⟨k, segment, stored, hrow, hsegment, hk, hnamed, hactive, hlive, rfl⟩ :=
    Db.mem_locatorRows.1 h
  have hhead := Db.head_of_runHeads hk
  have hdeleted := (hw.isLive_iff hk).1 hlive
  have hsame := hw.runLocators k
  rw [hrow, hhead] at hsame
  cases hsame
  obtain ⟨record, hread, hcontent⟩ := hw.content_isSome hhead
  refine ⟨_, World.liveRun_eq_some.2 ⟨_, hhead, hdeleted, hcontent⟩,
    (hw.isNamed_iff hhead hcontent runId).1 hnamed, (hw.content_time hhead hdeleted hcontent).symm,
    hw.queryRunLocatorSegment hhead hsegment hcontent⟩

theorem World.Consistent.exists_mem_locatorRows (hw : w.Consistent x) (ha : w.Active)
    (hlive : w.liveRun k = some run) (hnamed : run.isNamed x runId) :
    ∃ entry ∈ w.db.locatorRows runId false, entry.2.runKey = k ∧
      entry.1.eventTimeUnixNano = run.eventTimeUnixNano := by
  obtain ⟨head, hhead, hdeleted, hcontent⟩ := World.liveRun_eq_some.1 hlive
  obtain ⟨segment, hsegment, hactive⟩ := ha k head hhead hdeleted
  have htime := hw.content_time hhead hdeleted hcontent
  rw [← hw.isNamed_iff hhead hcontent] at hnamed
  have hrow := hw.runLocators k
  rw [hhead] at hrow
  obtain ⟨row, hk, rfl⟩ := Db.head_eq_some hhead
  have hmem : (row.forgetTree.runLocator, _) ∈ w.db.locatorRows runId false :=
    Db.mem_locatorRows.2 ⟨k, segment, row, hrow, hsegment, hk, hnamed, hactive,
      (hw.isLive_iff hk).2 hdeleted, rfl⟩
  exact ⟨_, hmem, rfl, htime.symm⟩

/-- Loading takes a named live run with the latest event time. -/
theorem World.Consistent.loadRunLocator (hw : w.Consistent x) (ha : w.Active)
    (h : w.db.loadRunLocator runId false = some locator) :
    ∃ run, w.liveRun locator.runKey = some run ∧ run.isNamed x runId ∧
      (∀ k run', w.liveRun k = some run' → run'.isNamed x runId →
        run'.eventTimeUnixNano ≤ run.eventTimeUnixNano) ∧
      w.queryRunLocatorSegment locator = some (some run) := by
  obtain ⟨row, hmem, hfirst⟩ := Db.loadRunLocator_first h
  obtain ⟨run, hrun, hnamed, htime, hquery⟩ := hw.mem_locatorRows hmem
  refine ⟨run, hrun, hnamed, ?_, hquery⟩
  intro k run' hrun' hnamed'
  obtain ⟨entry, hentry, -, htime'⟩ := hw.exists_mem_locatorRows ha hrun' hnamed'
  rw [← htime, ← htime']
  exact hfirst entry hentry

/-- Stores with the same live runs load the same runs by an id that tells its runs apart. -/
theorem World.loadRunById_congr (hw : w.Consistent x) (ha : w.Active) (hw' : w'.Consistent x)
    (ha' : w'.Active) (hlive : ∀ k, w'.liveRun k = w.liveRun k) (happart : w.db.tellsApart runId) :
    w'.loadRunById runId = w.loadRunById runId := by
  unfold World.loadRunById
  split
  · rfl
  cases hload : w.db.loadRunLocator runId false with
  | none =>
    cases hload' : w'.db.loadRunLocator runId false with
    | none => rfl
    | some locator' =>
      obtain ⟨run, hrun, hnamed, -⟩ := hw'.loadRunLocator ha' hload'
      rw [hlive] at hrun
      obtain ⟨entry, hentry, -⟩ := hw.exists_mem_locatorRows ha hrun hnamed
      rw [Db.loadRunLocator_eq_none.1 hload] at hentry
      cases hentry
  | some locator =>
    obtain ⟨run, hrun, hnamed, hlatest, hquery⟩ := hw.loadRunLocator ha hload
    cases hload' : w'.db.loadRunLocator runId false with
    | none =>
      rw [← hlive] at hrun
      obtain ⟨entry, hentry, -⟩ := hw'.exists_mem_locatorRows ha' hrun hnamed
      rw [Db.loadRunLocator_eq_none.1 hload'] at hentry
      cases hentry
    | some locator' =>
      obtain ⟨run', hrun', hnamed', hlatest', hquery'⟩ := hw'.loadRunLocator ha' hload'
      rw [hlive] at hrun'
      have hle := hlatest _ _ hrun' hnamed'
      have hge := hlatest' _ _ ((hlive _).trans hrun) hnamed
      obtain ⟨entry, hentry, hkey, htime⟩ := hw.exists_mem_locatorRows ha hrun hnamed
      obtain ⟨entry', hentry', hkey', htime'⟩ := hw.exists_mem_locatorRows ha hrun' hnamed'
      have hsame := happart entry hentry entry' hentry'
        (htime.trans ((le_antisymm hge hle).trans htime'.symm))
      rw [hkey, hkey'] at hsame
      rw [← hsame, hrun] at hrun'
      cases hrun'
      exact hquery'.trans hquery.symm

end KevinDb
