import KevinDb.Consistency
import KevinDb.Query.List

namespace KevinDb
set_option autoImplicit true

variable {x : Externals} {w : World} {k : RunKey} {head : RunHead}

theorem Db.head_of_runHeads {db : Db} (h : db.runHeads[k]? = some head) :
    db.head k = some head.forgetTree := by
  rw [Db.head, h]
  rfl

theorem World.Consistent.row_of_runHeads (hw : w.Consistent x)
    (h : w.db.runHeads[k]? = some head) :
    ∃ record, w.rowAt head.lastTraceSegmentId head.lastRowIndex = some record ∧
      record.runKey = k := by
  obtain ⟨record, hrow, hkey, -⟩ := hw.head_row k _ (Db.head_of_runHeads h)
  exact ⟨record, hrow, hkey⟩

/-- The row that a listing reads for a head, with its index. -/
def World.shownRow (w : World) (projectName : String) (row : RunKey × RunHead) :
    Option (SpanRecord × Nat) :=
  (w.db.runCandidate projectName row).bind fun candidate => (w.candidateRow candidate).join

theorem Db.runCandidate_eq_some {db : Db} {row : RunKey × RunHead}
    (h : db.runCandidate projectName row = some candidate) :
    ∃ segment, db.traceSegments[row.2.lastTraceSegmentId]? = some segment ∧
      row.1.projectName = projectName ∧ segment.compactedAtUnixNano = none ∧
      db.isLive row.1 row.2 ∧ candidate = ⟨row.1, segment.uri, row.2.lastRowIndex⟩ := by
  rw [Db.runCandidate] at h
  split at h
  · cases h
  next segment hsegment =>
    simp only [Option.ite_none_right_eq_some, Option.some.injEq] at h
    obtain ⟨⟨hproject, hactive, hlive⟩, rfl⟩ := h
    exact ⟨segment, hsegment, hproject, hactive, hlive, rfl⟩

/-- The row of a candidate is that of its head. -/
theorem World.candidateRow_eq (hw : w.Consistent x) (hk : w.db.runHeads[k]? = some head)
    (h : w.db.runCandidate projectName (k, head) = some candidate) :
    ∃ record, w.rowAt head.lastTraceSegmentId head.lastRowIndex = some record ∧
      record.runKey = k ∧ candidate.runKey = k ∧
      w.candidateRow candidate = some (some (record, head.lastRowIndex)) := by
  obtain ⟨segment, hsegment, -, -, -, rfl⟩ := Db.runCandidate_eq_some h
  obtain ⟨record, hrow, hkey⟩ := hw.row_of_runHeads hk
  obtain ⟨segment', records, hsegment', hobject, hget⟩ := World.rowAt_eq_some.1 hrow
  rw [hsegment] at hsegment'
  cases hsegment'
  refine ⟨record, hrow, hkey, rfl, ?_⟩
  simp [World.candidateRow, World.readSegment, hobject, hget]

theorem World.mapM_candidateRow (hw : w.Consistent x) (rows : List (RunKey × RunHead))
    (hrows : ∀ row ∈ rows, w.db.runHeads[row.1]? = some row.2) :
    (rows.filterMap (w.db.runCandidate projectName)).mapM w.candidateRow =
      some ((rows.filterMap (w.shownRow projectName)).map some) := by
  induction rows with
  | nil => rfl
  | cons row rows ih =>
    have ih := ih fun r hr => hrows r (List.mem_cons_of_mem _ hr)
    rw [List.filterMap_cons, List.filterMap_cons, World.shownRow]
    cases hcandidate : w.db.runCandidate projectName row with
    | none => exact ih
    | some candidate =>
      obtain ⟨record, -, -, -, hread⟩ :=
        World.candidateRow_eq hw (hrows row List.mem_cons_self) hcandidate
      simp only [Option.bind_some, hread, Option.join_some, List.mapM_cons, List.map_cons]
      rw [ih]
      rfl

theorem World.shownRow_eq_some (hw : w.Consistent x) (hk : w.db.runHeads[k]? = some head)
    (h : w.shownRow projectName (k, head) = some row) :
    w.rowAt head.lastTraceSegmentId head.lastRowIndex = some row.1 ∧ row.1.runKey = k ∧
      k.projectName = projectName ∧ w.db.isLive k head := by
  obtain ⟨candidate, hcandidate, hrow⟩ := Option.bind_eq_some_iff.1 h
  obtain ⟨record, hrecord, hkey, -, hread⟩ := World.candidateRow_eq hw hk hcandidate
  obtain ⟨-, -, hproject, -, hlive, -⟩ := Db.runCandidate_eq_some hcandidate
  rw [hread] at hrow
  cases hrow
  exact ⟨hrecord, hkey, hproject, hlive⟩

/-- The records that a listing of the project shows, in the order of the run keys. -/
def World.shownRecords (w : World) (projectName : String) : List SpanRecord :=
  (w.db.runHeads.toList.filterMap (w.shownRow projectName)).map Prod.fst

theorem World.shownRows_pairwise (hw : w.Consistent x) (projectName : String) :
    (w.db.runHeads.toList.filterMap (w.shownRow projectName)).Pairwise
      fun a b => compare a.1.runKey b.1.runKey = .lt := by
  have hkeys : ∀ row ∈ w.db.runHeads.toList, ∀ shown, w.shownRow projectName row = some shown →
      shown.1.runKey = row.1 := by
    intro row hrow shown hshown
    have hget := Std.TreeMap.mem_toList_iff_getElem?_eq_some.1 hrow
    exact (World.shownRow_eq_some hw hget hshown).2.1
  have hsorted := Std.TreeMap.ordered_keys_toList (t := w.db.runHeads)
  generalize w.db.runHeads.toList = rows at hkeys hsorted
  refine List.pairwise_filterMap.2 (hsorted.imp_of_mem ?_)
  intro a b ha hb hab a' ha' b' hb'
  rw [hkeys a ha a' ha', hkeys b hb b' hb']
  exact hab

theorem World.listRuns_eq (hw : w.Consistent x) (projectName : String) :
    w.listRuns projectName =
      some (((w.shownRecords projectName).map RunSummary.ofRecord).insertionSort
        RunSummary.before) := by
  have hget : ∀ row ∈ w.db.runHeads.toList, w.db.runHeads[row.1]? = some row.2 := by
    intro row hrow
    exact Std.TreeMap.mem_toList_iff_getElem?_eq_some.1 hrow
  have hshown : ∀ row ∈ w.db.runHeads.toList.filterMap (w.shownRow projectName),
      row.1.projectName = projectName ∧
        row.1.runKey ∈ (w.db.runCandidates projectName).map RunCandidate.runKey ∧
        w.db.runDeletions[row.1.runKey]? = none := by
    intro shown hmem
    obtain ⟨row, hrow, hshown⟩ := List.mem_filterMap.1 hmem
    obtain ⟨candidate, hcandidate, -⟩ := Option.bind_eq_some_iff.1 hshown
    obtain ⟨-, -, -, hname, -⟩ := World.candidateRow_eq hw (hget row hrow) hcandidate
    obtain ⟨-, hkey, hproject, hlive⟩ := World.shownRow_eq_some hw (hget row hrow) hshown
    rw [Db.isLive, Bool.and_eq_true, Option.isNone_iff_eq_none, Option.isNone_iff_eq_none] at hlive
    refine ⟨?_, ?_, hkey ▸ hlive.2⟩
    · rw [← hproject, ← hkey]
      rfl
    · rw [hkey, ← hname]
      exact List.mem_map_of_mem (List.mem_filterMap.2 ⟨row, hrow, hcandidate⟩)
  have hlist := Table.toList_foldl_upsert _ (fun row : SpanRecord × Nat => row.1.runKey)
    laterVersion (World.shownRows_pairwise hw projectName)
  unfold World.listRuns
  dsimp only
  rw [Db.runCandidates, World.mapM_candidateRow hw _ hget]
  simp only [Option.bind_eq_bind, Option.bind_some, List.filterMap_map]
  rw [show (id ∘ some : SpanRecord × Nat → _) = some from rfl, List.filterMap_some]
  rw [List.filter_eq_self.2 fun row hrow => decide_eq_true (hshown row hrow).1]
  rw [latestVersions, hlist, List.map_map]
  refine congrArg some ((List.filter_eq_self.2 ?_).trans ?_)
  · intro run hrun
    rw [List.mem_insertionSort] at hrun
    obtain ⟨row, hrow, rfl⟩ := List.mem_map.1 hrun
    exact decide_eq_true (hshown row hrow).2
  · rw [World.shownRecords, List.map_map]
    rfl

theorem World.mem_shownRecords (hw : w.Consistent x) (h : record ∈ w.shownRecords projectName) :
    ∃ k head, w.db.runHeads[k]? = some head ∧ w.db.isLive k head ∧
      w.rowAt head.lastTraceSegmentId head.lastRowIndex = some record ∧ record.runKey = k ∧
      record.projectName = projectName := by
  obtain ⟨row, hrow, rfl⟩ := List.mem_map.1 h
  obtain ⟨⟨k, head⟩, hk, hshown⟩ := List.mem_filterMap.1 hrow
  have hget := Std.TreeMap.mem_toList_iff_getElem?_eq_some.1 hk
  obtain ⟨hrecord, hkey, hproject, hlive⟩ := World.shownRow_eq_some hw hget hshown
  refine ⟨k, head, hget, hlive, hrecord, hkey, ?_⟩
  rw [← hproject, ← hkey]
  rfl

/-- A live run whose segment is in use is shown. -/
theorem World.exists_mem_shownRecords (hw : w.Consistent x) (hk : w.db.runHeads[k]? = some head)
    (hlive : w.db.isLive k head) {segment : TraceSegment}
    (hsegment : w.db.traceSegments[head.lastTraceSegmentId]? = some segment)
    (hactive : segment.compactedAtUnixNano = none) :
    ∃ record ∈ w.shownRecords k.projectName,
      w.rowAt head.lastTraceSegmentId head.lastRowIndex = some record ∧ record.runKey = k := by
  have hcandidate : w.db.runCandidate k.projectName (k, head) =
      some ⟨k, segment.uri, head.lastRowIndex⟩ := by
    simp [Db.runCandidate, hsegment, hactive, hlive]
  obtain ⟨record, hrecord, hkey, -, hread⟩ := World.candidateRow_eq hw hk hcandidate
  refine ⟨record, ?_, hrecord, hkey⟩
  refine List.mem_map.2 ⟨(record, head.lastRowIndex), List.mem_filterMap.2 ⟨(k, head),
    Std.TreeMap.mem_toList_iff_getElem?_eq_some.2 hk, ?_⟩, rfl⟩
  rw [World.shownRow, hcandidate, Option.bind_some, hread]
  rfl

theorem Db.head_eq_some {db : Db} (h : db.head k = some head) :
    ∃ row, db.runHeads[k]? = some row ∧ head = row.forgetTree := by
  obtain ⟨row, hrow, rfl⟩ := Option.map_eq_some_iff.1 h
  exact ⟨row, hrow, rfl⟩

theorem World.Consistent.isLive_iff (hw : w.Consistent x) (hk : w.db.runHeads[k]? = some head) :
    w.db.isLive k head ↔ w.db.runDeletions[k]? = none := by
  rw [Db.isLive, Bool.and_eq_true, Option.isNone_iff_eq_none, Option.isNone_iff_eq_none,
    and_iff_right_iff_imp]
  intro hdeleted
  obtain ⟨record, id, -, hwritten, -⟩ := hw.head_latest k _ (Db.head_of_runHeads hk) hdeleted
  exact congrArg RunHead.deletedAtUnixNano hwritten

/-- The head of a run is on a segment of the project of the run. -/
theorem World.Consistent.head_project (hw : w.Consistent x) (hhead : w.db.head k = some head)
    {segment : TraceSegment}
    (hsegment : w.db.traceSegments[head.lastTraceSegmentId]? = some segment) :
    segment.projectName = k.projectName := by
  obtain ⟨record, hrow, hkey, -⟩ := hw.head_row k head hhead
  obtain ⟨segment', records, hsegment', hobject, hget⟩ := World.rowAt_eq_some.1 hrow
  rw [hsegment] at hsegment'
  cases hsegment'
  obtain ⟨stored, hstored, hproject⟩ := hw.segment_object _ segment hsegment
  rw [hobject] at hstored
  cases hstored
  rw [← hkey, ← hproject record (List.mem_of_getElem? hget)]
  rfl

/-- The row of the head of an undeleted run has the event time of the head. -/
theorem World.Consistent.head_time (hw : w.Consistent x) (hhead : w.db.head k = some head)
    (hdeleted : w.db.runDeletions[k]? = none)
    (hrow : w.rowAt head.lastTraceSegmentId head.lastRowIndex = some record) :
    record.eventTimeUnixNano = head.lastEventTimeUnixNano := by
  obtain ⟨record', id, hrow', hwritten, -⟩ := hw.head_latest k head hhead hdeleted
  rw [hrow] at hrow'
  cases hrow'
  rw [hwritten]
  rfl

end KevinDb
