import KevinDb.Query.List

namespace KevinDb
set_option autoImplicit true

/-- Where the row of a run is read, and what the row has to match. -/
structure Locator where
  segmentUri : String
  runKey : RunKey
  storedRunId : String
  generatedRunId : String
  rowIndex : Nat
deriving DecidableEq, Repr

/-- `ORDER BY event_time_unix_nano DESC, run_event_id DESC NULLS LAST`. -/
def RunLocator.newer (left right : RunLocator) : Prop :=
  right.eventTimeUnixNano < left.eventTimeUnixNano ∨
    (right.eventTimeUnixNano = left.eventTimeUnixNano ∧
      (right.runEventId.map (· + 1)).getD 0 ≤ (left.runEventId.map (· + 1)).getD 0)

instance : DecidableRel RunLocator.newer := fun left right =>
  inferInstanceAs (Decidable (right.eventTimeUnixNano < left.eventTimeUnixNano ∨ _))

def RunLocator.locator (k : RunKey) (row : RunLocator) (uri : String) (rowIndex : Nat) :
    Locator where
  segmentUri := uri
  runKey := k
  storedRunId := row.runId
  generatedRunId := row.generatedRunId
  rowIndex := rowIndex

/-- The rows that the query of `load_run_locator` joins and selects. -/
def Db.locatorRows (db : Db) (runId : String) (includeDeleted : Bool) :
    List (RunLocator × Locator) :=
  db.runLocators.toList.filterMap fun entry =>
    match db.traceSegments[entry.2.traceSegmentId]?, db.runHeads[entry.1]? with
    | some segment, some head =>
      if (entry.2.runId = runId ∨ entry.2.generatedRunId = runId) ∧
          segment.compactedAtUnixNano = none ∧ (includeDeleted || db.isLive entry.1 head) then
        some (entry.2, entry.2.locator entry.1 segment.uri entry.2.rowIndex)
      else none
    | _, _ => none

def Db.loadRunLocator (db : Db) (runId : String) (includeDeleted : Bool) : Option Locator :=
  (((db.locatorRows runId includeDeleted).insertionSort
    fun left right => left.1.newer right.1).head?).map Prod.snd

/-- `run_locator_datafusion_sql`: the row at the index, if it is one of the run. -/
def Locator.selects (locator : Locator) (record : SpanRecord) : Bool :=
  record.projectName = locator.runKey.projectName ∧ record.traceId = locator.runKey.traceId ∧
    if locator.storedRunId = "" then record.runId = "" ∧ record.spanId = locator.runKey.spanId
    else record.runId = locator.storedRunId

/-- The outer option is `none` when the segment cannot be read. -/
def World.queryRunLocatorSegment (w : World) (locator : Locator) : Option (Option RunSummary) := do
  let records ← w.readSegment locator.segmentUri
  return (records[locator.rowIndex]?.filter locator.selects).map RunSummary.ofRecord

def World.loadRunById (w : World) (runId : String) : Option (Option RunSummary) :=
  if runId = "" then some none
  else
    match w.db.loadRunLocator runId false with
    | none => some none
    | some locator => w.queryRunLocatorSegment locator

/-- The loop of `replay_event_locator` over the events of the run in the order of their ranks. -/
def Db.replayEventLocator (db : Db) (locator : Locator) : Option Locator :=
  let rows := (db.eventsOf locator.runKey).filterMap fun event =>
    match db.traceSegments[event.traceSegmentId]?, db.runLocators[locator.runKey]? with
    | some segment, some row =>
      some (event, row.locator locator.runKey segment.uri event.rowIndex)
    | _, _ => none
  (rows.insertionSort fun left right => left.1.rank ≤ right.1.rank).foldl
    (fun _ row => if row.1.eventType = .tombstone then none else some row.2) none

def World.replayRunById (w : World) (runId : String) : Option (Option RunSummary) :=
  if runId = "" then some none
  else
    match w.db.loadRunLocator runId true with
    | none => some none
    | some locator =>
      match w.db.replayEventLocator locator with
      | none => some none
      | some replayed => w.queryRunLocatorSegment replayed

/-- A row of the locator table that a run id names. -/
def RunLocator.isNamed (runId : String) (row : RunLocator) : Prop :=
  row.runId = runId ∨ row.generatedRunId = runId

instance (runId : String) (row : RunLocator) : Decidable (row.isNamed runId) :=
  inferInstanceAs (Decidable (_ ∨ _))

variable {db : Db} {row : RunLocator}

theorem Db.mem_locatorRows :
    (row, locator) ∈ db.locatorRows runId includeDeleted ↔
      ∃ k segment head, db.runLocators[k]? = some row ∧
        db.traceSegments[row.traceSegmentId]? = some segment ∧ db.runHeads[k]? = some head ∧
        row.isNamed runId ∧ segment.compactedAtUnixNano = none ∧
        (includeDeleted || db.isLive k head) = true ∧
        locator = row.locator k segment.uri row.rowIndex := by
  rw [Db.locatorRows, List.mem_filterMap]
  constructor
  · rintro ⟨⟨k, row'⟩, hrow, h⟩
    have hrow := Std.TreeMap.mem_toList_iff_getElem?_eq_some.1 hrow
    dsimp only at h
    split at h
    next segment head hsegment hhead =>
      simp only [Option.ite_none_right_eq_some, Option.some.injEq, Prod.mk.injEq] at h
      obtain ⟨⟨hnamed, hactive, hlive⟩, rfl, rfl⟩ := h
      exact ⟨k, segment, head, hrow, hsegment, hhead, hnamed, hactive, hlive, rfl⟩
    · cases h
  · rintro ⟨k, segment, head, hrow, hsegment, hhead, hnamed, hactive, hlive, rfl⟩
    refine ⟨(k, row), Std.TreeMap.mem_toList_iff_getElem?_eq_some.2 hrow, ?_⟩
    simp only [hsegment, hhead, Option.ite_none_right_eq_some, and_true]
    exact ⟨hnamed, hactive, hlive⟩

/-- Loading takes a row that no selected row is newer than. -/
theorem Db.loadRunLocator_first (h : db.loadRunLocator runId includeDeleted = some locator) :
    ∃ row, (row, locator) ∈ db.locatorRows runId includeDeleted ∧
      ∀ entry ∈ db.locatorRows runId includeDeleted,
        entry.1.eventTimeUnixNano ≤ row.eventTimeUnixNano := by
  have htotal : Std.Total fun left right : RunLocator × Locator => left.1.newer right.1 := by
    constructor
    intro a b
    unfold RunLocator.newer
    omega
  have htrans : IsTrans (RunLocator × Locator) fun left right => left.1.newer right.1 := by
    constructor
    intro a b c
    unfold RunLocator.newer
    omega
  obtain ⟨⟨row, locator'⟩, hfirst, rfl⟩ := Option.map_eq_some_iff.1 h
  have hsorted := List.pairwise_insertionSort
    (fun left right : RunLocator × Locator => left.1.newer right.1)
    (db.locatorRows runId includeDeleted)
  obtain ⟨rest, hrest⟩ := List.head?_eq_some_iff.1 hfirst
  rw [hrest, List.pairwise_cons] at hsorted
  refine ⟨row, (List.mem_insertionSort _).1 (List.mem_of_mem_head? hfirst), ?_⟩
  intro entry hentry
  rw [← List.mem_insertionSort (fun left right => left.1.newer right.1), hrest,
    List.mem_cons] at hentry
  rcases hentry with rfl | hentry
  · exact le_rfl
  · rcases hsorted.1 entry hentry with hlt | ⟨he, -⟩
    · exact hlt.le
    · exact he.le

theorem Db.loadRunLocator_eq_none :
    db.loadRunLocator runId includeDeleted = none ↔ db.locatorRows runId includeDeleted = [] := by
  rw [Db.loadRunLocator, Option.map_eq_none_iff, List.head?_eq_none_iff,
    ← List.length_eq_zero_iff, List.length_insertionSort, List.length_eq_zero_iff]

end KevinDb
