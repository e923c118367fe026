import KevinDb.Consistency
import KevinDb.Lib.Transition

namespace KevinDb
set_option autoImplicit true

/-- The transactions that write runs: a segment of records of any kind, the deletion of a run,
and the expiry of the runs of a project. -/
inductive Operation where
  | persist (partition : PartitionKey) (name : SegmentName) (records : List SpanRecord)
      (fault : Option SegmentFault)
  | delete (k : RunKey) (deletedAtUnixNano : Int) (reason : Option String)
  | expire (projectName : String) (cutoffUnixNano deletedAtUnixNano : Int)

/-- A segment is written under a name that is not in use. -/
def World.apply (x : Externals) (w : World) : Operation → Option World
  | .persist partition name records fault =>
    if w.nameFree partition name records then
      some (w.persistSegment x partition name records fault).1
    else none
  | .delete k deletedAtUnixNano reason =>
    some { w with db := (w.db.deleteRunInTx x k deletedAtUnixNano reason).1 }
  | .expire projectName cutoffUnixNano deletedAtUnixNano =>
    some { w with
      db := w.db.expireProjectRunsBefore x projectName cutoffUnixNano deletedAtUnixNano }

theorem World.Consistent.apply (x : Externals) (w : World) (op : Operation) (w' : World)
    (hw : w.Consistent x) (h : w.apply x op = some w') : w'.Consistent x := by
  cases op with
  | persist partition name records fault =>
    rw [World.apply] at h
    split at h
    next hfree =>
      cases h
      exact hw.persistSegment hfree
    next => cases h
  | delete k time reason =>
    cases h
    exact hw.deleteRunInTx k time reason
  | expire projectName cutoff time =>
    cases h
    exact hw.expireProjectRunsBefore projectName cutoff time

theorem World.Consistent.run (h : Transition.run (World.apply x) World.empty ops = some w) :
    w.Consistent x :=
  Transition.run_invariant_of_step _ (World.Consistent.apply x) (World.Consistent.empty x) h

/-- The row and the event that a row of a run table names. -/
structure EventRef where
  traceSegmentId : Nat
  rowIndex : Nat
  eventType : RunEventKind
  eventTimeUnixNano : Int
  runEventId : Option Nat
deriving DecidableEq, Repr

def RunHead.eventRef (head : RunHead) : EventRef :=
  ⟨head.lastTraceSegmentId, head.lastRowIndex, head.lastEventType, head.lastEventTimeUnixNano,
    head.lastRunEventId⟩

def RunLocator.eventRef (locator : RunLocator) : EventRef :=
  ⟨locator.traceSegmentId, locator.rowIndex, locator.eventType, locator.eventTimeUnixNano,
    locator.runEventId⟩

def TraceLocator.eventRef (locator : TraceLocator) : EventRef :=
  ⟨locator.traceSegmentId, locator.rowIndex, locator.eventType, locator.eventTimeUnixNano,
    locator.runEventId⟩

def RunEvent.eventRef (event : RunEvent) : EventRef :=
  ⟨event.traceSegmentId, event.rowIndex, event.eventType, event.eventTimeUnixNano, some event.id⟩

/-- The three run tables have rows for the same runs and name the same row and event. Without a
deletion that event is the latest of the run, and the head holds the columns of its record. -/
theorem run_tables_agree (x : Externals) (ops : List Operation) (w : World)
    (h : Transition.run (World.apply x) World.empty ops = some w) (k : RunKey) :
    w.db.runHeads[k]?.map RunHead.eventRef = w.db.runLocators[k]?.map RunLocator.eventRef ∧
    w.db.runHeads[k]?.map RunHead.eventRef = w.db.traceLocators[k]?.map TraceLocator.eventRef ∧
    (w.db.runDeletions[k]? = none → ∀ head, w.db.runHeads[k]? = some head →
      ∃ event record, IsLatest RunEvent.rank (w.db.eventsOf k) event ∧
        event.eventRef = head.eventRef ∧
        w.rowAt event.traceSegmentId event.rowIndex = some record ∧
        head.forgetTree = RunHead.written x record event.traceSegmentId event.rowIndex event.id) := by
  have hw := World.Consistent.run h
  have hhead : ∀ f : RunHead → EventRef, (∀ head, f head.forgetTree = f head) →
      (w.db.head k).map f = w.db.runHeads[k]?.map f := by
    intro f hf
    rw [Db.head, Option.map_map]
    congr 1
    funext head
    exact hf head
  refine ⟨?_, ?_, ?_⟩
  · rw [hw.runLocators, Option.map_map]
    exact (hhead RunHead.eventRef fun _ => rfl).symm
  · rw [hw.traceLocators, Option.map_map]
    exact (hhead RunHead.eventRef fun _ => rfl).symm
  · intro hdeleted head hk
    obtain ⟨record, id, hrow, hwritten, hlatest⟩ :=
      hw.head_latest k head.forgetTree (by rw [Db.head, hk]; rfl) hdeleted
    refine ⟨_, record, hlatest, ?_, hrow, hwritten⟩
    exact congrArg RunHead.eventRef hwritten.symm

/-- The version-5 UUIDs of a few names, and the metrics of an empty payload. -/
def Externals.sample : Externals where
  newV5 name :=
    if name = "kevindb:run:p:t:s" then "06c1ba76-2000-56fe-a2a4-d9f9a1a62ad7"
    else if name = "kevindb:run:p:t:u" then "55e83bec-c024-560a-b43e-3f59dec31921"
    else if name = "kevindb:run:p:a:b:c" then "4b8895aa-3014-5fca-be8d-db551f081d73"
    else ""
  typedRunMetrics record :=
    { latencyNanos := max 0 (record.endTimeUnixNano - record.startTimeUnixNano)
      promptTokens := none
      completionTokens := none
      totalTokens := none
      promptCost := none
      completionCost := none
      totalCost := none
      firstTokenLatencyNanos := none
      evaluatorScore := none
      modelName := none
      providerName := none }

/-- A record of project `p` with an empty payload. -/
def SpanRecord.sample (traceId spanId name : String) (eventKind : RunEventKind)
    (startTimeUnixNano endTimeUnixNano : Int) : SpanRecord where
  projectName := "p"
  runId := spanId
  traceId := traceId
  spanId := spanId
  parentRunId := none
  parentSpanId := none
  name := name
  runType := "llm"
  startTimeUnixNano := startTimeUnixNano
  endTimeUnixNano := endTimeUnixNano
  statusCode := 1
  eventKind := eventKind
  attributesJson := "\x7b\x7d"
  idempotencyKey := none

def sampleOperations : List Operation :=
  [.persist ⟨"p", 0⟩ ⟨1, 1⟩ [.sample "t" "s" "a" .start 10 0, .sample "t" "s" "b" .«end» 10 30] none,
    .persist ⟨"p", 0⟩ ⟨2, 2⟩ [.sample "t" "s" "c" .update 10 20] none]

/-- An update that arrives late leaves the head at the end event. -/
theorem run_tables_agree_sample :
    ∃ w head event, Transition.run (World.apply .sample) World.empty sampleOperations = some w ∧
      w.db.runHeads[RunKey.mk "p" "t" "s"]? = some head ∧
      head.eventRef = ⟨1, 1, .«end», 30, some 2⟩ ∧
      IsLatest RunEvent.rank (w.db.eventsOf ⟨"p", "t", "s"⟩) event ∧
      event.eventRef = head.eventRef := by
  have hrun : (Transition.run (World.apply .sample) World.empty sampleOperations).map
      (fun w => (w.db.runDeletions[RunKey.mk "p" "t" "s"]?,
        w.db.runHeads[RunKey.mk "p" "t" "s"]?.map RunHead.eventRef)) =
      some (none, some ⟨1, 1, .«end», 30, some 2⟩) := by
    decide +kernel
  obtain ⟨w, hw, hrow⟩ := Option.map_eq_some_iff.1 hrun
  obtain ⟨hdeleted, hhead⟩ := Prod.mk.inj hrow
  obtain ⟨head, hhead, href⟩ := Option.map_eq_some_iff.1 hhead
  obtain ⟨-, -, hlatest⟩ := run_tables_agree .sample sampleOperations w hw ⟨"p", "t", "s"⟩
  obtain ⟨event, record, hevent, hsame, -⟩ := hlatest hdeleted head hhead
  exact ⟨w, head, event, hw, hhead, href, hevent, hsame⟩

end KevinDb
