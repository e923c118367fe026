import KevinDb.Db
import KevinDb.Ingest.Metadata
import KevinDb.Lib.Grouping
import KevinDb.Lib.Json
import KevinDb.Lib.Statistics
import KevinDb.Lib.Text

namespace KevinDb
set_option autoImplicit true
open Std

/-- The texts that a run shows in its thread. -/
structure RunPreview where
  inputsPreview : Option String
  outputsPreview : Option String
  errorPreview : Option String
  firstTokenTimeUnixNano : Option Int
deriving DecidableEq, Repr

/-- How the payload of a record is read: the JSON value of a text, the text of a number, and the
previews, which are stored without looking into them. -/
structure PayloadReader where
  parseAttributes : String → Json
  numberText : JsonNumber → String
  runPreview : String → RunPreview

def maxTags : Nat := 32

def maxTagBytes : Nat := 128

def maxMetadataPairs : Nat := 32

def maxMetadataKeyBytes : Nat := 128

def maxMetadataValueBytes : Nat := 256

def maxThreadIdBytes : Nat := 256

def boundedRawString (value : String) (maxBytes : Nat) : Option String :=
  if value ≠ "" ∧ value.utf8ByteSize ≤ maxBytes then some value else none

def scalarValueString (reader : PayloadReader) (value : Json) (maxBytes : Nat) : Option String :=
  match value with
  | .string value => boundedRawString value maxBytes
  | .number number => boundedRawString (reader.numberText number) maxBytes
  | .bool value => boundedRawString (if value then "true" else "false") maxBytes
  | _ => none

def boundedString (reader : PayloadReader) (value : Json) (maxBytes : Nat) : Option String :=
  match value with
  | .string value => boundedRawString value maxBytes
  | .number _ | .bool _ => scalarValueString reader value maxBytes
  | _ => none

/-- `Value::get`. -/
def Json.get : Json → String → Option Json
  | .object fields, key => fields.lookup key
  | _, _ => none

def pathValue (root : Json) (path : List String) : Option Json := path.foldlM Json.get root

def tagPaths : List (List String) :=
  [["tags"], ["langsmith.tags"], ["langsmith.extra", "tags"], ["metadata", "tags"]]

def metadataPaths : List (List String) :=
  [["metadata"], ["langsmith.extra", "metadata"], ["extra", "metadata"]]

/-- Insert values into a set until it is full. -/
def insertUntil [DecidableEq α] (limit : Nat) : List α → List α → List α
  | found, [] => found
  | found, value :: values =>
    if limit ≤ (found.insert value).length then found.insert value
    else insertUntil limit (found.insert value) values

/-- `extract_tags`. -/
def extractTags (reader : PayloadReader) (root : Json) : List String :=
  let candidates := tagPaths.flatMap fun path =>
    match pathValue root path with
    | some (.array values) => values.filterMap fun value => boundedString reader value maxTagBytes
    | _ => []
  (insertUntil maxTags [] candidates).insertionSort (· ≤ ·)

/-- The pair of a field of a metadata object, if both parts are of use. -/
def metadataPair (reader : PayloadReader) (field : String × Json) : Option (String × String) := do
  let key ← boundedRawString field.1 maxMetadataKeyBytes
  let value ← scalarValueString reader field.2 maxMetadataValueBytes
  return (key, value)

/-- `extract_metadata`. -/
def extractMetadata (reader : PayloadReader) (root : Json) : List (String × String) :=
  let candidates := metadataPaths.flatMap fun path =>
    match pathValue root path with
    | some (.object fields) => fields.filterMap (metadataPair reader)
    | _ => []
  (insertUntil maxMetadataPairs [] candidates).insertionSort fun left right =>
    left.1 < right.1 ∨ left.1 = right.1 ∧ left.2 ≤ right.2

/-- `str::strip_prefix`. -/
def stripStart (start text : String) : Option String :=
  if start.toList.isPrefixOf text.toList then
    some (String.ofList (text.toList.drop start.toList.length))
  else none

def tagValue (starts : List String) (tag : String) : Option String :=
  starts.findSome? fun start => stripStart start tag

/-- `thread_id_from_tags`. -/
def threadIdFromTags (tags : List String) : Option String :=
  (tags.findSome? (tagValue ["thread_id:", "thread_id=", "thread:", "thread="])).or
    (tags.findSome? (tagValue ["session_id:", "session_id="]))

/-- `clean_thread_id`. -/
def cleanThreadId (value : Option String) : Option String :=
  (value.map trim).filter fun value => value ≠ "" ∧ value.utf8ByteSize ≤ maxThreadIdBytes

/-- The values of a key that a left join gives: one row without a value if there are none. -/
def joinedValues (metadata : List (String × String)) (key : String) : List (Option String) :=
  match metadata.filter fun pair => pair.1 = key with
  | [] => [none]
  | pairs => pairs.map fun pair => some pair.2

/-- The thread ids of the rows that `load_trace_thread_runs` gets for a run: one row for each pair
of a value of `thread_id` and a value of `session_id`. -/
def joinedThreadIds (metadata : List (String × String)) (tags : List String) :
    List (Option String) :=
  (joinedValues metadata "thread_id").flatMap fun threadId =>
    (joinedValues metadata "session_id").map fun sessionId =>
      ((cleanThreadId threadId).or (cleanThreadId sessionId)).or
        ((threadIdFromTags tags).bind fun value => cleanThreadId (some value))

structure ThreadKey where
  projectName : String
  threadId : String
deriving DecidableEq, Repr

instance : Ord ThreadKey where
  compare a b := (compare a.projectName b.projectName).then (compare a.threadId b.threadId)

instance : TransOrd ThreadKey :=
  inferInstanceAs (TransCmp (compareLex (compareOn ThreadKey.projectName)
    (compareOn ThreadKey.threadId)))

instance : LawfulEqOrd ThreadKey where
  eq_of_compare {a b} h := by
    have hc : (compare a.projectName b.projectName).then
        (compare a.threadId b.threadId) = .eq := h
    simp only [Ordering.then_eq_eq, LawfulEqCmp.compare_eq_iff_eq] at hc
    obtain ⟨hp, ht⟩ := hc
    cases a
    cases b
    simp_all only

structure ThreadTraceKey where
  projectName : String
  threadId : String
  traceId : String
deriving DecidableEq, Repr

instance : Ord ThreadTraceKey where
  compare a b := (compare a.projectName b.projectName).then
    ((compare a.threadId b.threadId).then (compare a.traceId b.traceId))

instance : TransOrd ThreadTraceKey :=
  inferInstanceAs (TransCmp (compareLex (compareOn ThreadTraceKey.projectName)
    (compareLex (compareOn ThreadTraceKey.threadId) (compareOn ThreadTraceKey.traceId))))

instance : LawfulEqOrd ThreadTraceKey where
  eq_of_compare {a b} h := by
    have hc : (compare a.projectName b.projectName).then
        ((compare a.threadId b.threadId).then (compare a.traceId b.traceId)) = .eq := h
    simp only [Ordering.then_eq_eq, LawfulEqCmp.compare_eq_iff_eq] at hc
    obtain ⟨hp, ht, hs⟩ := hc
    cases a
    cases b
    simp_all only

def ThreadTraceKey.thread (key : ThreadTraceKey) : ThreadKey := ⟨key.projectName, key.threadId⟩

/-- The counts of tokens and the costs of a run, a trace or a thread. -/
structure ThreadTotals where
  promptTokens : Option Int
  completionTokens : Option Int
  totalTokens : Option Int
  promptCost : Option ℚ
  completionCost : Option ℚ
  totalCost : Option ℚ
deriving DecidableEq

/-- `sum_i64` and `sum_f64` for each of them. -/
def ThreadTotals.sum (totals : List ThreadTotals) : ThreadTotals where
  promptTokens := total (totals.filterMap promptTokens)
  completionTokens := total (totals.filterMap completionTokens)
  totalTokens := total (totals.filterMap totalTokens)
  promptCost := total (totals.filterMap promptCost)
  completionCost := total (totals.filterMap completionCost)
  totalCost := total (totals.filterMap totalCost)

def RunHead.threadTotals (head : RunHead) : ThreadTotals where
  promptTokens := head.metrics.promptTokens
  completionTokens := head.metrics.completionTokens
  totalTokens := head.metrics.totalTokens
  promptCost := head.metrics.promptCost
  completionCost := head.metrics.completionCost
  totalCost := head.metrics.totalCost

structure ThreadRunRow where
  spanId : String
  runId : String
  generatedRunId : String
  rootRunId : String
  rootSpanId : String
  name : String
  isRoot : Bool
  startTimeUnixNano : Int
  endTimeUnixNano : Int
  totals : ThreadTotals
  threadId : Option String
  preview : RunPreview
deriving DecidableEq

def ThreadRunRow.ofHead (spanId : String) (head : RunHead) (preview : RunPreview)
    (threadId : Option String) : ThreadRunRow where
  spanId := spanId
  runId := head.runId
  generatedRunId := head.generatedRunId
  rootRunId := head.rootRunId
  rootSpanId := head.rootSpanId
  name := head.name
  isRoot := head.isRoot
  startTimeUnixNano := head.startTimeUnixNano
  endTimeUnixNano := head.endTimeUnixNano
  totals := head.threadTotals
  threadId := threadId
  preview := preview

/-- The order of the runs of a thread: by start time, then by span id. -/
def ThreadRunRow.before (left right : ThreadRunRow) : Prop :=
  left.startTimeUnixNano < right.startTimeUnixNano ∨
    (left.startTimeUnixNano = right.startTimeUnixNano ∧ left.spanId ≤ right.spanId)

instance : DecidableRel ThreadRunRow.before := fun left right =>
  inferInstanceAs (Decidable (left.startTimeUnixNano < right.startTimeUnixNano ∨ _))

/-- A row of `thread_traces` without its key. -/
structure ThreadTraceRow where
  rootRunId : String
  rootSpanId : String
  name : String
  startTimeUnixNano : Int
  endTimeUnixNano : Int
  latencyNanos : Int
  preview : RunPreview
  totals : ThreadTotals
deriving DecidableEq

def firstPreview (values : List (Option String)) : Option String :=
  (values.filterMap id).find? fun value => value ≠ ""

def lastPreview (values : List (Option String)) : Option String :=
  ((values.filterMap id).filter fun value => value ≠ "").getLast?

/-- `checked_sub`, and no negative latencies. -/
def latencyBetween (startTimeUnixNano endTimeUnixNano : Int) : Int :=
  let latency := endTimeUnixNano - startTimeUnixNano
  if 0 < latency ∧ latency ≤ i64Max then latency else 0

/-- `build_thread_trace_upsert`. There is none of no runs. -/
def buildThreadTraceUpsert (runs : List ThreadRunRow) : Option ThreadTraceRow :=
  runs.head?.map fun first =>
    let root := (runs.find? ThreadRunRow.isRoot).getD first
    let endTime := (runs.map ThreadRunRow.endTimeUnixNano).max?.getD first.endTimeUnixNano
    let startTime := (runs.map ThreadRunRow.startTimeUnixNano).min?.getD first.startTimeUnixNano
    { rootRunId := firstNonempty [root.runId, root.generatedRunId, root.rootRunId, root.spanId]
        root.spanId
      rootSpanId := firstNonempty [root.rootSpanId, root.spanId] root.spanId
      name := root.name
      startTimeUnixNano := startTime
      endTimeUnixNano := endTime
      latencyNanos := latencyBetween startTime endTime
      preview :=
        { inputsPreview := firstPreview (runs.map fun run => run.preview.inputsPreview)
          outputsPreview := lastPreview (runs.map fun run => run.preview.outputsPreview)
          errorPreview := lastPreview (runs.map fun run => run.preview.errorPreview)
          firstTokenTimeUnixNano :=
            (runs.filterMap fun run => run.preview.firstTokenTimeUnixNano).min? }
      totals := .sum (runs.map ThreadRunRow.totals) }

/-- A row of `threads` without its key. -/
structure ThreadRow where
  count : Nat
  firstTraceId : Option String
  lastTraceId : Option String
  minStartTimeUnixNano : Option Int
  maxStartTimeUnixNano : Option Int
  firstInputs : Option String
  lastOutputs : Option String
  lastError : Option String
  totals : ThreadTotals
  latencyP50 : Option ℚ
  latencyP99 : Option ℚ
  numErroredTurns : Nat
deriving DecidableEq

/-- The row that `ensure_thread_row` inserts, of defaults. -/
def ThreadRow.new : ThreadRow :=
  ⟨0, none, none, none, none, none, none, none, ⟨none, none, none, none, none, none⟩, none, none, 0⟩

def percentileSeconds (sortedNanos : List Int) (p : Nat) : Option ℚ :=
  (percentile (rationals sortedNanos) p).map fun nanos => nanos / 1000000000

/-- A row of `thread_traces` with its trace. -/
abbrev TraceSummary := String × ThreadTraceRow

/-- The order of the traces of a thread: by start time, then by trace id. -/
def traceBefore (left right : TraceSummary) : Prop :=
  left.2.startTimeUnixNano < right.2.startTimeUnixNano ∨
    (left.2.startTimeUnixNano = right.2.startTimeUnixNano ∧ left.1 ≤ right.1)

instance : DecidableRel traceBefore := fun left right =>
  inferInstanceAs (Decidable (left.2.startTimeUnixNano < right.2.startTimeUnixNano ∨ _))

/-- What `refresh_thread_summary` sets for the traces of a thread, in their order. -/
def ThreadRow.ofTraces (traces : List TraceSummary) : ThreadRow :=
  let latencies := (traces.map fun trace => max trace.2.latencyNanos 0).insertionSort (· ≤ ·)
  { count := traces.length
    firstTraceId := traces.head?.map Prod.fst
    lastTraceId := traces.getLast?.map Prod.fst
    minStartTimeUnixNano := traces.head?.map fun trace => trace.2.startTimeUnixNano
    maxStartTimeUnixNano := traces.getLast?.map fun trace => trace.2.startTimeUnixNano
    firstInputs := firstPreview (traces.map fun trace => trace.2.preview.inputsPreview)
    lastOutputs := lastPreview (traces.map fun trace => trace.2.preview.outputsPreview)
    lastError := lastPreview (traces.map fun trace => trace.2.preview.errorPreview)
    totals := .sum (traces.map fun trace => trace.2.totals)
    latencyP50 := percentileSeconds latencies 50
    latencyP99 := percentileSeconds latencies 99
    numErroredTurns := traces.countP fun trace => trace.2.preview.errorPreview.isSome }

end KevinDb
