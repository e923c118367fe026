import KevinDb.Lib.Table

namespace KevinDb
open Std

inductive RunEventKind where
  | start
  | update
  | «end»
  | compact
  | tombstone
deriving DecidableEq, Repr

def RunEventKind.asStr : RunEventKind → String
  | .start => "start"
  | .update => "update"
  | .«end» => "end"
  | .compact => "compact"
  | .tombstone => "tombstone"

structure SpanRecord where
  projectName : String
  runId : String
  traceId : String
  spanId : String
  parentRunId : Option String
  parentSpanId : Option String
  name : String
  runType : String
  startTimeUnixNano : Int
  endTimeUnixNano : Int
  statusCode : Int
  eventKind : RunEventKind
  attributesJson : String
  idempotencyKey : Option String
deriving DecidableEq, Repr

/-- The primary key of the run tables. -/
structure RunKey where
  projectName : String
  traceId : String
  spanId : String
deriving DecidableEq, Repr

instance : Ord RunKey where
  compare a b := (compare a.projectName b.projectName).then
    ((compare a.traceId b.traceId).then (compare a.spanId b.spanId))

instance : TransOrd RunKey :=
  inferInstanceAs (TransCmp (compareLex (compareOn RunKey.projectName)
    (compareLex (compareOn RunKey.traceId) (compareOn RunKey.spanId))))

instance : LawfulEqOrd RunKey where
  eq_of_compare {a b} h := by
    have hc : (compare a.projectName b.projectName).then
        ((compare a.traceId b.traceId).then (compare a.spanId b.spanId)) = .eq := h
    simp only [Ordering.then_eq_eq, LawfulEqCmp.compare_eq_iff_eq] at hc
    obtain ⟨hp, ht, hs⟩ := hc
    cases a
    cases b
    simp_all only

def SpanRecord.runKey (record : SpanRecord) : RunKey :=
  ⟨record.projectName, record.traceId, record.spanId⟩

structure PartitionKey where
  projectName : String
  timeBucketStartUnixNano : Int
deriving DecidableEq, Repr

instance : Ord PartitionKey where
  compare a b := (compare a.projectName b.projectName).then
    (compare a.timeBucketStartUnixNano b.timeBucketStartUnixNano)

instance : TransOrd PartitionKey :=
  inferInstanceAs (TransCmp (compareLex (compareOn PartitionKey.projectName)
    (compareOn PartitionKey.timeBucketStartUnixNano)))

instance : LawfulEqOrd PartitionKey where
  eq_of_compare {a b} h := by
    have hc : (compare a.projectName b.projectName).then
        (compare a.timeBucketStartUnixNano b.timeBucketStartUnixNano) = .eq := h
    simp only [Ordering.then_eq_eq, LawfulEqCmp.compare_eq_iff_eq] at hc
    obtain ⟨hp, ht⟩ := hc
    cases a
    cases b
    simp_all only

def ingestTimeBucketUnixNanos : Int := 60 * 60 * 1000000000

def i64Min : Int := -2 ^ 63

def i64Max : Int := 2 ^ 63 - 1

/-- `i64::saturating_mul`. -/
def saturatingMul (a b : Int) : Int := max i64Min (min i64Max (a * b))

def recordPartitionKey (record : SpanRecord) : PartitionKey where
  projectName := record.projectName
  timeBucketStartUnixNano :=
    saturatingMul (record.startTimeUnixNano / ingestTimeBucketUnixNanos) ingestTimeBucketUnixNanos

inductive RunStatus where
  | error
  | pending
  | success
deriving DecidableEq, Repr

def RunStatus.asStr : RunStatus → String
  | .error => "error"
  | .pending => "pending"
  | .success => "success"

/-- The status a status code and an end time stand for, in `status_from_record` and in the
`CASE` of the segment queries alike. -/
def runStatus (statusCode endTimeUnixNano : Int) : RunStatus :=
  if statusCode = 2 then .error
  else if endTimeUnixNano = 0 then .pending
  else .success

def statusFromRecord (record : SpanRecord) : RunStatus :=
  runStatus record.statusCode record.endTimeUnixNano

def SpanRecord.eventTimeUnixNano (record : SpanRecord) : Int :=
  if record.endTimeUnixNano > 0 then record.endTimeUnixNano else record.startTimeUnixNano

/-- The 64-bit FNV-1a hash of the source, with wrapping multiplication. -/
def stableHash (bytes : List UInt8) : UInt64 :=
  bytes.foldl (fun hash byte => (hash ^^^ byte.toUInt64) * 0x00000100000001b3) 0xcbf29ce484222325

/-- The `{:016x}` format. -/
def hex16 (n : UInt64) : String :=
  let digits := Nat.toDigits 16 n.toNat
  String.ofList (List.replicate (16 - digits.length) '0' ++ digits)

def attributesHash (attributesJson : String) : String :=
  hex16 (stableHash attributesJson.toUTF8.toList)

def runEventIdempotencyKey (record : SpanRecord) : String :=
  match record.idempotencyKey with
  | some key => key
  | none =>
    ":".intercalate [record.runId, record.traceId, record.spanId, record.eventKind.asStr,
      toString record.eventTimeUnixNano, toString record.startTimeUnixNano,
      toString record.endTimeUnixNano, toString record.statusCode, record.name,
      attributesHash record.attributesJson]

/-- The pair that the unique index on the run events keeps unique. -/
def SpanRecord.eventKey (record : SpanRecord) : String × String :=
  (record.projectName, runEventIdempotencyKey record)

/-- `group_records_by_partition`: the records of each partition in their order of arrival. -/
def groupRecordsByPartition (records : List SpanRecord) : Table PartitionKey (List SpanRecord) :=
  records.foldl (fun grouped record =>
    grouped.alter (recordPartitionKey record) fun group => some (group.getD [] ++ [record])) ∅

theorem groupRecordsByPartition_getD (records : List SpanRecord) (partition : PartitionKey) :
    (groupRecordsByPartition records)[partition]?.getD [] =
      records.filter (recordPartitionKey · = partition) := by
  unfold groupRecordsByPartition
  induction records using List.reverseRecOn with
  | nil => simp
  | append_singleton records record ih =>
    rw [List.foldl_append, List.foldl_cons, List.foldl_nil, Std.TreeMap.getElem?_alter,
      List.filter_append, List.filter_singleton, ← ih]
    by_cases hp : recordPartitionKey record = partition
    · subst hp
      simp
    · simp [hp, Std.LawfulEqCmp.compare_eq_iff_eq]

theorem mem_groupRecordsByPartition {records group : List SpanRecord} {partition : PartitionKey}
    (h : (partition, group) ∈ (groupRecordsByPartition records).toList) :
    group = records.filter (recordPartitionKey · = partition) := by
  rw [← groupRecordsByPartition_getD, Std.TreeMap.mem_toList_iff_getElem?_eq_some.1 h]
  rfl

theorem exists_mem_groupRecordsByPartition {records : List SpanRecord} {record : SpanRecord}
    (h : record ∈ records) :
    ∃ group, (recordPartitionKey record, group) ∈ (groupRecordsByPartition records).toList ∧
      record ∈ group := by
  have hmem : record ∈ (groupRecordsByPartition records)[recordPartitionKey record]?.getD [] := by
    rw [groupRecordsByPartition_getD]
    exact List.mem_filter.2 ⟨h, decide_eq_true rfl⟩
  cases hget : (groupRecordsByPartition records)[recordPartitionKey record]? with
  | none =>
    rw [hget] at hmem
    cases hmem
  | some group =>
    rw [hget] at hmem
    exact ⟨group, Std.TreeMap.mem_toList_iff_getElem?_eq_some.2 hget, hmem⟩

end KevinDb
