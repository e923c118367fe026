import KevinDb.Ingest.Metadata

namespace KevinDb

/-- An object by what it encodes: a Vortex segment holds rows, its search index indexes them. -/
inductive StoredObject where
  | segment (records : List SpanRecord)
  | searchIndex (records : List SpanRecord)
deriving DecidableEq

/-- The metadata database and the object store. -/
structure World where
  db : Db
  objects : Table String StoredObject

def World.empty : World := ⟨.empty, ∅⟩

/-- The row that a segment id and a row index stand for, read from the segment's object. -/
def World.rowAt (w : World) (segmentId rowIndex : Nat) : Option SpanRecord := do
  let segment ← w.db.traceSegments[segmentId]?
  match ← w.objects[segment.uri]? with
  | .segment records => records[rowIndex]?
  | .searchIndex _ => none

/-- The clock reading and the process-wide sequence number that go into a segment's name. -/
structure SegmentName where
  nowNs : Nat
  sequence : Nat
deriving DecidableEq, Repr

def isPathByte (byte : UInt8) : Bool :=
  (97 ≤ byte && byte ≤ 122) || (65 ≤ byte && byte ≤ 90) || (48 ≤ byte && byte ≤ 57) ||
    byte == 45 || byte == 95 || byte == 46

def hexDigitUpper (n : Nat) : Char :=
  if n < 10 then Char.ofNat (48 + n) else Char.ofNat (55 + n)

def escapePathComponent (value : String) : String :=
  String.ofList (value.toUTF8.toList.flatMap fun byte =>
    if isPathByte byte then [Char.ofNat byte.toNat]
    else ['%', hexDigitUpper (byte.toNat / 16), hexDigitUpper (byte.toNat % 16)])

def segmentUri (partition : PartitionKey) (name : SegmentName) (first : SpanRecord) : String :=
  "projects/" ++ escapePathComponent partition.projectName ++
    "/time-buckets/" ++ toString partition.timeBucketStartUnixNano ++
    "/trace-segments/" ++ toString name.nowNs ++ "-" ++ toString name.sequence ++ "-" ++
    first.traceId ++ ".vortex"

def searchIndexUriForSegment (segmentUri : String) : String :=
  let chars := segmentUri.toList
  if ".vortex".toList.isSuffixOf chars then
    String.ofList (chars.take (chars.length - 7)) ++ ".search.fst"
  else segmentUri ++ ".search.fst"

structure FlushReceipt where
  segmentUri : String
  spanCount : Nat
deriving DecidableEq, Repr

/-- The call of `persist_segment` that fails. Encoding comes before any effect. A put or a
commit that fails is taken as not done. -/
inductive SegmentFault where
  | encode
  | putSegment
  | putSearchIndex
  | connect
  | metadata
  | commit
deriving DecidableEq, Repr

inductive PersistSegmentResult where
  | written (receipt : FlushReceipt)
  | duplicateConflict (records : List SpanRecord)
deriving DecidableEq, Repr

def validatePartitionRecords (partition : PartitionKey) (records : List SpanRecord) : Bool :=
  records.all fun record => recordPartitionKey record = partition

def World.putSegment (w : World) (uri : String) (records : List SpanRecord) : World :=
  { w with objects := w.objects.insert uri (.segment records) }

def World.putSearchIndex (w : World) (uri : String) (records : List SpanRecord) : World :=
  { w with objects := w.objects.insert uri (.searchIndex records) }

/-- The metadata transaction of `persist_segment`, with both objects already written. -/
def World.commitSegment (x : Externals) (w : World) (partition : PartitionKey) (uri : String)
    (records : List SpanRecord) (fault : Option SegmentFault) :
    World × Except (List SpanRecord) PersistSegmentResult :=
  match w.db.persistMetadata x partition uri (searchIndexUriForSegment uri) records with
  | none => (w, .error records)
  | some (db, inserted) =>
    if fault = some .metadata then ({ w with db := w.db.rollback db }, .error records)
    else if !inserted then
      ({ w with db := w.db.rollback db },
        if fault = some .commit then .error records else .ok (.duplicateConflict records))
    else if fault = some .commit then ({ w with db := w.db.rollback db }, .error records)
    else ({ w with db }, .ok (.written ⟨uri, records.length⟩))

/-- `persist_segment`: write the segment, write its search index, then commit the metadata. An
error hands the records back. -/
def World.persistSegment (x : Externals) (w : World) (partition : PartitionKey)
    (name : SegmentName) (records : List SpanRecord) (fault : Option SegmentFault) :
    World × Except (List SpanRecord) PersistSegmentResult :=
  match records with
  | [] => (w, .error [])
  | first :: _ =>
    if !validatePartitionRecords partition records then (w, .error records)
    else if fault = some .encode ∨ fault = some .putSegment then (w, .error records)
    else
      let uri := segmentUri partition name first
      let w := w.putSegment uri records
      if fault = some .putSearchIndex then (w, .error records)
      else
        let w := w.putSearchIndex (searchIndexUriForSegment uri) records
        if fault = some .connect then (w, .error records)
        else w.commitSegment x partition uri records fault

def filterDuplicateRecords (db : Db) (records : List SpanRecord) : List SpanRecord :=
  match records with
  | [] => []
  | first :: _ => records.filter fun record =>
      ¬ db.hasEventKey (first.projectName, runEventIdempotencyKey record)

/-- The call that fails in a turn of `persist_partition_records`. -/
inductive TurnFault where
  | filter
  | segment (fault : SegmentFault)
deriving DecidableEq, Repr

def TurnFault.inSegment : Option TurnFault → Option SegmentFault
  | some (.segment fault) => some fault
  | _ => none

/-- How a turn of the loop of `persist_partition_records` ends. -/
inductive Turn where
  | finished
  | continued (receipt : Option FlushReceipt) (remaining : List SpanRecord)
  | failed (records : List SpanRecord)
deriving DecidableEq, Repr

/-- One turn of the loop of `persist_partition_records`. -/
def World.persistTurn (x : Externals) (maxSpansPerSegment : Nat) (w : World)
    (partition : PartitionKey) (name : SegmentName) (fault : Option TurnFault)
    (remaining : List SpanRecord) : World × Turn :=
  if fault = some .filter ∧ remaining ≠ [] then (w, .failed remaining)
  else
    let remaining := filterDuplicateRecords w.db remaining
    if remaining = [] then (w, .finished)
    else
      let count := min (max maxSpansPerSegment 1) remaining.length
      let segment := remaining.take count
      let rest := remaining.drop count
      match w.persistSegment x partition name segment (TurnFault.inSegment fault) with
      | (w, .ok (.written receipt)) => (w, .continued (some receipt) rest)
      | (w, .ok (.duplicateConflict records)) => (w, .continued none (records ++ rest))
      | (w, .error records) => (w, .failed (records ++ rest))

/-- `persist_partition_records` with every call of the object store and the database
succeeding, cut off after `fuel` turns. -/
def World.persistPartitionRecords (x : Externals) (maxSpansPerSegment : Nat)
    (partition : PartitionKey) (names : Nat → SegmentName) :
    Nat → World → List SpanRecord → List FlushReceipt →
      Option (World × Except (List SpanRecord) (List FlushReceipt))
  | 0, _, _, _ => none
  | fuel + 1, w, remaining, receipts =>
    match w.persistTurn x maxSpansPerSegment partition (names fuel) none remaining with
    | (w, .finished) => some (w, .ok receipts)
    | (w, .continued receipt remaining) =>
      World.persistPartitionRecords x maxSpansPerSegment partition names fuel w remaining
        (receipts ++ receipt.toList)
    | (w, .failed records) => some (w, .error records)

end KevinDb
