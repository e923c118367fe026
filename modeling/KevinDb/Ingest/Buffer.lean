import KevinDb.Ingest.Partition

namespace KevinDb
set_option autoImplicit true

structure IngestConfig where
  maxSpansPerSegment : Nat
  maxFlushDelay : Nat

/-- What a waiter is told: the receipts of its batch, or that the batch failed. -/
inductive WaiterFlushResult where
  | ok (receipts : List FlushReceipt)
  | err
deriving DecidableEq

/-- The records of a partition that wait for a flush. A waiter is the number of its channel. -/
structure PendingBuffer where
  records : List SpanRecord := []
  waiters : List Nat := []
  flushing : Bool := false
deriving DecidableEq

abbrev PendingState := Table PartitionKey PendingBuffer

structure FlushBatch where
  partition : PartitionKey
  records : List SpanRecord
  waiters : List Nat
deriving DecidableEq

/-- The records that one call of `ingest_records` adds to one partition, with their waiter. -/
structure Put where
  waiter : Nat
  partition : PartitionKey
  records : List SpanRecord

def putsOf : Nat → List (PartitionKey × List SpanRecord) → List Put
  | _, [] => []
  | waiter, (partition, records) :: groups =>
    ⟨waiter, partition, records⟩ :: putsOf (waiter + 1) groups

/-- The buffer of a partition, empty where the table has none. -/
def PendingState.buffer (pending : PendingState) (partition : PartitionKey) : PendingBuffer :=
  pending[partition]?.getD {}

def PendingState.enqueue (pending : PendingState) (put : Put) : PendingState :=
  pending.alter put.partition fun buffer =>
    let buffer := buffer.getD {}
    some { buffer with
      records := buffer.records ++ put.records
      waiters := buffer.waiters ++ [put.waiter] }

/-- The lock section of `ingest_records`. The flag says whether to flush at once. -/
def PendingState.enqueueAll (config : IngestConfig) (pending : PendingState) :
    List Put → PendingState × Bool
  | [] => (pending, false)
  | put :: puts =>
    let pending := pending.enqueue put
    let full := max config.maxSpansPerSegment 1 ≤ (pending.buffer put.partition).records.length ∨
      config.maxFlushDelay = 0
    let (pending, flush) := pending.enqueueAll config puts
    (pending, full || flush)

inductive Selection where
  | batch (batch : FlushBatch)
  | wait
  | drained
deriving DecidableEq

def PendingState.nextPartition (pending : PendingState) : Option PartitionKey :=
  (pending.toList.find? fun row => !row.2.flushing && !row.2.records.isEmpty).map Prod.fst

/-- The first lock section of a turn of `flush`: the first partition in key order that has
records and is not being flushed gives its records and waiters away. -/
def PendingState.select (pending : PendingState) : PendingState × Selection :=
  match pending.nextPartition with
  | some partition =>
    let buffer := pending.buffer partition
    (pending.insert partition ⟨[], [], true⟩, .batch ⟨partition, buffer.records, buffer.waiters⟩)
  | none =>
    if pending.toList.any fun row => row.2.flushing then (pending, .wait) else (pending, .drained)

/-- The lock section after a batch was persisted. -/
def PendingState.release (pending : PendingState) (partition : PartitionKey) : PendingState :=
  let pending := pending.modify partition fun buffer => { buffer with flushing := false }
  match pending[partition]? with
  | some buffer =>
    if buffer.records = [] ∧ buffer.waiters = [] then pending.erase partition else pending
  | none => pending

/-- The lock section after a batch failed: what is left of it goes back in front, and the waiters
of the batch and of the buffer are handed out. -/
def PendingState.restore (pending : PendingState) (batch : FlushBatch) :
    PendingState × List Nat :=
  let buffer := pending.buffer batch.partition
  (pending.insert batch.partition ⟨batch.records ++ buffer.records, [], false⟩,
    batch.waiters ++ buffer.waiters)

/-- Where a call of `flush` stands, between two of its lock sections or calls. -/
inductive FlushStage where
  | selecting
  | waiting (woken : Bool)
  | persisting (batch : FlushBatch) (receipts : List FlushReceipt)
  | persisted (partition : PartitionKey) (waiters : List Nat) (receipts : List FlushReceipt)
  | failed (batch : FlushBatch)
  | notifying (waiters : List Nat) (result : WaiterFlushResult)
deriving DecidableEq

/-- Who called `flush`: a client, or `ingest_records`, once or twice. -/
inductive FlushCaller where
  | client
  | ingest (waiters : List Nat) (again : Bool)
deriving DecidableEq

/-- A future of `ingest_records` or `flush`. -/
inductive Task where
  | entering (records : List SpanRecord)
  | sleeping (waiters : List Nat)
  | flushing (caller : FlushCaller) (receipts : List FlushReceipt) (stage : FlushStage)
  | awaiting (waiters : List Nat)
  | finished (result : Option (List FlushReceipt))
  | dropped
deriving DecidableEq

/-- The futures, the buffers and the store. The log of the puts is for the statements only. -/
structure Ingestor where
  world : World
  pending : PendingState
  tasks : List Task
  nextWaiter : Nat
  answers : List (Nat × WaiterFlushResult)
  puts : List Put

def Ingestor.initial (world : World) : Ingestor := ⟨world, ∅, [], 0, [], []⟩

/-- The batch that a future holds outside the buffers. -/
def Task.batch : Task → Option FlushBatch
  | .flushing _ _ (.persisting batch _) => some batch
  | .flushing _ _ (.persisted partition waiters _) => some ⟨partition, [], waiters⟩
  | .flushing _ _ (.failed batch) => some batch
  | _ => none

/-- The answer that a future is about to send. -/
def Task.notice : Task → Option (List Nat × WaiterFlushResult)
  | .flushing _ _ (.notifying waiters result) => some (waiters, result)
  | _ => none

def Task.wake : Task → Task
  | .flushing caller receipts (.waiting _) => .flushing caller receipts (.waiting true)
  | task => task

/-- Whether the sending half of a waiter's channel still exists. -/
def Ingestor.holdsWaiter (s : Ingestor) (waiter : Nat) : Bool :=
  (s.pending.toList.any fun row => waiter ∈ row.2.waiters) ||
    s.tasks.any fun task => waiter ∈ (task.batch.elim [] FlushBatch.waiters) ++
      (task.notice.elim [] Prod.fst)

/-- `wait_for_flush_receivers`: nothing while an answer is missing, and a failure where an
answer is an error or its sender is gone. -/
def Ingestor.received (s : Ingestor) : List Nat → Option (Option (List FlushReceipt))
  | [] => some (some [])
  | waiter :: waiters =>
    match s.answers.lookup waiter with
    | some (.ok receipts) => (s.received waiters).map (Option.map (receipts ++ ·))
    | some .err => some none
    | none => if s.holdsWaiter waiter then none else some none

def sortReceipts (receipts : List FlushReceipt) : List FlushReceipt :=
  receipts.mergeSort fun a b => a.segmentUri ≤ b.segmentUri

/-- A call of `flush` has returned. -/
def FlushCaller.returned : FlushCaller → Option (List FlushReceipt) → Task
  | .client, result => .finished result
  | .ingest _ _, none => .finished none
  | .ingest waiters true, some _ => .flushing (.ingest waiters false) [] .selecting
  | .ingest waiters false, some _ => .awaiting waiters

def Ingestor.setTask (s : Ingestor) (i : Nat) (task : Task) : Ingestor :=
  { s with tasks := s.tasks.set i task }

/-- The records that a turn leaves to be persisted. -/
def Turn.left : Turn → List SpanRecord
  | .finished => []
  | .continued _ records => records
  | .failed records => records

/-- A call of `flush` runs up to its next lock section or the next turn of its batch. -/
def Ingestor.pollFlush (x : Externals) (config : IngestConfig) (s : Ingestor) (i : Nat)
    (name : SegmentName) (fault : Option TurnFault) (caller : FlushCaller)
    (receipts : List FlushReceipt) : FlushStage → Option Ingestor
  | .selecting =>
    match s.pending.select with
    | (pending, .batch batch) =>
      some ({ s with pending }.setTask i (.flushing caller receipts (.persisting batch [])))
    | (_, .wait) => some (s.setTask i (.flushing caller receipts (.waiting false)))
    | (_, .drained) => some (s.setTask i (caller.returned (some receipts)))
  | .waiting woken =>
    if woken then some (s.setTask i (.flushing caller receipts .selecting)) else none
  | .persisting batch written =>
    let (world, turn) :=
      s.world.persistTurn x config.maxSpansPerSegment batch.partition name fault batch.records
    some ({ s with world }.setTask i (.flushing caller receipts
      (match turn with
      | .finished => .persisted batch.partition batch.waiters written
      | .continued receipt records =>
        .persisting { batch with records } (written ++ receipt.toList)
      | .failed records => .failed { batch with records })))
  | .persisted partition waiters written =>
    some ({ s with pending := s.pending.release partition }.setTask i
      (.flushing caller (receipts ++ written) (.notifying waiters (.ok written))))
  | .failed batch =>
    let (pending, waiters) := s.pending.restore batch
    some ({ s with pending }.setTask i (.flushing caller receipts (.notifying waiters .err)))
  | .notifying waiters result =>
    some { s with
      answers := s.answers ++ waiters.map fun waiter => (waiter, result)
      tasks := (s.tasks.map Task.wake).set i
        (match result with
        | .ok _ => .flushing caller receipts .selecting
        | .err => caller.returned none) }

/-- A future runs on. -/
def Ingestor.poll (x : Externals) (config : IngestConfig) (s : Ingestor) (i : Nat)
    (name : SegmentName) (fault : Option TurnFault) : Task → Option Ingestor
  | .entering records =>
    if records = [] then some (s.setTask i (.finished (some [])))
    else
      let puts := putsOf s.nextWaiter (groupRecordsByPartition records).toList
      let (pending, full) := s.pending.enqueueAll config puts
      let waiters := puts.map Put.waiter
      some ({ s with
        pending
        nextWaiter := s.nextWaiter + puts.length
        puts := s.puts ++ puts }.setTask i
          (if full then .flushing (.ingest waiters true) [] .selecting else .sleeping waiters))
  | .sleeping waiters | .awaiting waiters =>
    (s.received waiters).map fun result => s.setTask i (.finished (result.map sortReceipts))
  | .flushing caller receipts stage => s.pollFlush x config i name fault caller receipts stage
  | .finished _ | .dropped => none

/-- A future can be dropped at an await, which the end of a lock section is not. -/
def Task.droppable : Task → Bool
  | .flushing _ _ (.notifying _ _) | .finished _ | .dropped => false
  | _ => true

inductive IngestAction where
  | callFlush
  | callIngest (records : List SpanRecord)
  | poll (i : Nat) (name : SegmentName) (fault : Option TurnFault)
  | timeout (i : Nat)
  | drop (i : Nat)

/-- One step of the ingestor: a call comes in, a future runs on, the sleep of a future ends, or a
future is dropped. -/
def Ingestor.step (x : Externals) (config : IngestConfig) (s : Ingestor) :
    IngestAction → Option Ingestor
  | .callFlush => some { s with tasks := s.tasks ++ [.flushing .client [] .selecting] }
  | .callIngest records => some { s with tasks := s.tasks ++ [.entering records] }
  | .poll i name fault => s.tasks[i]?.bind fun task => s.poll x config i name fault task
  | .timeout i =>
    match s.tasks[i]? with
    | some (.sleeping waiters) =>
      some (s.setTask i (.flushing (.ingest waiters false) [] .selecting))
    | _ => none
  | .drop i =>
    match s.tasks[i]? with
    | some task => if task.droppable then some (s.setTask i .dropped) else none
    | none => none

end KevinDb
