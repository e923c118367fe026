import KevinDb.Ingest.Buffer

namespace KevinDb
set_option autoImplicit true
open Std

variable {x : Externals} {config : IngestConfig} {pending pending' : PendingState}
  {partition p : PartitionKey} {batch : FlushBatch} {w : World}

theorem PendingState.buffer_insert (pending : PendingState) (q p : PartitionKey)
    (buffer : PendingBuffer) : PendingState.buffer (pending.insert q buffer) p =
      if q = p then buffer else pending.buffer p := by
  unfold PendingState.buffer
  rw [Table.get_insert]
  split <;> rfl

theorem PendingState.buffer_enqueue (pending : PendingState) (put : Put) (p : PartitionKey) :
    (pending.enqueue put).buffer p =
      if put.partition = p then
        { pending.buffer p with
          records := (pending.buffer p).records ++ put.records
          waiters := (pending.buffer p).waiters ++ [put.waiter] }
      else pending.buffer p := by
  unfold PendingState.buffer PendingState.enqueue
  rw [TreeMap.getElem?_alter]
  simp only [LawfulEqCmp.compare_eq_iff_eq]
  split
  next h =>
    subst h
    rfl
  next => rfl

theorem PendingState.buffer_release (pending : PendingState) (q p : PartitionKey) :
    (pending.release q).buffer p =
      if q = p then { pending.buffer p with flushing := false } else pending.buffer p := by
  have hmodify : ∀ p : PartitionKey,
      (PendingState.buffer (pending.modify q fun b => { b with flushing := false }) p) =
        if q = p then { pending.buffer p with flushing := false } else pending.buffer p := by
    intro p
    unfold PendingState.buffer
    rw [Table.get_modify]
    split
    · cases pending[p]? <;> rfl
    · rfl
  unfold PendingState.release
  dsimp only
  split
  next buffer hbuffer =>
    split
    next hempty =>
      rw [← hmodify p]
      unfold PendingState.buffer
      rw [Table.get_erase]
      split
      next h =>
        subst h
        have hflag := congrArg PendingBuffer.flushing (hmodify q)
        unfold PendingState.buffer at hflag
        rw [hbuffer] at hflag ⊢
        rw [if_pos rfl] at hflag
        cases buffer
        cases hempty.1
        cases hempty.2
        cases hflag
        rfl
      next => rfl
    next => exact hmodify p
  next => exact hmodify p

theorem PendingState.buffer_restore (pending : PendingState) (batch : FlushBatch)
    (p : PartitionKey) : (pending.restore batch).1.buffer p =
      if batch.partition = p then ⟨batch.records ++ (pending.buffer p).records, [], false⟩
      else pending.buffer p := by
  unfold PendingState.restore
  dsimp only
  rw [PendingState.buffer_insert]
  split
  next h => rw [h]
  next => rfl

/-- What the first lock section of a turn of `flush` takes. -/
theorem PendingState.select_batch (h : pending.select = (pending', .batch batch)) :
    batch.records = (pending.buffer batch.partition).records ∧
      batch.waiters = (pending.buffer batch.partition).waiters ∧
      (pending.buffer batch.partition).flushing = false ∧ batch.records ≠ [] ∧
      ∀ p, pending'.buffer p = if batch.partition = p then ⟨[], [], true⟩ else pending.buffer p := by
  unfold PendingState.select PendingState.nextPartition at h
  split at h
  next partition hnext =>
    cases h
    obtain ⟨row, hfind, rfl⟩ := Option.map_eq_some_iff.1 hnext
    have hrow := TreeMap.mem_toList_iff_getElem?_eq_some.1 (List.mem_of_find?_eq_some hfind)
    have hbuffer : pending.buffer row.1 = row.2 := by
      rw [PendingState.buffer, hrow]
      rfl
    have hpred := List.find?_some hfind
    rw [Bool.and_eq_true, Bool.not_eq_true', Bool.not_eq_true', List.isEmpty_eq_false_iff] at hpred
    rw [hbuffer]
    exact ⟨rfl, rfl, hpred.1, hpred.2, fun p => pending.buffer_insert row.1 p _⟩
  next => split at h <;> cases h

/-- What matters of an ingestor for its records and waiters: the store, the buffers, the batches
and answers that its futures hold, and the logs. -/
structure Ledger where
  world : World
  pending : PendingState
  flying : Multiset FlushBatch
  notices : Multiset (List Nat × WaiterFlushResult)
  nextWaiter : Nat
  answers : List (Nat × WaiterFlushResult)
  puts : List Put

/-- The moves of records and waiters. -/
inductive Ledger.Step (x : Externals) (config : IngestConfig) (l : Ledger) : Ledger → Prop
  | put (partition : PartitionKey) (records : List SpanRecord)
      (hvalid : ∀ r ∈ records, recordPartitionKey r = partition) :
      Step x config l { l with
        pending := l.pending.enqueue ⟨l.nextWaiter, partition, records⟩
        nextWaiter := l.nextWaiter + 1
        puts := l.puts ++ [⟨l.nextWaiter, partition, records⟩] }
  | take (batch : FlushBatch) (pending : PendingState)
      (hselect : l.pending.select = (pending, .batch batch)) :
      Step x config l { l with pending, flying := batch ::ₘ l.flying }
  | turn (batch : FlushBatch) (rest : Multiset FlushBatch) (hflying : l.flying = batch ::ₘ rest)
      (name : SegmentName) (fault : Option TurnFault) (w : World) (turn : Turn)
      (hturn : l.world.persistTurn x config.maxSpansPerSegment batch.partition name fault
        batch.records = (w, turn)) :
      Step x config l { l with
        world := w
        flying := { batch with records := turn.left } ::ₘ rest }
  | release (partition : PartitionKey) (waiters : List Nat) (receipts : List FlushReceipt)
      (rest : Multiset FlushBatch) (hflying : l.flying = ⟨partition, [], waiters⟩ ::ₘ rest) :
      Step x config l { l with
        pending := l.pending.release partition
        flying := rest
        notices := (waiters, .ok receipts) ::ₘ l.notices }
  | restore (batch : FlushBatch) (rest : Multiset FlushBatch)
      (hflying : l.flying = batch ::ₘ rest) :
      Step x config l { l with
        pending := (l.pending.restore batch).1
        flying := rest
        notices := ((l.pending.restore batch).2, .err) ::ₘ l.notices }
  | notify (waiters : List Nat) (result : WaiterFlushResult)
      (rest : Multiset (List Nat × WaiterFlushResult))
      (hnotices : l.notices = (waiters, result) ::ₘ rest) :
      Step x config l { l with
        notices := rest
        answers := l.answers ++ waiters.map fun waiter => (waiter, result) }

def World.eventKeys (w : World) : List (String × String) :=
  w.db.runEvents.map RunEvent.eventKey

/-- A turn commits some of its records, finds some committed, and leaves the rest. -/
theorem World.persistTurn_settles (hvalid : ∀ r ∈ records, recordPartitionKey r = partition)
    (h : w.persistTurn x maxSpansPerSegment partition name fault records = (w', turn)) :
    ∃ written dropped : List SpanRecord,
      w'.eventKeys = w.eventKeys ++ written.map SpanRecord.eventKey ∧
      (∀ r ∈ dropped, r.eventKey ∈ w'.eventKeys) ∧
      (records : Multiset SpanRecord) = ↑turn.left + ↑(written ++ dropped) := by
  obtain ⟨dropped, hdropped, hsplit⟩ : ∃ dropped : List SpanRecord,
      (∀ r ∈ dropped, r.eventKey ∈ w.eventKeys) ∧ (records : Multiset SpanRecord) =
        ↑(filterDuplicateRecords w.db records) + (dropped : Multiset SpanRecord) := by
    refine ⟨records.filter fun r => w.db.hasEventKey r.eventKey, ?_, ?_⟩
    · intro r hr
      exact Db.mem_eventKeys.2 (of_decide_eq_true (List.mem_filter.1 hr).2)
    · rw [filterDuplicateRecords_eq w.db hvalid, Multiset.coe_add, Multiset.coe_eq_coe]
      have hperm := List.filter_append_perm (fun r => w.db.hasEventKey r.eventKey) records
      simpa using (hperm.symm.trans List.perm_append_comm)
  have hresult := World.persistTurn_result x maxSpansPerSegment w partition name fault records
  rw [h] at hresult
  dsimp only at hresult
  cases hresult with
  | unfiltered => exact ⟨[], [], by simp, by simp, by simp [Turn.left]⟩
  | finished hnone =>
    refine ⟨[], dropped, by simp, hdropped, ?_⟩
    rw [hsplit, hnone]
    rfl
  | written window rest _ _ _ _ hfresh _ hevents =>
    have hkeys : w'.eventKeys = w.eventKeys ++ window.map SpanRecord.eventKey := by
      rw [World.eventKeys, hevents, List.map_append, map_eventKey_rowEvents]
      rfl
    refine ⟨window, dropped, hkeys, fun r hr => ?_, ?_⟩
    · rw [hkeys]
      exact List.mem_append_left _ (hdropped r hr)
    · rw [hsplit, hfresh, ← Multiset.coe_add, ← Multiset.coe_add, ← add_assoc,
        add_comm (window : Multiset SpanRecord)]
      rfl
  | kept window _ db _ _ _ hdb =>
    have hkeys : w'.eventKeys = w.eventKeys := by
      rw [World.eventKeys, hdb]
      rfl
    exact ⟨[], dropped, by simpa using hkeys, fun r hr => hkeys ▸ hdropped r hr, hsplit⟩
  | failed window _ db _ _ _ hdb =>
    have hkeys : w'.eventKeys = w.eventKeys := by
      rw [World.eventKeys, hdb]
      rfl
    exact ⟨[], dropped, by simpa using hkeys, fun r hr => hkeys ▸ hdropped r hr, hsplit⟩

/-- What a turn leaves is part of what it got, and the rest is committed. -/
theorem World.persistTurn_left (hvalid : ∀ r ∈ records, recordPartitionKey r = partition)
    (h : w.persistTurn x maxSpansPerSegment partition name fault records = (w', turn)) :
    w.eventKeys ⊆ w'.eventKeys ∧ turn.left ⊆ records ∧
      ∀ r ∈ records, r ∈ turn.left ∨ r.eventKey ∈ w'.eventKeys := by
  obtain ⟨written, dropped, hkeys, hdropped, hsplit⟩ := World.persistTurn_settles hvalid h
  have hmem : ∀ r, r ∈ records ↔ r ∈ turn.left ∨ r ∈ written ∨ r ∈ dropped := by
    intro r
    rw [← Multiset.mem_coe, hsplit, Multiset.mem_add, Multiset.mem_coe, Multiset.mem_coe,
      List.mem_append]
  refine ⟨?_, fun r hr => (hmem r).2 (.inl hr), ?_⟩
  · rw [hkeys]
    exact List.subset_append_left _ _
  · intro r hr
    rcases (hmem r).1 hr with hr | hr | hr
    · exact .inl hr
    · rw [hkeys]
      exact .inr (List.mem_append_right _ (List.mem_map_of_mem hr))
    · exact .inr (hdropped r hr)

namespace Ledger

variable {start : World} {l l' : Ledger}

/-- The records that were ever put into a partition. -/
def putRecords (l : Ledger) (p : PartitionKey) : List SpanRecord :=
  (l.puts.filter (·.partition = p)).flatMap Put.records

def batchesOf (flying : Multiset FlushBatch) (p : PartitionKey) : Nat :=
  (flying.filter (·.partition = p)).card

/-- The records of a partition that batches in flight hold. -/
def heldBy (flying : Multiset FlushBatch) (p : PartitionKey) : Multiset SpanRecord :=
  ((flying.filter (·.partition = p)).map fun batch => (batch.records : Multiset SpanRecord)).sum

/-- Where the records of a ledger are that started with a given store. -/
structure Conserved (start : World) (l : Ledger) : Prop where
  flag : ∀ p, batchesOf l.flying p = if (l.pending.buffer p).flushing then 1 else 0
  buffer_valid : ∀ p, ∀ r ∈ (l.pending.buffer p).records, recordPartitionKey r = p
  flying_valid : ∀ batch ∈ l.flying, ∀ r ∈ batch.records, recordPartitionKey r = batch.partition
  settled : ∃ written dropped : List SpanRecord,
    l.world.eventKeys = start.eventKeys ++ written.map SpanRecord.eventKey ∧
    (∀ r ∈ dropped, r.eventKey ∈ l.world.eventKeys) ∧
    ∀ p, (l.putRecords p : Multiset SpanRecord) = ↑(l.pending.buffer p).records + heldBy l.flying p +
      ↑((written ++ dropped).filter (recordPartitionKey · = p))

theorem Conserved.initial (start : World) :
    Conserved start ⟨start, (∅ : PendingState), 0, 0, 0, [], []⟩ := by
  have hbuffer : ∀ p, PendingState.buffer (∅ : PendingState) p = {} := by
    intro p
    simp [PendingState.buffer]
  refine ⟨?_, ?_, ?_, [], [], ?_, ?_, ?_⟩
  · simp [hbuffer, batchesOf]
  · simp [hbuffer]
  · simp
  · simp
  · simp
  · simp [hbuffer, putRecords, heldBy]

theorem batchesOf_cons (batch : FlushBatch) (rest : Multiset FlushBatch) (p : PartitionKey) :
    batchesOf (batch ::ₘ rest) p = (if batch.partition = p then 1 else 0) + batchesOf rest p := by
  rw [batchesOf, Multiset.filter_cons, Multiset.card_add]
  split <;> rfl

theorem heldBy_cons (batch : FlushBatch) (rest : Multiset FlushBatch) (p : PartitionKey) :
    heldBy (batch ::ₘ rest) p =
      (if batch.partition = p then (batch.records : Multiset SpanRecord) else 0) + heldBy rest p := by
  rw [heldBy, Multiset.filter_cons, Multiset.map_add, Multiset.sum_add]
  split
  · rw [Multiset.map_singleton, Multiset.sum_singleton]
    rfl
  · rfl

theorem putRecords_append (puts : List Put) (put : Put) (p : PartitionKey) :
    (((puts ++ [put]).filter (·.partition = p)).flatMap Put.records : Multiset SpanRecord) =
      ↑((puts.filter (·.partition = p)).flatMap Put.records) +
        if put.partition = p then (put.records : Multiset SpanRecord) else 0 := by
  rw [List.filter_append, List.flatMap_append, ← Multiset.coe_add, List.filter_singleton]
  by_cases hp : put.partition = p <;> simp [hp]

/-- The records of a partition are either all there or none is. -/
theorem filter_partition {records : List SpanRecord}
    (hvalid : ∀ r ∈ records, recordPartitionKey r = partition) (p : PartitionKey) :
    records.filter (recordPartitionKey · = p) = if partition = p then records else [] := by
  split
  next h =>
    refine List.filter_eq_self.2 ?_
    intro r hr
    exact decide_eq_true ((hvalid r hr).trans h)
  next h =>
    refine List.filter_eq_nil_iff.2 ?_
    intro r hr hp
    exact h ((hvalid r hr).symm.trans (of_decide_eq_true hp))

theorem Conserved.put (hl : Conserved start l)
    (hvalid : ∀ r ∈ records, recordPartitionKey r = partition) (waiter next : Nat) :
    Conserved start { l with
      pending := l.pending.enqueue ⟨waiter, partition, records⟩
      nextWaiter := next
      puts := l.puts ++ [⟨waiter, partition, records⟩] } := by
  have hbuffer := l.pending.buffer_enqueue ⟨waiter, partition, records⟩
  obtain ⟨written, dropped, hkeys, hdropped, hsum⟩ := hl.settled
  refine ⟨?_, ?_, hl.flying_valid, written, dropped, hkeys, hdropped, ?_⟩
  · intro p
    rw [hl.flag p, hbuffer p]
    by_cases h : partition = p
    · rw [if_pos h]
    · rw [if_neg h]
  · intro p
    rw [hbuffer p]
    split
    next h =>
      intro r hr
      rcases List.mem_append.1 hr with hr | hr
      · exact hl.buffer_valid p r hr
      · exact (hvalid r hr).trans h
    next => exact hl.buffer_valid p
  · intro p
    have hp := hsum p
    unfold putRecords at hp ⊢
    rw [putRecords_append, hp, hbuffer p]
    split
    next h =>
      rw [← Multiset.coe_add]
      abel
    next h => rw [add_zero]

theorem Conserved.take (hl : Conserved start l)
    (hselect : l.pending.select = (pending, .batch batch)) :
    Conserved start { l with pending, flying := batch ::ₘ l.flying } := by
  obtain ⟨hrecords, -, hidle, -, hbuffer⟩ := PendingState.select_batch hselect
  obtain ⟨written, dropped, hkeys, hdropped, hsum⟩ := hl.settled
  refine ⟨?_, ?_, ?_, written, dropped, hkeys, hdropped, ?_⟩
  · intro p
    rw [batchesOf_cons, hl.flag p, hbuffer p]
    split
    next h =>
      subst h
      rw [hidle]
      rfl
    next => rw [Nat.zero_add]
  · intro p
    rw [hbuffer p]
    split
    · simp
    · exact hl.buffer_valid p
  · intro b hb r hr
    rcases Multiset.mem_cons.1 hb with rfl | hb
    · rw [hrecords] at hr
      exact hl.buffer_valid _ r hr
    · exact hl.flying_valid b hb r hr
  · intro p
    refine (hsum p).trans ?_
    dsimp only
    rw [heldBy_cons, hbuffer p]
    split
    next h =>
      subst h
      rw [hrecords, ← add_assoc, Multiset.coe_nil, zero_add]
    next => rw [zero_add]

theorem Conserved.turn {turn : Turn} (hl : Conserved start l) (hflying : l.flying = batch ::ₘ rest)
    (hturn : l.world.persistTurn x maxSpansPerSegment batch.partition name fault batch.records =
      (w, turn)) :
    Conserved start { l with
      world := w
      flying := { batch with records := turn.left } ::ₘ rest } := by
  have hbatch : batch ∈ l.flying := by
    rw [hflying]
    exact Multiset.mem_cons_self batch rest
  have hvalid := hl.flying_valid batch hbatch
  obtain ⟨newlyWritten, newlyDropped, hnew, hfound, hsplit⟩ :=
    World.persistTurn_settles hvalid hturn
  have hmem : ∀ r, r ∈ batch.records ↔ r ∈ turn.left ∨ r ∈ newlyWritten ++ newlyDropped := by
    intro r
    rw [← Multiset.mem_coe, hsplit, Multiset.mem_add, Multiset.mem_coe, Multiset.mem_coe]
  obtain ⟨written, dropped, hkeys, hdropped, hsum⟩ := hl.settled
  refine ⟨?_, hl.buffer_valid, ?_, written ++ newlyWritten, dropped ++ newlyDropped, ?_, ?_, ?_⟩
  · intro p
    rw [← hl.flag p, hflying, batchesOf_cons, batchesOf_cons]
  · intro b hb r hr
    rcases Multiset.mem_cons.1 hb with rfl | hb
    · exact hvalid r ((hmem r).2 (.inl hr))
    · refine hl.flying_valid b ?_ r hr
      rw [hflying]
      exact Multiset.mem_cons_of_mem hb
  · rw [hnew, hkeys, List.map_append, List.append_assoc]
  · intro r hr
    rcases List.mem_append.1 hr with hr | hr
    · rw [hnew]
      exact List.mem_append_left _ (hdropped r hr)
    · exact hfound r hr
  · intro p
    have hp := hsum p
    have hpart := filter_partition (fun r hr => hvalid r ((hmem r).2 (.inr hr))) p
    rw [hflying, heldBy_cons] at hp
    refine hp.trans ?_
    dsimp only
    rw [heldBy_cons]
    have hregroup : (((written ++ newlyWritten) ++ (dropped ++ newlyDropped)).filter
        (recordPartitionKey · = p) : Multiset SpanRecord) =
        ↑((written ++ dropped).filter (recordPartitionKey · = p)) +
          ↑((newlyWritten ++ newlyDropped).filter (recordPartitionKey · = p)) := by
      simp only [List.filter_append, ← Multiset.coe_add]
      abel
    rw [hregroup, hpart]
    dsimp only
    split
    next =>
      rw [hsplit]
      abel
    next =>
      rw [Multiset.coe_nil]
      abel

theorem Conserved.idle (hl : Conserved start l) (hflying : l.flying = batch ::ₘ rest)
    (p : PartitionKey) :
    batchesOf rest p =
      if batch.partition = p then 0 else if (l.pending.buffer p).flushing then 1 else 0 := by
  have hflag := hl.flag p
  rw [hflying, batchesOf_cons] at hflag
  split
  next h =>
    rw [if_pos h] at hflag
    split at hflag <;> omega
  next h =>
    rw [if_neg h, Nat.zero_add] at hflag
    exact hflag

theorem Conserved.release (hl : Conserved start l)
    (hflying : l.flying = ⟨partition, [], waiters⟩ ::ₘ rest)
    (notices : Multiset (List Nat × WaiterFlushResult)) :
    Conserved start { l with
      pending := l.pending.release partition
      flying := rest
      notices } := by
  have hbuffer := l.pending.buffer_release partition
  obtain ⟨written, dropped, hkeys, hdropped, hsum⟩ := hl.settled
  refine ⟨?_, ?_, ?_, written, dropped, hkeys, hdropped, ?_⟩
  · intro p
    rw [hl.idle hflying p, hbuffer p]
    split <;> rfl
  · intro p r hr
    rw [hbuffer p] at hr
    refine hl.buffer_valid p r ?_
    split at hr <;> exact hr
  · intro b hb
    refine hl.flying_valid b ?_
    rw [hflying]
    exact Multiset.mem_cons_of_mem hb
  · intro p
    have hp := hsum p
    rw [hflying, heldBy_cons] at hp
    refine hp.trans ?_
    dsimp only
    rw [hbuffer p, Multiset.coe_nil, ite_self, zero_add]
    split <;> rfl

theorem Conserved.restore (hl : Conserved start l) (hflying : l.flying = batch ::ₘ rest)
    (notices : Multiset (List Nat × WaiterFlushResult)) :
    Conserved start { l with
      pending := (l.pending.restore batch).1
      flying := rest
      notices } := by
  have hbuffer := l.pending.buffer_restore batch
  obtain ⟨written, dropped, hkeys, hdropped, hsum⟩ := hl.settled
  refine ⟨?_, ?_, ?_, written, dropped, hkeys, hdropped, ?_⟩
  · intro p
    rw [hl.idle hflying p, hbuffer p]
    split <;> rfl
  · intro p
    rw [hbuffer p]
    split
    next h =>
      intro r hr
      rcases List.mem_append.1 hr with hr | hr
      · refine (hl.flying_valid batch ?_ r hr).trans h
        rw [hflying]
        exact Multiset.mem_cons_self batch rest
      · exact hl.buffer_valid p r hr
    next => exact hl.buffer_valid p
  · intro b hb
    refine hl.flying_valid b ?_
    rw [hflying]
    exact Multiset.mem_cons_of_mem hb
  · intro p
    have hp := hsum p
    rw [hflying, heldBy_cons] at hp
    refine hp.trans ?_
    dsimp only
    rw [hbuffer p]
    split
    next =>
      rw [← Multiset.coe_add]
      abel
    next => rw [zero_add]

theorem Conserved.step (hl : Conserved start l) (h : Step x config l l') : Conserved start l' := by
  cases h with
  | put partition records hvalid => exact hl.put hvalid _ _
  | take batch pending hselect => exact hl.take hselect
  | turn batch rest hflying name fault w turn hturn => exact hl.turn hflying hturn
  | release partition waiters receipts rest hflying => exact hl.release hflying _
  | restore batch rest hflying => exact hl.restore hflying _
  | notify => exact ⟨hl.flag, hl.buffer_valid, hl.flying_valid, hl.settled⟩

end Ledger
end KevinDb
