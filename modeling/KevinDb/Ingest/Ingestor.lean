import KevinDb.Ingest.Waiters
import KevinDb.Lib.Transition

namespace KevinDb
set_option autoImplicit true
open Std

variable {x : Externals} {config : IngestConfig} {start w : World} {s s' : Ingestor} {task : Task}

def Ingestor.ledger (s : Ingestor) : Ledger where
  world := s.world
  pending := s.pending
  flying := ↑(s.tasks.filterMap Task.batch)
  notices := ↑(s.tasks.filterMap Task.notice)
  nextWaiter := s.nextWaiter
  answers := s.answers
  puts := s.puts

/-- An element that a future may hold, put to what the others hold. -/
def andHeld (held : Option α) (others : Multiset α) : Multiset α :=
  match held with
  | none => others
  | some a => a ::ₘ others

theorem coe_filterMap_cons (f : α → Option β) (a : α) (l : List α) :
    ((a :: l).filterMap f : Multiset β) = andHeld (f a) ↑(l.filterMap f) := by
  rw [List.filterMap_cons]
  cases f a <;> rfl

theorem andHeld_comm (held held' : Option α) (others : Multiset α) :
    andHeld held (andHeld held' others) = andHeld held' (andHeld held others) := by
  cases held with
  | none => rfl
  | some a =>
    cases held' with
    | none => rfl
    | some b => exact Multiset.cons_swap a b others

/-- What one element of a list contributes, and what a new one in its place does. -/
theorem filterMap_set {l : List α} (f : α → Option β) (h : l[i]? = some a) :
    ∃ others : Multiset β, (l.filterMap f : Multiset β) = andHeld (f a) others ∧
      ∀ b, ((l.set i b).filterMap f : Multiset β) = andHeld (f b) others := by
  induction l generalizing i with
  | nil => cases h
  | cons c l ih =>
    cases i with
    | zero =>
      cases h
      exact ⟨_, coe_filterMap_cons f a l, fun b => coe_filterMap_cons f b l⟩
    | succ i =>
      obtain ⟨others, hothers, hset⟩ := ih h
      refine ⟨andHeld (f c) others, ?_, ?_⟩
      · rw [coe_filterMap_cons, hothers, andHeld_comm]
      · intro b
        rw [List.set_cons_succ, coe_filterMap_cons, hset b, andHeld_comm]

theorem Task.batch_wake (task : Task) : task.wake.batch = task.batch := by
  unfold Task.wake
  split <;> rfl

theorem Task.notice_wake (task : Task) : task.wake.notice = task.notice := by
  unfold Task.wake
  split <;> rfl

theorem Task.notice_of_droppable (h : task.droppable = true) : task.notice = none := by
  cases task with
  | flushing caller receipts stage =>
    cases stage with
    | notifying => cases h
    | _ => rfl
  | _ => rfl

/-- The future that is dropped holds a batch. -/
def Ingestor.Loses (s : Ingestor) : IngestAction → Prop
  | .drop i => (s.tasks[i]?.bind Task.batch).isSome
  | _ => False

instance : DecidablePred s.Loses
  | .drop i => inferInstanceAs (Decidable ((s.tasks[i]?.bind Task.batch).isSome))
  | .callFlush | .callIngest _ | .poll _ _ _ | .timeout _ => inferInstanceAs (Decidable False)

/-- A future apart from the others: what it holds, and what a new one in its place does. -/
theorem Ingestor.ledger_setTask (h : s.tasks[i]? = some task) :
    ∃ flying notices,
      s.ledger.flying = andHeld task.batch flying ∧
      s.ledger.notices = andHeld task.notice notices ∧
      ∀ t : Ingestor, t.tasks = s.tasks → ∀ new : Task, (t.setTask i new).ledger =
        { t.ledger with
          flying := andHeld new.batch flying
          notices := andHeld new.notice notices } := by
  obtain ⟨flying, hflying, hbatch⟩ := filterMap_set Task.batch h
  obtain ⟨notices, hnotices, hnotice⟩ := filterMap_set Task.notice h
  refine ⟨flying, notices, hflying, hnotices, ?_⟩
  intro t ht new
  unfold Ingestor.ledger Ingestor.setTask
  dsimp only
  rw [ht, hbatch new, hnotice new]

theorem FlushCaller.returned_batch (caller : FlushCaller) (result : Option (List FlushReceipt)) :
    (caller.returned result).batch = none ∧ (caller.returned result).notice = none := by
  cases caller with
  | client => exact ⟨rfl, rfl⟩
  | ingest waiters again =>
    cases result with
    | none => exact ⟨rfl, rfl⟩
    | some => cases again <;> exact ⟨rfl, rfl⟩

theorem groupRecordsByPartition_valid :
    ∀ group ∈ (groupRecordsByPartition records).toList, ∀ r ∈ group.2,
      recordPartitionKey r = group.1 := by
  intro group hgroup r hr
  rw [mem_groupRecordsByPartition hgroup] at hr
  exact of_decide_eq_true (List.mem_filter.1 hr).2

theorem Ledger.Step.puts (l : Ledger) (groups : List (PartitionKey × List SpanRecord))
    (hgroups : ∀ group ∈ groups, ∀ r ∈ group.2, recordPartitionKey r = group.1) :
    Relation.ReflTransGen (Ledger.Step x config) l { l with
      pending := (l.pending.enqueueAll config (putsOf l.nextWaiter groups)).1
      nextWaiter := l.nextWaiter + (putsOf l.nextWaiter groups).length
      puts := l.puts ++ putsOf l.nextWaiter groups } := by
  induction groups generalizing l with
  | nil =>
    have hsame : { l with
        pending := (l.pending.enqueueAll config (putsOf l.nextWaiter [])).1
        nextWaiter := l.nextWaiter + (putsOf l.nextWaiter []).length
        puts := l.puts ++ putsOf l.nextWaiter [] } = l := by
      simp [putsOf, PendingState.enqueueAll]
    rw [hsame]
  | cons group groups ih =>
    obtain ⟨partition, records⟩ := group
    refine .head (.put partition records (hgroups _ List.mem_cons_self)) ?_
    have hrest := ih { l with
      pending := l.pending.enqueue ⟨l.nextWaiter, partition, records⟩
      nextWaiter := l.nextWaiter + 1
      puts := l.puts ++ [⟨l.nextWaiter, partition, records⟩] }
      fun group hgroup => hgroups group (List.mem_cons_of_mem _ hgroup)
    convert hrest using 2
    · rfl
    · rw [putsOf, List.length_cons, Nat.add_assoc, Nat.add_comm 1]
    · rw [putsOf, List.append_assoc]
      rfl

variable {i : Nat} {name : SegmentName} {fault : Option TurnFault}

/-- A future that keeps what it holds leaves the ledger as it is. -/
theorem Ingestor.quiet_refines (h : s.tasks[i]? = some task) (new : Task)
    (hbatch : new.batch = task.batch) (hnotice : new.notice = task.notice) :
    Relation.ReflTransGen (Ledger.Step x config) s.ledger (s.setTask i new).ledger := by
  obtain ⟨flying, notices, hflying, hnotices, hset⟩ := Ingestor.ledger_setTask h
  rw [hset s rfl new, hbatch, hnotice, ← hflying, ← hnotices]

theorem Ingestor.ledger_wake (s : Ingestor) :
    Ingestor.ledger { s with tasks := s.tasks.map Task.wake } = s.ledger := by
  have hbatch : Task.batch ∘ Task.wake = Task.batch := funext Task.batch_wake
  have hnotice : Task.notice ∘ Task.wake = Task.notice := funext Task.notice_wake
  unfold Ingestor.ledger
  dsimp only
  rw [List.filterMap_map, List.filterMap_map, hbatch, hnotice]

theorem Ingestor.ledger_spawn (s : Ingestor) (task : Task) (hbatch : task.batch = none)
    (hnotice : task.notice = none) :
    Ingestor.ledger { s with tasks := s.tasks ++ [task] } = s.ledger := by
  unfold Ingestor.ledger
  dsimp only
  rw [List.filterMap_append, List.filterMap_append, List.filterMap_cons_none hbatch,
    List.filterMap_cons_none hnotice, List.filterMap_nil, List.filterMap_nil, List.append_nil,
    List.append_nil]

theorem Ingestor.pollFlush_refines {caller : FlushCaller} {receipts : List FlushReceipt}
    {stage : FlushStage} (htask : s.tasks[i]? = some (.flushing caller receipts stage))
    (h : s.pollFlush x config i name fault caller receipts stage = some s') :
    Relation.ReflTransGen (Ledger.Step x config) s.ledger s'.ledger := by
  obtain ⟨flying, notices, hflying, hnotices, hset⟩ := Ingestor.ledger_setTask htask
  cases stage with
  | selecting =>
    rw [Ingestor.pollFlush] at h
    split at h
    next pending batch hselect =>
      cases h
      rw [hset { s with pending } rfl]
      cases hflying
      cases hnotices
      exact .single (Ledger.Step.take (l := s.ledger) batch pending hselect)
    next =>
      cases h
      exact Ingestor.quiet_refines htask _ rfl rfl
    next =>
      cases h
      obtain ⟨hbatch, hnotice⟩ := caller.returned_batch (some receipts)
      exact Ingestor.quiet_refines htask _ hbatch hnotice
  | waiting woken =>
    rw [Ingestor.pollFlush] at h
    split at h
    · cases h
      exact Ingestor.quiet_refines htask _ rfl rfl
    · cases h
  | persisting batch written =>
    rw [Ingestor.pollFlush] at h
    generalize hturn : s.world.persistTurn x config.maxSpansPerSegment batch.partition name fault
      batch.records = result at h
    obtain ⟨w, turn⟩ := result
    cases h
    have hstep : Ledger.Step x config s.ledger { s.ledger with
        world := w
        flying := { batch with records := turn.left } ::ₘ flying } :=
      Ledger.Step.turn batch flying hflying name fault w turn hturn
    cases turn with
    | finished =>
      rw [hset { s with world := w } rfl]
      cases hnotices
      exact .single hstep
    | continued receipt records =>
      rw [hset { s with world := w } rfl]
      cases hnotices
      exact .single hstep
    | failed records =>
      rw [hset { s with world := w } rfl]
      cases hnotices
      exact .single hstep
  | persisted partition waiters written =>
    rw [Ingestor.pollFlush] at h
    cases h
    rw [hset { s with pending := s.pending.release partition } rfl]
    cases hnotices
    exact .single (Ledger.Step.release (l := s.ledger) partition waiters written flying hflying)
  | failed batch =>
    rw [Ingestor.pollFlush] at h
    have hstep : Ledger.Step x config s.ledger { s.ledger with
        pending := (s.pending.restore batch).1
        flying := flying
        notices := ((s.pending.restore batch).2, .err) ::ₘ s.ledger.notices } :=
      Ledger.Step.restore batch flying hflying
    generalize s.pending.restore batch = result at h hstep
    obtain ⟨pending, waiters⟩ := result
    cases h
    rw [hset { s with pending } rfl]
    cases hnotices
    exact .single hstep
  | notifying waiters result =>
    obtain ⟨next, hbatch, hnotice, rfl⟩ : ∃ next : Task, next.batch = none ∧ next.notice = none ∧
        s' = { s with
          answers := s.answers ++ waiters.map fun waiter => (waiter, result)
          tasks := (s.tasks.map Task.wake).set i next } := by
      cases result with
      | ok written => exact ⟨_, rfl, rfl, (Option.some.inj h).symm⟩
      | err =>
        exact ⟨_, (caller.returned_batch none).1, (caller.returned_batch none).2,
          (Option.some.inj h).symm⟩
    have hwoken : (s.tasks.map Task.wake)[i]? =
        some (.flushing caller receipts (.notifying waiters result)) := by
      rw [List.getElem?_map, htask]
      rfl
    obtain ⟨flying', notices', hflying', hnotices', hset'⟩ :=
      Ingestor.ledger_setTask (s := { s with tasks := s.tasks.map Task.wake }) hwoken
    rw [Ingestor.ledger_wake] at hflying' hnotices'
    have hnext := hset' { s with
      answers := s.answers ++ waiters.map fun waiter => (waiter, result)
      tasks := s.tasks.map Task.wake } rfl next
    rw [hbatch, hnotice] at hnext
    cases hflying'
    refine .single ?_
    change Ledger.Step x config s.ledger (Ingestor.setTask { s with
      answers := s.answers ++ waiters.map fun waiter => (waiter, result)
      tasks := s.tasks.map Task.wake } i next).ledger
    rw [hnext]
    exact Ledger.Step.notify (l := s.ledger) waiters result notices' hnotices'

theorem Ingestor.poll_refines (htask : s.tasks[i]? = some task)
    (h : s.poll x config i name fault task = some s') :
    Relation.ReflTransGen (Ledger.Step x config) s.ledger s'.ledger := by
  cases task with
  | entering records =>
    rw [Ingestor.poll] at h
    split at h
    · cases h
      exact Ingestor.quiet_refines htask _ rfl rfl
    · obtain ⟨flying, notices, hflying, hnotices, hset⟩ := Ingestor.ledger_setTask htask
      have hsteps : Relation.ReflTransGen (Ledger.Step x config) s.ledger { s.ledger with
          pending := (s.pending.enqueueAll config
            (putsOf s.nextWaiter (groupRecordsByPartition records).toList)).1
          nextWaiter := s.nextWaiter +
            (putsOf s.nextWaiter (groupRecordsByPartition records).toList).length
          puts := s.puts ++ putsOf s.nextWaiter (groupRecordsByPartition records).toList } :=
        Ledger.Step.puts s.ledger _ groupRecordsByPartition_valid
      dsimp only at h
      generalize putsOf s.nextWaiter (groupRecordsByPartition records).toList = puts at h hsteps
      generalize s.pending.enqueueAll config puts = result at h hsteps
      obtain ⟨pending, full⟩ := result
      cases h
      rw [hset { s with
        pending
        nextWaiter := s.nextWaiter + puts.length
        puts := s.puts ++ puts } rfl]
      cases hflying
      cases hnotices
      cases full <;> exact hsteps
  | sleeping waiters =>
    obtain ⟨result, -, rfl⟩ := Option.map_eq_some_iff.1 h
    exact Ingestor.quiet_refines htask _ rfl rfl
  | awaiting waiters =>
    obtain ⟨result, -, rfl⟩ := Option.map_eq_some_iff.1 h
    exact Ingestor.quiet_refines htask _ rfl rfl
  | flushing caller receipts stage => exact Ingestor.pollFlush_refines htask h
  | finished => cases h
  | dropped => cases h

/-- Every step that does not drop a batch moves records and waiters as the ledger does. -/
theorem Ingestor.step_refines (h : s.step x config action = some s') (hkeep : ¬ s.Loses action) :
    Relation.ReflTransGen (Ledger.Step x config) s.ledger s'.ledger := by
  cases action with
  | callFlush =>
    cases h
    rw [Ingestor.ledger_spawn s _ rfl rfl]
  | callIngest records =>
    cases h
    rw [Ingestor.ledger_spawn s _ rfl rfl]
  | poll i name fault =>
    obtain ⟨task, htask, hpoll⟩ := Option.bind_eq_some_iff.1 h
    exact Ingestor.poll_refines htask hpoll
  | timeout i =>
    rw [Ingestor.step] at h
    split at h
    next waiters htask =>
      cases h
      exact Ingestor.quiet_refines htask _ rfl rfl
    next => cases h
  | drop i =>
    rw [Ingestor.step] at h
    split at h
    next task htask =>
      split at h
      next hdroppable =>
        cases h
        rw [Ingestor.Loses, htask, Option.bind_some, Option.not_isSome_iff_eq_none] at hkeep
        refine Ingestor.quiet_refines htask _ hkeep.symm ?_
        exact (Task.notice_of_droppable hdroppable).symm
      next => cases h
    next => cases h

/-- Both invariants hold in every state of a run that drops no batch. -/
theorem Ingestor.run_invariants
    (hrun : Transition.run (Ingestor.step x config) (Ingestor.initial start) actions = some s)
    (hkeep : Transition.Meets (Ingestor.step x config) (fun s action => ¬ s.Loses action)
      (Ingestor.initial start) actions) :
    Ledger.Conserved start s.ledger ∧ s.ledger.Acknowledged := by
  refine Transition.run_invariant
    (fun s : Ingestor => Ledger.Conserved start s.ledger ∧ s.ledger.Acknowledged) ?_ ?_ hkeep hrun
  · rintro s action s' ⟨hc, ha⟩ hkeep hstep
    exact Ledger.steps hc ha (Ingestor.step_refines hstep hkeep)
  · exact ⟨.initial start, .initial start⟩

theorem Ingestor.meets_of_not_mem (hdrop : ∀ i, IngestAction.drop i ∉ actions) (s : Ingestor) :
    Transition.Meets (Ingestor.step x config) (fun s action => ¬ s.Loses action) s actions := by
  induction actions generalizing s with
  | nil => trivial
  | cons action actions ih =>
    refine ⟨?_, fun t _ => ih (fun i h => hdrop i (List.mem_cons_of_mem _ h)) t⟩
    cases action with
    | drop i => exact absurd List.mem_cons_self (hdrop i)
    | _ => exact id

/-- A failed batch goes back in front of its buffer, and the waiters of both are told. -/
theorem Ingestor.poll_failed {caller : FlushCaller} {receipts : List FlushReceipt}
    {batch : FlushBatch}
    (htask : s.tasks[i]? = some (.flushing caller receipts (.failed batch)))
    (h : s.step x config (.poll i name fault) = some s') :
    (∀ p, s'.pending.buffer p = if batch.partition = p then
        ⟨batch.records ++ (s.pending.buffer p).records, [], false⟩ else s.pending.buffer p) ∧
      s'.tasks[i]? = some (.flushing caller receipts
        (.notifying (batch.waiters ++ (s.pending.buffer batch.partition).waiters) .err)) := by
  have hi : i < s.tasks.length := (List.getElem?_eq_some_iff.1 htask).1
  rw [Ingestor.step, htask, Option.bind_some, Ingestor.poll, Ingestor.pollFlush] at h
  cases h
  exact ⟨s.pending.buffer_restore batch, List.getElem?_set_self hi⟩

/-- Every record that was put into a buffer is pending, in a batch, written, or dropped for a
committed key. A partition has at most one batch, an answer without error is for committed
records, and a failed batch goes back. -/
theorem ingest_buffer_conserved (x : Externals) (config : IngestConfig) (start : World)
    (actions : List IngestAction) (s : Ingestor)
    (hrun : Transition.run (Ingestor.step x config) (Ingestor.initial start) actions = some s)
    (hdrop : ∀ i, IngestAction.drop i ∉ actions) :
    (∃ written dropped : List SpanRecord,
      s.world.eventKeys = start.eventKeys ++ written.map SpanRecord.eventKey ∧
      (∀ r ∈ dropped, r.eventKey ∈ s.world.eventKeys) ∧
      ∀ p, (s.ledger.putRecords p : Multiset SpanRecord) =
        ↑(s.pending.buffer p).records + Ledger.heldBy s.ledger.flying p +
          ↑((written ++ dropped).filter (recordPartitionKey · = p))) ∧
    (∀ p, Ledger.batchesOf s.ledger.flying p ≤ 1) ∧
    (∀ waiter receipts, (waiter, .ok receipts) ∈ s.answers →
      ∀ put ∈ s.puts, put.waiter = waiter → ∀ r ∈ put.records, r.eventKey ∈ s.world.eventKeys) ∧
    (∀ i name fault caller receipts batch s',
      s.tasks[i]? = some (.flushing caller receipts (.failed batch)) →
      s.step x config (.poll i name fault) = some s' →
      (∀ p, s'.pending.buffer p = if batch.partition = p then
          ⟨batch.records ++ (s.pending.buffer p).records, [], false⟩ else s.pending.buffer p) ∧
        s'.tasks[i]? = some (.flushing caller receipts
          (.notifying (batch.waiters ++ (s.pending.buffer batch.partition).waiters) .err))) := by
  obtain ⟨hc, ha⟩ := Ingestor.run_invariants hrun (Ingestor.meets_of_not_mem hdrop _)
  refine ⟨hc.settled, ?_, ?_, fun _ _ _ _ _ _ _ => Ingestor.poll_failed⟩
  · intro p
    rw [hc.flag p]
    split
    · exact le_rfl
    · exact Nat.zero_le 1
  · intro waiter receipts hanswer put hput hwaiter r hr
    rcases (ha.answers waiter receipts hanswer).2 put hput hwaiter r hr with hnone | hkey
    · cases hnone
    · exact hkey

/-- Two clients: the first one's batch fails, the second one's flush writes both records. -/
def sampleIngest : List IngestAction :=
  [.callIngest [.sample "t" "s" "a" .«end» 10 30], .poll 0 ⟨1, 1⟩ none, .poll 0 ⟨1, 1⟩ none,
    .poll 0 ⟨1, 1⟩ (some .filter), .poll 0 ⟨1, 1⟩ none, .poll 0 ⟨1, 1⟩ none,
    .callIngest [.sample "t" "u" "b" .«end» 10 30], .poll 1 ⟨2, 2⟩ none, .poll 1 ⟨2, 2⟩ none,
    .poll 1 ⟨2, 2⟩ none, .poll 1 ⟨2, 2⟩ none, .poll 1 ⟨2, 2⟩ none, .poll 1 ⟨2, 2⟩ none]

theorem ingest_buffer_conserved_sample :
    ∃ s, Transition.run (Ingestor.step .sample ⟨2, 0⟩) (Ingestor.initial .empty) sampleIngest =
        some s ∧
      (0, .err) ∈ s.answers ∧ (∃ receipts, (1, .ok receipts) ∈ s.answers) ∧
      ∀ put ∈ s.puts, put.waiter = 1 → ∀ r ∈ put.records, r.eventKey ∈ s.world.eventKeys := by
  have hrun : (Transition.run (Ingestor.step .sample ⟨2, 0⟩) (Ingestor.initial .empty)
      sampleIngest).map Ingestor.answers =
      some [(0, .err), (1, .ok [⟨"projects/p/time-buckets/0/trace-segments/2-2-t.vortex", 2⟩])] := by
    decide +kernel
  obtain ⟨s, hs, hanswers⟩ := Option.map_eq_some_iff.1 hrun
  obtain ⟨-, -, hacknowledged, -⟩ := ingest_buffer_conserved .sample ⟨2, 0⟩ .empty sampleIngest s hs
    (by simp [sampleIngest])
  obtain ⟨receipts, hok⟩ : ∃ receipts, (1, .ok receipts) ∈ s.answers := by
    rw [hanswers]
    exact ⟨_, List.mem_cons_of_mem _ List.mem_cons_self⟩
  refine ⟨s, hs, ?_, ⟨receipts, hok⟩, hacknowledged 1 receipts hok⟩
  rw [hanswers]
  exact List.mem_cons_self

/-- In every run that never drops a future with a batch, a partition that is being flushed has a
future that holds its batch, and no record disappears. -/
theorem ingest_cancellation_safe (x : Externals) (config : IngestConfig) (start : World)
    (actions : List IngestAction) (s : Ingestor)
    (hrun : Transition.run (Ingestor.step x config) (Ingestor.initial start) actions = some s)
    (hkeep : Transition.Meets (Ingestor.step x config) (fun s action => ¬ s.Loses action)
      (Ingestor.initial start) actions) :
    (∀ p, (s.pending.buffer p).flushing = true →
      ∃ task ∈ s.tasks, ∃ batch, task.batch = some batch ∧ batch.partition = p) ∧
    ∃ written dropped : List SpanRecord,
      s.world.eventKeys = start.eventKeys ++ written.map SpanRecord.eventKey ∧
      (∀ r ∈ dropped, r.eventKey ∈ s.world.eventKeys) ∧
      ∀ p, (s.ledger.putRecords p : Multiset SpanRecord) =
        ↑(s.pending.buffer p).records + Ledger.heldBy s.ledger.flying p +
          ↑((written ++ dropped).filter (recordPartitionKey · = p)) := by
  obtain ⟨hc, -⟩ := Ingestor.run_invariants hrun hkeep
  refine ⟨?_, hc.settled⟩
  intro p hflushing
  have hone := hc.flag p
  rw [show s.ledger.pending = s.pending from rfl, if_pos hflushing] at hone
  have hpos : 0 < Ledger.batchesOf s.ledger.flying p := by omega
  obtain ⟨batch, hbatch⟩ := Multiset.card_pos_iff_exists_mem.1 hpos
  obtain ⟨hmem, hpartition⟩ := Multiset.mem_filter.1 hbatch
  obtain ⟨task, htask, heq⟩ := List.mem_filterMap.1 (Multiset.mem_coe.1 hmem)
  exact ⟨task, htask, batch, heq, hpartition⟩

/-- A client that leaves while its future sleeps. -/
def sampleLeave : List IngestAction :=
  [.callIngest [.sample "t" "s" "a" .«end» 10 30], .poll 0 ⟨1, 1⟩ none, .drop 0,
    .callFlush, .poll 1 ⟨1, 1⟩ none]

theorem ingest_cancellation_safe_leave :
    ∃ s, Transition.run (Ingestor.step .sample ⟨2, 5⟩) (Ingestor.initial .empty) sampleLeave =
        some s ∧
      (s.pending.buffer ⟨"p", 0⟩).flushing = true ∧
      ∃ task ∈ s.tasks, ∃ batch, task.batch = some batch ∧ batch.partition = ⟨"p", 0⟩ := by
  have hrun : (Transition.run (Ingestor.step .sample ⟨2, 5⟩) (Ingestor.initial .empty)
      sampleLeave).map (fun s => (s.pending.buffer ⟨"p", 0⟩).flushing) = some true := by
    decide +kernel
  obtain ⟨s, hs, hflushing⟩ := Option.map_eq_some_iff.1 hrun
  obtain ⟨hlive, -⟩ := ingest_cancellation_safe .sample ⟨2, 5⟩ .empty sampleLeave s hs
    (by decide +kernel)
  exact ⟨s, hs, hflushing, hlive ⟨"p", 0⟩ hflushing⟩

/-- A client that leaves while its future persists a batch: the record is nowhere any more, and
the next flush waits for good. -/
def sampleVanish : List IngestAction :=
  [.callIngest [.sample "t" "s" "a" .«end» 10 30], .poll 0 ⟨1, 1⟩ none, .poll 0 ⟨1, 1⟩ none,
    .drop 0, .callFlush, .poll 1 ⟨1, 1⟩ none]

theorem ingest_cancellation_unsafe :
    ∃ s, Transition.run (Ingestor.step .sample ⟨1, 0⟩) (Ingestor.initial .empty) sampleVanish =
        some s ∧
      (s.pending.buffer ⟨"p", 0⟩).flushing = true ∧
      (¬ ∃ task ∈ s.tasks, ∃ batch, task.batch = some batch ∧ batch.partition = ⟨"p", 0⟩) ∧
      s.ledger.putRecords ⟨"p", 0⟩ = [.sample "t" "s" "a" .«end» 10 30] ∧
      (s.pending.buffer ⟨"p", 0⟩).records = [] ∧ s.world.eventKeys = [] ∧
      ∀ name fault, s.step .sample ⟨1, 0⟩ (.poll 1 name fault) = none := by
  have hrun : (Transition.run (Ingestor.step .sample ⟨1, 0⟩) (Ingestor.initial .empty)
      sampleVanish).map (fun s => (s.pending.buffer ⟨"p", 0⟩, s.tasks,
        s.ledger.putRecords ⟨"p", 0⟩, s.world.eventKeys)) =
      some (⟨[], [], true⟩, [.dropped, .flushing .client [] (.waiting false)],
        [.sample "t" "s" "a" .«end» 10 30], []) := by
    decide +kernel
  obtain ⟨s, hs, hfacts⟩ := Option.map_eq_some_iff.1 hrun
  simp only [Prod.mk.injEq] at hfacts
  obtain ⟨hbuffer, htasks, hputs, hkeys⟩ := hfacts
  refine ⟨s, hs, ?_, ?_, hputs, ?_, hkeys, ?_⟩
  · rw [hbuffer]
  · rw [htasks]
    simp [Task.batch]
  · rw [hbuffer]
  · intro name fault
    rw [Ingestor.step, htasks]
    rfl

end KevinDb
