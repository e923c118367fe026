import KevinDb.Ingest.Ingestor

namespace KevinDb
set_option autoImplicit true
open Std

/-- A call of `persist_partition_records` that returns, whatever its turns meet. -/
inductive World.Persists (x : Externals) (maxSpansPerSegment : Nat) (partition : PartitionKey) :
    World → List SpanRecord → World → Except (List SpanRecord) (List FlushReceipt) → Prop
  | finished {w w' : World} (h : w.persistTurn x maxSpansPerSegment partition name fault records =
      (w', .finished)) : Persists x maxSpansPerSegment partition w records w' (.ok [])
  | failed {w w' : World} (h : w.persistTurn x maxSpansPerSegment partition name fault records =
      (w', .failed left)) : Persists x maxSpansPerSegment partition w records w' (.error left)
  | continued {w w₁ w' : World} (h : w.persistTurn x maxSpansPerSegment partition name fault records =
      (w₁, .continued receipt left))
      (hrest : Persists x maxSpansPerSegment partition w₁ left w' result) :
      Persists x maxSpansPerSegment partition w records w' (result.map (receipt.toList ++ ·))

/-- What a call of `flush` reads and writes. -/
structure FlushState where
  world : World
  pending : PendingState
  answers : List (Nat × WaiterFlushResult)

def Ingestor.flushState (s : Ingestor) : FlushState := ⟨s.world, s.pending, s.answers⟩

def FlushState.answer (f : FlushState) (waiters : List Nat) (result : WaiterFlushResult) :
    FlushState :=
  { f with answers := f.answers ++ waiters.map fun waiter => (waiter, result) }

/-- A flush goes on once a batch is persisted. -/
def FlushState.persisted (f : FlushState) (partition : PartitionKey) (waiters : List Nat)
    (receipts : List FlushReceipt) : FlushState :=
  { f with pending := f.pending.release partition }.answer waiters (.ok receipts)

/-- A flush ends once a batch has failed. -/
def FlushState.failed (f : FlushState) (batch : FlushBatch) : FlushState :=
  { f with pending := (f.pending.restore batch).1 }.answer (f.pending.restore batch).2 .err

/-- A whole call of `flush` that runs alone, where the given partitions can be persisted and the
others cannot. -/
inductive Flush (x : Externals) (config : IngestConfig) (succeeds : PartitionKey → Prop) :
    FlushState → FlushState → Prop
  | drained {f : FlushState} (hselect : f.pending.select = (pending, .drained)) :
      Flush x config succeeds f f
  | persisted {f f' : FlushState} {w : World}
      (hselect : f.pending.select = (pending, .batch batch))
      (hpersist : World.Persists x config.maxSpansPerSegment batch.partition f.world batch.records
        w (.ok receipts))
      (hsucceeds : succeeds batch.partition)
      (hrest : Flush x config succeeds
        (FlushState.persisted ⟨w, pending, f.answers⟩ batch.partition batch.waiters receipts) f') :
      Flush x config succeeds f f'
  | failed {f : FlushState} {w : World} (hselect : f.pending.select = (pending, .batch batch))
      (hpersist : World.Persists x config.maxSpansPerSegment batch.partition f.world batch.records
        w (.error left))
      (hfails : ¬ succeeds batch.partition) :
      Flush x config succeeds f
        (FlushState.failed ⟨w, pending, f.answers⟩ { batch with records := left })

def Task.isPersisting : Task → Bool
  | .flushing _ _ (.persisting _ _) => true
  | _ => false

variable {x : Externals} {config : IngestConfig} {w w' : World} {pending pending' : PendingState}
  {partition p q : PartitionKey} {batch : FlushBatch} {s s' : Ingestor} {f f' : FlushState}
  {succeeds : PartitionKey → Prop} {i : Nat}

/-- Whether the end of a persist call is the one that a partition is assigned. -/
def Turn.Fits (expected : Prop) : Turn → Prop
  | .finished => expected
  | .failed _ => ¬ expected
  | .continued _ _ => True

instance (expected : Prop) [Decidable expected] : ∀ turn : Turn, Decidable (turn.Fits expected)
  | .finished => inferInstanceAs (Decidable expected)
  | .failed _ => inferInstanceAs (Decidable (¬ expected))
  | .continued _ _ => .isTrue trivial

/-- The persist calls of a step of a future end as the assignment says. -/
def Ingestor.Assigned (x : Externals) (config : IngestConfig) (succeeds : PartitionKey → Prop)
    (s : Ingestor) : IngestAction → Prop
  | .poll i name fault => ∀ task ∈ s.tasks[i]?, ∀ batch ∈ task.batch,
      task.isPersisting → (s.world.persistTurn x config.maxSpansPerSegment batch.partition name
        fault batch.records).2.Fits (succeeds batch.partition)
  | _ => True

instance [DecidablePred succeeds] : DecidablePred (s.Assigned x config succeeds)
  | .poll i name fault => inferInstanceAs (Decidable (∀ task ∈ s.tasks[i]?, ∀ batch ∈ task.batch,
      task.isPersisting → (s.world.persistTurn x config.maxSpansPerSegment batch.partition name
        fault batch.records).2.Fits (succeeds batch.partition)))
  | .callFlush | .callIngest _ | .timeout _ | .drop _ => .isTrue trivial

/-- How a call of `flush` ends from one of its stages. -/
def FlushStage.Leads (x : Externals) (config : IngestConfig) (succeeds : PartitionKey → Prop)
    (f f' : FlushState) : FlushStage → Prop
  | .selecting | .waiting true => Flush x config succeeds f f'
  | .waiting false => False
  | .persisting batch written => ∃ w result,
      World.Persists x config.maxSpansPerSegment batch.partition f.world batch.records w result ∧
      match result with
      | .ok receipts => succeeds batch.partition ∧ Flush x config succeeds
          (FlushState.persisted { f with world := w } batch.partition batch.waiters
            (written ++ receipts)) f'
      | .error left => ¬ succeeds batch.partition ∧
          f' = FlushState.failed { f with world := w } { batch with records := left }
  | .persisted partition waiters written =>
      Flush x config succeeds (f.persisted partition waiters written) f'
  | .failed batch => f' = f.failed batch
  | .notifying waiters (.ok receipts) => Flush x config succeeds (f.answer waiters (.ok receipts)) f'
  | .notifying waiters .err => f' = f.answer waiters .err

def polls (i : Nat) (turns : List (SegmentName × Option TurnFault)) : List IngestAction :=
  turns.map fun turn => .poll i turn.1 turn.2

theorem Ingestor.run_finished (htask : s.tasks[i]? = some (.finished result))
    (hrun : Transition.run (Ingestor.step x config) s (polls i turns) = some s') : s' = s := by
  cases turns with
  | nil => exact (Option.some.inj hrun).symm
  | cons turn turns =>
    obtain ⟨t, ht, -⟩ := Transition.run_cons_eq_some hrun
    rw [Ingestor.step, htask] at ht
    cases ht

/-- A run of one call of `flush` to its end is a flush. -/
theorem Ingestor.flush_leads {receipts : List FlushReceipt} {stage : FlushStage}
    (htask : s.tasks[i]? = some (.flushing .client receipts stage))
    (hrun : Transition.run (Ingestor.step x config) s (polls i turns) = some s')
    (hend : s'.tasks[i]? = some (.finished result))
    (hassigned : Transition.Meets (Ingestor.step x config)
      (Ingestor.Assigned x config succeeds) s (polls i turns)) :
    stage.Leads x config succeeds s.flushState s'.flushState := by
  induction turns generalizing s receipts stage with
  | nil =>
    cases hrun
    rw [htask] at hend
    cases hend
  | cons turn turns ih =>
    obtain ⟨t, ht, hrest⟩ := Transition.run_cons_eq_some hrun
    have hi : i < s.tasks.length := (List.getElem?_eq_some_iff.1 htask).1
    have hnow := hassigned.1
    have hlater := hassigned.2 t ht
    -- the stage that the future is in after this poll
    have hnext : ∀ {receipts stage}, t.tasks[i]? = some (.flushing .client receipts stage) →
        stage.Leads x config succeeds t.flushState s'.flushState :=
      fun htask' => ih htask' hrest hlater
    have hset : ∀ task, (s.tasks.set i task)[i]? = some task :=
      fun task => List.getElem?_set_self hi
    rw [Ingestor.step, htask, Option.bind_some, Ingestor.poll] at ht
    cases stage with
    | selecting =>
      rw [Ingestor.pollFlush] at ht
      split at ht
      next pending batch hselect =>
        cases ht
        obtain ⟨w, result, hpersist, hresult⟩ := hnext (hset _)
        cases result with
        | ok receipts => exact .persisted hselect hpersist hresult.1 hresult.2
        | error left =>
          rw [hresult.2]
          exact .failed hselect hpersist hresult.1
      next =>
        cases ht
        exact (hnext (hset _)).elim
      next hselect =>
        cases ht
        rw [Ingestor.run_finished (hset _) hrest]
        exact .drained hselect
    | waiting woken =>
      rw [Ingestor.pollFlush] at ht
      split at ht
      next hwoken =>
        cases ht
        subst hwoken
        have hleads := hnext (hset (.flushing .client receipts .selecting))
        exact hleads
      next => cases ht
    | persisting batch written =>
      have houtcome := hnow _ htask batch rfl rfl
      rw [Ingestor.pollFlush] at ht
      generalize hturn : s.world.persistTurn x config.maxSpansPerSegment batch.partition turn.1
        turn.2 batch.records = ended at ht houtcome
      obtain ⟨w, ended⟩ := ended
      cases ht
      have hleads := hnext (hset _)
      cases ended with
      | finished =>
        refine ⟨w, _, .finished hturn, houtcome, ?_⟩
        rw [List.append_nil]
        exact hleads
      | continued receipt left =>
        obtain ⟨w', result, hpersist, hresult⟩ := hleads
        refine ⟨w', _, .continued hturn hpersist, ?_⟩
        cases result with
        | ok rest =>
          refine ⟨hresult.1, ?_⟩
          rw [← List.append_assoc]
          exact hresult.2
        | error left => exact hresult
      | failed left => exact ⟨w, _, .failed hturn, houtcome, hleads⟩
    | persisted partition waiters written =>
      rw [Ingestor.pollFlush] at ht
      cases ht
      exact hnext (hset _)
    | failed batch =>
      rw [Ingestor.pollFlush] at ht
      cases ht
      exact hnext (hset _)
    | notifying waiters result =>
      have hset : ∀ task, ((s.tasks.map Task.wake).set i task)[i]? = some task := by
        intro task
        exact List.getElem?_set_self (by rw [List.length_map]; exact hi)
      cases result with
      | ok written =>
        cases ht
        exact hnext (hset _)
      | err =>
        cases ht
        rw [Ingestor.run_finished (hset _) hrest]
        rfl

theorem exists_ok_of_map {result : Except ε α} (h : result.map g = .ok b) :
    ∃ a, result = .ok a := by
  cases result with
  | error => cases h
  | ok a => exact ⟨a, rfl⟩

/-- A persist call keeps what is committed, and commits all its records if it succeeds. -/
theorem World.Persists.settles
    (h : World.Persists x maxSpansPerSegment partition w records w' result)
    (hvalid : ∀ r ∈ records, recordPartitionKey r = partition) :
    w.eventKeys ⊆ w'.eventKeys ∧
      ∀ receipts, result = .ok receipts → ∀ r ∈ records, r.eventKey ∈ w'.eventKeys := by
  induction h with
  | finished h =>
    obtain ⟨hgrow, -, hsettled⟩ := World.persistTurn_left hvalid h
    exact ⟨hgrow, fun _ _ r hr => (hsettled r hr).resolve_left List.not_mem_nil⟩
  | failed h =>
    refine ⟨(World.persistTurn_left hvalid h).1, ?_⟩
    intro receipts hresult
    cases hresult
  | continued h _ ih =>
    obtain ⟨hgrow, hsub, hsettled⟩ := World.persistTurn_left hvalid h
    obtain ⟨hgrow', hrest⟩ := ih fun r hr => hvalid r (hsub hr)
    refine ⟨List.Subset.trans hgrow hgrow', ?_⟩
    intro receipts hresult r hr
    obtain ⟨receipts', hok⟩ := exists_ok_of_map hresult
    rcases hsettled r hr with hr | hkey
    · exact hrest receipts' hok r hr
    · exact hgrow' hkey

/-- The partitions that have records to flush. -/
def PendingState.IsPending (pending : PendingState) (p : PartitionKey) : Prop :=
  (pending.buffer p).records ≠ []

theorem PendingState.mem_toList (hp : pending.IsPending p) :
    (p, pending.buffer p) ∈ pending.toList := by
  rw [TreeMap.mem_toList_iff_getElem?_eq_some]
  unfold PendingState.IsPending PendingState.buffer at hp
  unfold PendingState.buffer
  cases hget : pending[p]? with
  | none =>
    rw [hget] at hp
    exact absurd rfl hp
  | some buffer => rfl

/-- With nothing being flushed, the first pending partition is taken. -/
theorem PendingState.select_first (hidle : ∀ p, (pending.buffer p).flushing = false)
    (h : pending.select = (pending', .batch batch)) (hp : pending.IsPending p) :
    batch.partition = p ∨ compare batch.partition p = .lt := by
  unfold PendingState.select PendingState.nextPartition at h
  split at h
  next partition hnext =>
    cases h
    obtain ⟨row, hfind, rfl⟩ := Option.map_eq_some_iff.1 hnext
    obtain ⟨-, before, after, hsplit, hbefore⟩ := List.find?_eq_some_iff_append.1 hfind
    have hordered : pending.toList.Pairwise fun a b => compare a.1 b.1 = .lt :=
      TreeMap.ordered_keys_toList
    have hmem := PendingState.mem_toList hp
    rw [hsplit] at hordered hmem
    rcases List.mem_append.1 hmem with hmem | hmem
    · -- a pending partition in front of the first one
      have hnot := hbefore _ hmem
      rw [hidle p] at hnot
      have hempty : (pending.buffer p).records = [] := by simpa using hnot
      exact absurd hempty hp
    · rcases List.mem_cons.1 hmem with heq | hmem
      · exact .inl (congrArg Prod.fst heq).symm
      · exact .inr ((List.pairwise_cons.1 (List.pairwise_append.1 hordered).2.1).1 _ hmem)
  next => split at h <;> cases h

theorem PendingState.select_drained (hidle : ∀ p, (pending.buffer p).flushing = false)
    (h : pending.select = (pending', .drained)) (p : PartitionKey) : ¬ pending.IsPending p := by
  intro hp
  unfold PendingState.select PendingState.nextPartition at h
  split at h
  next => cases h
  next hnext =>
    rw [Option.map_eq_none_iff, List.find?_eq_none] at hnext
    have hnot := hnext _ (PendingState.mem_toList hp)
    rw [hidle p] at hnot
    have hempty : (pending.buffer p).records = [] := by simpa using hnot
    exact hp hempty

/-- Nothing is being flushed, and every record waits in the buffer of its partition. -/
structure FlushState.Ready (f : FlushState) : Prop where
  idle : ∀ p, (f.pending.buffer p).flushing = false
  valid : ∀ p, ∀ r ∈ (f.pending.buffer p).records, recordPartitionKey r = p

/-- The buffers after a batch was persisted: its partition has none left. -/
theorem FlushState.persisted_buffer (w : World) (waiters : List Nat)
    (receipts : List FlushReceipt) (hselect : f.pending.select = (pending, .batch batch))
    (answers : List (Nat × WaiterFlushResult)) (p : PartitionKey) :
    (FlushState.persisted ⟨w, pending, answers⟩ batch.partition waiters receipts).pending.buffer p =
      if batch.partition = p then {} else f.pending.buffer p := by
  obtain ⟨-, -, -, -, hbuffer⟩ := PendingState.select_batch hselect
  change (pending.release batch.partition).buffer p = _
  rw [PendingState.buffer_release, hbuffer p]
  split <;> rfl

theorem FlushState.Ready.persisted (hf : f.Ready)
    (hselect : f.pending.select = (pending, .batch batch))
    (answers : List (Nat × WaiterFlushResult)) :
    (FlushState.persisted ⟨w, pending, answers⟩ batch.partition waiters receipts).Ready := by
  have hbuffer := FlushState.persisted_buffer w waiters receipts hselect answers
  constructor
  · intro p
    rw [hbuffer p]
    split
    · rfl
    · exact hf.idle p
  · intro p r hr
    rw [hbuffer p] at hr
    split at hr
    · cases hr
    · exact hf.valid p r hr

theorem FlushState.Ready.batch_valid (hf : f.Ready)
    (hselect : f.pending.select = (pending, .batch batch)) :
    ∀ r ∈ batch.records, recordPartitionKey r = batch.partition := by
  obtain ⟨hrecords, -⟩ := PendingState.select_batch hselect
  rw [hrecords]
  exact hf.valid batch.partition

/-- A flush keeps what is committed and answered, and leaves buffers without records alone. -/
theorem Flush.frame (h : Flush x config succeeds f f') (hf : f.Ready) :
    f.world.eventKeys ⊆ f'.world.eventKeys ∧ f.answers ⊆ f'.answers ∧
      ∀ p, ¬ f.pending.IsPending p → f'.pending.buffer p = f.pending.buffer p := by
  induction h with
  | drained => exact ⟨List.Subset.refl _, List.Subset.refl _, fun _ _ => rfl⟩
  | @persisted pending batch receipts f f' w hselect hpersist _ _ ih =>
    obtain ⟨hgrow, -⟩ := hpersist.settles (hf.batch_valid hselect)
    obtain ⟨hkeys, hanswers, hrest⟩ := ih (hf.persisted hselect f.answers)
    refine ⟨List.Subset.trans hgrow hkeys,
      List.Subset.trans (List.subset_append_left _ _) hanswers, ?_⟩
    intro p hp
    have hbuffer := FlushState.persisted_buffer w batch.waiters receipts hselect f.answers p
    obtain ⟨hrecords, -, -, hne, -⟩ := PendingState.select_batch hselect
    have hother : batch.partition ≠ p := by
      rintro rfl
      rw [hrecords] at hne
      exact hp hne
    rw [if_neg hother] at hbuffer
    rw [hrest p (by rw [PendingState.IsPending, hbuffer]; exact hp), hbuffer]
  | @failed _ batch _ f w hselect hpersist _ =>
    obtain ⟨hgrow, -⟩ := hpersist.settles (hf.batch_valid hselect)
    refine ⟨hgrow, List.subset_append_left _ _, ?_⟩
    intro p hp
    obtain ⟨hrecords, -, -, hne, hbuffer⟩ := PendingState.select_batch hselect
    have hother : batch.partition ≠ p := by
      rintro rfl
      rw [hrecords] at hne
      exact hp hne
    refine (PendingState.buffer_restore _ _ p).trans ?_
    rw [if_neg hother, hbuffer p, if_neg hother]

/-- The records of a buffer are committed and out of the buffer, and its waiters know. -/
def FlushState.Settled (f : FlushState) (p : PartitionKey) (buffer : PendingBuffer) : Prop :=
  (f.pending.buffer p).records = [] ∧
    (∀ r ∈ buffer.records, r.eventKey ∈ f.world.eventKeys) ∧
    ∀ waiter ∈ buffer.waiters, ∃ receipts, (waiter, .ok receipts) ∈ f.answers

/-- The partition of the first batch is settled if it was persisted. -/
theorem Flush.first_settled (hf : f.Ready) (hselect : f.pending.select = (pending, .batch batch))
    (hpersist : World.Persists x config.maxSpansPerSegment batch.partition f.world batch.records
      w (.ok receipts))
    (hrest : Flush x config succeeds
      (FlushState.persisted ⟨w, pending, f.answers⟩ batch.partition batch.waiters receipts) f') :
    f'.Settled batch.partition (f.pending.buffer batch.partition) := by
  obtain ⟨hrecords, hwaiters, -⟩ := PendingState.select_batch hselect
  obtain ⟨-, hcommitted⟩ := hpersist.settles (hf.batch_valid hselect)
  obtain ⟨hkeys, hanswers, hkept⟩ := hrest.frame (hf.persisted hselect f.answers)
  have hbuffer := FlushState.persisted_buffer w batch.waiters receipts hselect f.answers batch.partition
  rw [if_pos rfl] at hbuffer
  refine ⟨?_, ?_, ?_⟩
  · rw [hkept batch.partition (by rw [PendingState.IsPending, hbuffer]; exact fun h => h rfl),
      hbuffer]
  · intro r hr
    rw [← hrecords] at hr
    exact hkeys (hcommitted receipts rfl r hr)
  · intro waiter hwaiter
    rw [← hwaiters] at hwaiter
    exact ⟨receipts, hanswers (List.mem_append_right _ (List.mem_map_of_mem hwaiter))⟩

/-- A flush settles every pending partition that can be persisted exactly if no partition that
cannot stands before one of them. -/
theorem Flush.settles_iff (h : Flush x config succeeds f f') (hf : f.Ready) :
    (∀ p, f.pending.IsPending p → succeeds p → f'.Settled p (f.pending.buffer p)) ↔
      ∀ p q, f.pending.IsPending p → f.pending.IsPending q → compare q p = .lt →
        succeeds p → succeeds q := by
  induction h with
  | drained hselect =>
    have hnone := PendingState.select_drained hf.idle hselect
    exact ⟨fun _ p _ hp => absurd hp (hnone p), fun _ p hp => absurd hp (hnone p)⟩
  | @persisted pending batch receipts f f' w hselect hpersist hsucceeds hrest ih =>
    have hfirst := Flush.first_settled hf hselect hpersist hrest
    have hbefore := fun p => PendingState.select_first (p := p) hf.idle hselect
    have hbuffer := FlushState.persisted_buffer w batch.waiters receipts hselect f.answers
    have hpending : ∀ p, batch.partition ≠ p →
        ((FlushState.persisted ⟨w, pending, f.answers⟩ batch.partition batch.waiters
          receipts).pending.IsPending p ↔ f.pending.IsPending p) := by
      intro p hp
      rw [PendingState.IsPending, hbuffer p, if_neg hp]
      rfl
    have hother : ∀ p, PendingState.IsPending (FlushState.persisted ⟨w, pending, f.answers⟩
        batch.partition batch.waiters receipts).pending p → batch.partition ≠ p := by
      rintro p hp rfl
      rw [PendingState.IsPending, hbuffer, if_pos rfl] at hp
      exact hp rfl
    have hrest := ih (hf.persisted hselect f.answers)
    constructor
    · intro hsettled p q hp hq hlt hp'
      by_cases hqfirst : batch.partition = q
      · exact hqfirst ▸ hsucceeds
      have hpfirst : batch.partition ≠ p := by
        rintro rfl
        rcases hbefore q hq with heq | hgt
        · exact hqfirst heq
        · rw [OrientedCmp.gt_of_lt hgt] at hlt
          cases hlt
      refine hrest.1 ?_ p q ((hpending p hpfirst).2 hp) ((hpending q hqfirst).2 hq) hlt hp'
      intro p hp hp'
      rw [hbuffer p, if_neg (hother p hp)]
      exact hsettled p ((hpending p (hother p hp)).1 hp) hp'
    · intro hordered p hp hp'
      by_cases hpfirst : batch.partition = p
      · subst hpfirst
        exact hfirst
      · have hsettled := hrest.2 ?_ p ((hpending p hpfirst).2 hp) hp'
        · rw [hbuffer p, if_neg hpfirst] at hsettled
          exact hsettled
        · intro p q hp hq
          exact hordered p q ((hpending p (hother p hp)).1 hp) ((hpending q (hother q hq)).1 hq)
  | @failed pending batch left f w hselect hpersist hfails =>
    obtain ⟨hrecords, -, -, hne, hbuffer⟩ := PendingState.select_batch hselect
    have hfirst : f.pending.IsPending batch.partition := by
      rw [PendingState.IsPending, ← hrecords]
      exact hne
    have hother : ∀ p, succeeds p → batch.partition ≠ p := by
      rintro p hp rfl
      exact hfails hp
    constructor
    · intro hsettled p q hp hq hlt hp'
      obtain ⟨hempty, -⟩ := hsettled p hp hp'
      change ((pending.restore _).1.buffer p).records = [] at hempty
      rw [PendingState.buffer_restore, if_neg (hother p hp'), hbuffer p,
        if_neg (hother p hp')] at hempty
      exact absurd hempty hp
    · intro hordered p hp hp'
      rcases PendingState.select_first hf.idle hselect hp with heq | hlt
      · exact absurd heq (hother p hp')
      · exact absurd (hordered p batch.partition hp hfirst hlt hp') hfails

/-- One call of `flush` that runs alone settles every pending partition that can be persisted
exactly if no partition that cannot stands before one of them in the order of the keys. -/
theorem flush_isolates_partitions (x : Externals) (config : IngestConfig) (s s' : Ingestor)
    (succeeds : PartitionKey → Prop) (turns : List (SegmentName × Option TurnFault))
    (result : Option (List FlushReceipt)) (hready : s.flushState.Ready)
    (hrun : Transition.run (Ingestor.step x config) s
      (.callFlush :: polls s.tasks.length turns) = some s')
    (hend : s'.tasks[s.tasks.length]? = some (.finished result))
    (hassigned : Transition.Meets (Ingestor.step x config) (Ingestor.Assigned x config succeeds) s
      (.callFlush :: polls s.tasks.length turns)) :
    (∀ p, s.pending.IsPending p → succeeds p → s'.flushState.Settled p (s.pending.buffer p)) ↔
      ∀ p q, s.pending.IsPending p → s.pending.IsPending q → compare q p = .lt →
        succeeds p → succeeds q := by
  obtain ⟨t, ht, hrest⟩ := Transition.run_cons_eq_some hrun
  have hlater := hassigned.2 t ht
  cases ht
  have htask : (s.tasks ++ [Task.flushing .client [] .selecting])[s.tasks.length]? =
      some (.flushing .client [] .selecting) := List.getElem?_concat_length
  have hflush := Ingestor.flush_leads htask hrest hend hlater
  exact Flush.settles_iff (f := s.flushState) hflush hready

theorem FlushState.Ready.enqueue (hf : f.Ready) (put : Put)
    (hvalid : ∀ r ∈ put.records, recordPartitionKey r = put.partition) :
    FlushState.Ready { f with pending := f.pending.enqueue put } := by
  constructor
  · intro p
    rw [PendingState.buffer_enqueue]
    split
    · exact hf.idle p
    · exact hf.idle p
  · intro p r hr
    rw [PendingState.buffer_enqueue] at hr
    split at hr
    next h =>
      rcases List.mem_append.1 hr with hr | hr
      · exact hf.valid p r hr
      · exact (hvalid r hr).trans h
    next => exact hf.valid p r hr

theorem FlushState.Ready.empty (w : World) (answers : List (Nat × WaiterFlushResult)) :
    FlushState.Ready ⟨w, (∅ : PendingState), answers⟩ := by
  constructor <;> simp [PendingState.buffer]

/-- Records of two hours that wait for a flush. -/
def samplePending : Ingestor :=
  { Ingestor.initial .empty with
    pending := (PendingState.enqueue ∅ ⟨0, ⟨"p", 0⟩, [.sample "t" "s" "a" .«end» 10 30]⟩).enqueue
      ⟨1, ⟨"p", 3600000000000⟩, [.sample "t" "u" "b" .«end» 4000000000000 4000000000030]⟩ }

theorem samplePending_ready : samplePending.flushState.Ready :=
  ((FlushState.Ready.empty .empty []).enqueue _ (by decide +kernel)).enqueue _ (by decide +kernel)

def sampleTurns : List (SegmentName × Option TurnFault) :=
  [(⟨1, 1⟩, none), (⟨1, 1⟩, none), (⟨1, 1⟩, none), (⟨1, 1⟩, none), (⟨1, 1⟩, none),
    (⟨2, 2⟩, none), (⟨2, 2⟩, none), (⟨2, 2⟩, none), (⟨2, 2⟩, none), (⟨2, 2⟩, none),
    (⟨2, 2⟩, none)]

theorem flush_isolates_partitions_sample :
    ∃ s', Transition.run (Ingestor.step .sample ⟨2, 0⟩) samplePending
        (.callFlush :: polls 0 sampleTurns) = some s' ∧
      ∀ p, samplePending.pending.IsPending p →
        s'.flushState.Settled p (samplePending.pending.buffer p) := by
  have hrun : (Transition.run (Ingestor.step .sample ⟨2, 0⟩) samplePending
      (.callFlush :: polls 0 sampleTurns)).map Ingestor.tasks = some [.finished (some
        [⟨"projects/p/time-buckets/0/trace-segments/1-1-t.vortex", 1⟩,
          ⟨"projects/p/time-buckets/3600000000000/trace-segments/2-2-t.vortex", 1⟩])] := by
    decide +kernel
  obtain ⟨s', hs', htasks⟩ := Option.map_eq_some_iff.1 hrun
  have hend := congrArg (fun tasks : List Task => tasks[0]?) htasks
  refine ⟨s', hs', fun p hp => ?_⟩
  exact (flush_isolates_partitions .sample ⟨2, 0⟩ samplePending s' (fun _ => True) sampleTurns _
    samplePending_ready hs' hend (by decide +kernel)).2 (fun _ _ _ _ _ _ => trivial) p hp trivial

/-- The first hour fails, and the second is not even tried. -/
theorem flush_starves_partition :
    ∃ s', Transition.run (Ingestor.step .sample ⟨2, 0⟩) samplePending (.callFlush :: polls 0
        [(⟨1, 1⟩, none), (⟨1, 1⟩, some .filter), (⟨1, 1⟩, none), (⟨1, 1⟩, none)]) = some s' ∧
      s'.tasks[0]? = some (.finished none) ∧
      samplePending.pending.IsPending ⟨"p", 3600000000000⟩ ∧
      ¬ s'.flushState.Settled ⟨"p", 3600000000000⟩
        (samplePending.pending.buffer ⟨"p", 3600000000000⟩) := by
  have hrun : (Transition.run (Ingestor.step .sample ⟨2, 0⟩) samplePending (.callFlush :: polls 0
      [(⟨1, 1⟩, none), (⟨1, 1⟩, some .filter), (⟨1, 1⟩, none), (⟨1, 1⟩, none)])).map
      (fun s => (s.tasks, (s.pending.buffer ⟨"p", 3600000000000⟩).records)) =
      some ([.finished none], [.sample "t" "u" "b" .«end» 4000000000000 4000000000030]) := by
    decide +kernel
  obtain ⟨s', hs', hfacts⟩ := Option.map_eq_some_iff.1 hrun
  obtain ⟨htasks, hrecords⟩ := Prod.mk.inj hfacts
  refine ⟨s', hs', ?_, ?_, ?_⟩
  · rw [htasks]
    rfl
  · unfold PendingState.IsPending
    decide +kernel
  · rintro ⟨hempty, -⟩
    rw [Ingestor.flushState, hrecords] at hempty
    cases hempty

end KevinDb
