import KevinDb.Ingest.Ledger

namespace KevinDb
set_option autoImplicit true
open Std

variable {x : Externals} {config : IngestConfig} {pending : PendingState}
  {partition p : PartitionKey} {batch : FlushBatch} {start w : World} {l l' : Ledger}

/-- Every record that the waiter's caller put into its partition is among the given ones or
committed. -/
def Ledger.Awaits (l : Ledger) (records : List SpanRecord) (waiter : Nat) : Prop :=
  waiter < l.nextWaiter ∧ ∀ put ∈ l.puts, put.waiter = waiter →
    ∀ r ∈ put.records, r ∈ records ∨ r.eventKey ∈ l.world.eventKeys

/-- Waiters wait for records that are still in the same place as they, and an answer without
error is for committed records. -/
structure Ledger.Acknowledged (l : Ledger) : Prop where
  puts : ∀ put ∈ l.puts, put.waiter < l.nextWaiter
  buffer : ∀ p, ∀ waiter ∈ (l.pending.buffer p).waiters,
    l.Awaits (l.pending.buffer p).records waiter
  flying : ∀ batch ∈ l.flying, ∀ waiter ∈ batch.waiters, l.Awaits batch.records waiter
  notices : ∀ waiters receipts, (waiters, .ok receipts) ∈ l.notices →
    ∀ waiter ∈ waiters, l.Awaits [] waiter
  answers : ∀ waiter receipts, (waiter, .ok receipts) ∈ l.answers → l.Awaits [] waiter

namespace Ledger

theorem Awaits.mono (h : l.Awaits records waiter) (hnext : l'.nextWaiter = l.nextWaiter)
    (hputs : l'.puts = l.puts) (hkeys : l.world.eventKeys ⊆ l'.world.eventKeys)
    (hrecords : ∀ r ∈ records, r ∈ records' ∨ r.eventKey ∈ l'.world.eventKeys) :
    l'.Awaits records' waiter := by
  refine ⟨hnext ▸ h.1, ?_⟩
  intro put hput hwaiter r hr
  rw [hputs] at hput
  rcases h.2 put hput hwaiter r hr with hr | hkey
  · exact hrecords r hr
  · exact .inr (hkeys hkey)

theorem Awaits.put (h : l.Awaits records waiter) (hsub : records ⊆ records')
    (pending : PendingState) (partition : PartitionKey) (new : List SpanRecord) :
    Awaits { l with
      pending
      nextWaiter := l.nextWaiter + 1
      puts := l.puts ++ [⟨l.nextWaiter, partition, new⟩] } records' waiter := by
  refine ⟨Nat.lt_succ_of_lt h.1, ?_⟩
  intro put hput hwaiter r hr
  rcases List.mem_append.1 hput with hput | hput
  · exact (h.2 put hput hwaiter r hr).imp_left fun hr => hsub hr
  · rw [List.mem_singleton.1 hput] at hwaiter
    exact absurd h.1 (by rw [← hwaiter]; exact Nat.lt_irrefl _)

theorem Acknowledged.initial (start : World) :
    Acknowledged ⟨start, (∅ : PendingState), 0, 0, 0, [], []⟩ := by
  constructor <;> simp [PendingState.buffer]

theorem Acknowledged.put (hl : l.Acknowledged) (partition : PartitionKey)
    (records : List SpanRecord) :
    Acknowledged { l with
      pending := l.pending.enqueue ⟨l.nextWaiter, partition, records⟩
      nextWaiter := l.nextWaiter + 1
      puts := l.puts ++ [⟨l.nextWaiter, partition, records⟩] } := by
  have hbuffer := l.pending.buffer_enqueue ⟨l.nextWaiter, partition, records⟩
  refine ⟨?_, ?_, ?_, ?_, ?_⟩
  · intro put hput
    rcases List.mem_append.1 hput with hput | hput
    · exact Nat.lt_succ_of_lt (hl.puts put hput)
    · rw [List.mem_singleton.1 hput]
      exact Nat.lt_succ_self _
  · intro p waiter hwaiter
    rw [hbuffer p] at hwaiter ⊢
    by_cases hp : partition = p
    · rw [if_pos hp] at hwaiter ⊢
      rcases List.mem_append.1 hwaiter with hwaiter | hwaiter
      · exact (hl.buffer p waiter hwaiter).put (List.subset_append_left _ _) _ partition records
      · -- the new waiter: no earlier put has its number
        rw [List.mem_singleton.1 hwaiter]
        refine ⟨Nat.lt_succ_self _, ?_⟩
        intro put hput hsame r hr
        rcases List.mem_append.1 hput with hput | hput
        · have hlt := hl.puts put hput
          rw [hsame] at hlt
          exact absurd hlt (Nat.lt_irrefl _)
        · rw [List.mem_singleton.1 hput] at hr
          exact .inl (List.mem_append_right _ hr)
    · rw [if_neg hp] at hwaiter ⊢
      exact (hl.buffer p waiter hwaiter).put (List.Subset.refl _) _ partition records
  · intro batch hbatch waiter hwaiter
    exact (hl.flying batch hbatch waiter hwaiter).put (List.Subset.refl _) _ partition records
  · intro waiters receipts hnotice waiter hwaiter
    exact (hl.notices waiters receipts hnotice waiter hwaiter).put (List.Subset.refl _) _
      partition records
  · intro waiter receipts hanswer
    exact (hl.answers waiter receipts hanswer).put (List.Subset.refl _) _ partition records

theorem Acknowledged.take (hl : l.Acknowledged)
    (hselect : l.pending.select = (pending, .batch batch)) :
    Acknowledged { l with pending, flying := batch ::ₘ l.flying } := by
  obtain ⟨hrecords, hwaiters, -, -, hbuffer⟩ := PendingState.select_batch hselect
  refine ⟨hl.puts, ?_, ?_, hl.notices, hl.answers⟩
  · intro p waiter hwaiter
    rw [hbuffer p] at hwaiter ⊢
    split at hwaiter
    · cases hwaiter
    next hp =>
      rw [if_neg hp]
      exact hl.buffer p waiter hwaiter
  · intro b hb waiter hwaiter
    rcases Multiset.mem_cons.1 hb with rfl | hb
    · rw [hwaiters] at hwaiter
      rw [hrecords]
      exact hl.buffer _ waiter hwaiter
    · exact hl.flying b hb waiter hwaiter

theorem Acknowledged.turn {turn : Turn} (hl : l.Acknowledged)
    (hvalid : ∀ r ∈ batch.records, recordPartitionKey r = batch.partition)
    (hflying : l.flying = batch ::ₘ rest)
    (hturn : l.world.persistTurn x maxSpansPerSegment batch.partition name fault batch.records =
      (w, turn)) :
    Acknowledged { l with
      world := w
      flying := { batch with records := turn.left } ::ₘ rest } := by
  obtain ⟨hgrow, -, hsettled⟩ := World.persistTurn_left hvalid hturn
  refine ⟨hl.puts, ?_, ?_, ?_, ?_⟩
  · intro p waiter hwaiter
    exact (hl.buffer p waiter hwaiter).mono rfl rfl hgrow fun r hr => .inl hr
  · intro b hb waiter hwaiter
    rcases Multiset.mem_cons.1 hb with rfl | hb
    · refine (hl.flying batch ?_ waiter hwaiter).mono rfl rfl hgrow hsettled
      rw [hflying]
      exact Multiset.mem_cons_self batch rest
    · refine (hl.flying b ?_ waiter hwaiter).mono rfl rfl hgrow fun r hr => .inl hr
      rw [hflying]
      exact Multiset.mem_cons_of_mem hb
  · intro waiters receipts hnotice waiter hwaiter
    exact (hl.notices waiters receipts hnotice waiter hwaiter).mono rfl rfl hgrow fun r hr => .inl hr
  · intro waiter receipts hanswer
    exact (hl.answers waiter receipts hanswer).mono rfl rfl hgrow fun r hr => .inl hr

theorem Acknowledged.release (hl : l.Acknowledged)
    (hflying : l.flying = ⟨partition, [], waiters⟩ ::ₘ rest) (receipts : List FlushReceipt) :
    Acknowledged { l with
      pending := l.pending.release partition
      flying := rest
      notices := (waiters, .ok receipts) ::ₘ l.notices } := by
  have hbuffer := l.pending.buffer_release partition
  have hfields : ∀ p, ((l.pending.release partition).buffer p).records =
      (l.pending.buffer p).records ∧
      ((l.pending.release partition).buffer p).waiters = (l.pending.buffer p).waiters := by
    intro p
    rw [hbuffer p]
    split <;> exact ⟨rfl, rfl⟩
  refine ⟨hl.puts, ?_, ?_, ?_, hl.answers⟩
  · intro p waiter hwaiter
    dsimp only at hwaiter ⊢
    rw [(hfields p).2] at hwaiter
    rw [(hfields p).1]
    exact hl.buffer p waiter hwaiter
  · intro b hb
    refine hl.flying b ?_
    rw [hflying]
    exact Multiset.mem_cons_of_mem hb
  · intro waiters' receipts' hnotice waiter hwaiter
    rcases Multiset.mem_cons.1 hnotice with heq | hnotice
    · cases heq
      refine hl.flying ⟨partition, [], waiters⟩ ?_ waiter hwaiter
      rw [hflying]
      exact Multiset.mem_cons_self _ rest
    · exact hl.notices waiters' receipts' hnotice waiter hwaiter

theorem Acknowledged.restore (hl : l.Acknowledged) (hflying : l.flying = batch ::ₘ rest) :
    Acknowledged { l with
      pending := (l.pending.restore batch).1
      flying := rest
      notices := ((l.pending.restore batch).2, .err) ::ₘ l.notices } := by
  have hbuffer := l.pending.buffer_restore batch
  refine ⟨hl.puts, ?_, ?_, ?_, hl.answers⟩
  · intro p waiter hwaiter
    rw [hbuffer p] at hwaiter ⊢
    split at hwaiter
    · cases hwaiter
    next hp =>
      rw [if_neg hp]
      exact hl.buffer p waiter hwaiter
  · intro b hb
    refine hl.flying b ?_
    rw [hflying]
    exact Multiset.mem_cons_of_mem hb
  · intro waiters receipts hnotice
    rcases Multiset.mem_cons.1 hnotice with heq | hnotice
    · cases heq
    · exact hl.notices waiters receipts hnotice

theorem Acknowledged.notify (hl : l.Acknowledged)
    (hnotices : l.notices = (waiters, result) ::ₘ rest) :
    Acknowledged { l with
      notices := rest
      answers := l.answers ++ waiters.map fun waiter => (waiter, result) } := by
  refine ⟨hl.puts, hl.buffer, hl.flying, ?_, ?_⟩
  · intro waiters' receipts hnotice
    refine hl.notices waiters' receipts ?_
    rw [hnotices]
    exact Multiset.mem_cons_of_mem hnotice
  · intro waiter receipts hanswer
    rcases List.mem_append.1 hanswer with hanswer | hanswer
    · exact hl.answers waiter receipts hanswer
    · obtain ⟨waiter', hwaiter, heq⟩ := List.mem_map.1 hanswer
      cases heq
      refine hl.notices waiters receipts ?_ waiter hwaiter
      rw [hnotices]
      exact Multiset.mem_cons_self _ rest

theorem Acknowledged.step (hl : l.Acknowledged) (hc : Conserved start l)
    (h : Step x config l l') : l'.Acknowledged := by
  cases h with
  | put partition records hvalid => exact hl.put partition records
  | take batch pending hselect => exact hl.take hselect
  | turn batch rest hflying name fault w turn hturn =>
    refine hl.turn (hc.flying_valid batch ?_) hflying hturn
    rw [hflying]
    exact Multiset.mem_cons_self batch rest
  | release partition waiters receipts rest hflying => exact hl.release hflying receipts
  | restore batch rest hflying => exact hl.restore hflying
  | notify waiters result rest hnotices => exact hl.notify hnotices

/-- Both invariants, along any number of moves. -/
theorem steps (hc : Conserved start l) (ha : l.Acknowledged)
    (h : Relation.ReflTransGen (Step x config) l l') : Conserved start l' ∧ l'.Acknowledged := by
  induction h with
  | refl => exact ⟨hc, ha⟩
  | tail _ hlast ih => exact ⟨ih.1.step hlast, ih.2.step ih.1 hlast⟩

end Ledger
end KevinDb
