import KevinDb.Store
import KevinDb.Lib.Windows

namespace KevinDb
set_option autoImplicit true

variable {x : Externals} {w w' : World} {partition : PartitionKey} {name : SegmentName}
  {records remaining : List SpanRecord} {maxSpansPerSegment : Nat}

theorem filterDuplicateRecords_eq (db : Db)
    (hvalid : ∀ r ∈ records, recordPartitionKey r = partition) :
    filterDuplicateRecords db records = records.filter fun r => ¬ db.hasEventKey r.eventKey := by
  cases records with
  | nil => rfl
  | cons first rest =>
    have hproject : ∀ r ∈ first :: rest, r.projectName = first.projectName := by
      intro r hr
      have hfirst := hvalid first List.mem_cons_self
      exact congrArg PartitionKey.projectName ((hvalid r hr).trans hfirst.symm)
    rw [filterDuplicateRecords]
    refine List.filter_congr ?_
    intro r hr
    rw [SpanRecord.eventKey, hproject r hr]

/-- Without failing calls, a segment is written if the database accepts its events, and handed
back otherwise. -/
theorem World.persistSegment_cases (x : Externals) (w : World) (name : SegmentName)
    (hne : records ≠ []) (hvalid : ∀ r ∈ records, recordPartitionKey r = partition) :
    (w.db.accepts records ∧
      ∃ receipt, (w.persistSegment x partition name records none).2 = .ok (.written receipt)) ∨
    (¬ w.db.accepts records ∧
      (w.persistSegment x partition name records none).2 = .ok (.duplicateConflict records)) := by
  cases records with
  | nil => exact absurd rfl hne
  | cons first rest =>
    rw [World.persistSegment, validatePartitionRecords_eq_true.2 hvalid]
    simp only [Bool.not_true, Bool.false_eq_true, if_false, reduceCtorEq, or_self]
    unfold World.commitSegment
    split
    next hnone => cases hnone
    next db inserted hmeta =>
      have haccepts : inserted = true ↔ w.db.accepts (first :: rest) :=
        Db.persistMetadata_inserted hmeta
      rw [← haccepts]
      cases inserted with
      | false => simp
      | true => simp

/-- The records that are not committed. -/
def Db.fresh (db : Db) (records : List SpanRecord) : List SpanRecord :=
  records.filter fun r => ¬ db.hasEventKey r.eventKey

/-- What a turn does with the fresh records when no call fails: it ends without any, commits the
first window, or keeps them all if the window has a key twice. -/
inductive World.FreshTurn (maxSpansPerSegment : Nat) (w : World) (fresh : List SpanRecord) :
    World → Turn → Prop
  | finished (hnone : fresh = []) : FreshTurn maxSpansPerSegment w fresh w .finished
  | written (w' : World) (receipt : FlushReceipt) (hne : fresh ≠ [])
      (hnodup : ((fresh.take (max maxSpansPerSegment 1)).map SpanRecord.eventKey).Nodup)
      (hevents : w'.db.runEvents = w.db.runEvents ++ rowEvents w.db.nextTraceSegmentId 0
        w.db.nextRunEventId (fresh.take (max maxSpansPerSegment 1))) :
      FreshTurn maxSpansPerSegment w fresh w'
        (.continued (some receipt) (fresh.drop (max maxSpansPerSegment 1)))
  | kept (w' : World) (hne : fresh ≠ [])
      (hdup : ¬ ((fresh.take (max maxSpansPerSegment 1)).map SpanRecord.eventKey).Nodup)
      (hevents : w'.db.runEvents = w.db.runEvents) :
      FreshTurn maxSpansPerSegment w fresh w' (.continued none fresh)

theorem Db.accepts_fresh (db : Db) (records : List SpanRecord) (n : Nat) :
    db.accepts ((db.fresh records).take n) ↔
      (((db.fresh records).take n).map SpanRecord.eventKey).Nodup := by
  unfold Db.accepts
  refine and_iff_left ?_
  intro record hrecord
  have hmem := (List.mem_filter.1 (List.mem_of_mem_take hrecord)).2
  exact of_decide_eq_true hmem

theorem World.persistSegment_window (x : Externals) (w : World) (name : SegmentName)
    (hvalid : ∀ r ∈ remaining, recordPartitionKey r = partition)
    (hne : w.db.fresh remaining ≠ []) (hn : 0 < n) :
    ((((w.db.fresh remaining).take n).map SpanRecord.eventKey).Nodup ∧ ∃ receipt,
      (w.persistSegment x partition name ((w.db.fresh remaining).take n)
        (TurnFault.inSegment none)).2 = .ok (.written receipt)) ∨
    (¬ (((w.db.fresh remaining).take n).map SpanRecord.eventKey).Nodup ∧
      (w.persistSegment x partition name ((w.db.fresh remaining).take n)
        (TurnFault.inSegment none)).2 =
        .ok (.duplicateConflict ((w.db.fresh remaining).take n))) := by
  rw [← Db.accepts_fresh]
  refine World.persistSegment_cases x w name ?_ ?_
  · simp [hne]
    omega
  · intro r hr
    exact hvalid r (List.mem_filter.1 (List.mem_of_mem_take hr)).1

theorem World.persistTurn_fresh (x : Externals) (maxSpansPerSegment : Nat) (w : World)
    (name : SegmentName) (hvalid : ∀ r ∈ remaining, recordPartitionKey r = partition) :
    World.FreshTurn maxSpansPerSegment w (w.db.fresh remaining)
      (w.persistTurn x maxSpansPerSegment partition name none remaining).1
      (w.persistTurn x maxSpansPerSegment partition name none remaining).2 := by
  have hfresh : filterDuplicateRecords w.db remaining = w.db.fresh remaining :=
    filterDuplicateRecords_eq w.db hvalid
  by_cases hnone : w.db.fresh remaining = []
  · have hfinished : World.persistTurn x maxSpansPerSegment w partition name none remaining =
        (w, .finished) := by
      simp [World.persistTurn, hfresh, hnone]
    rw [hfinished]
    exact .finished hnone
  have hsegment := World.persistSegment_window x w name hvalid hnone
    (show 0 < max maxSpansPerSegment 1 by omega)
  have hresult := World.persistTurn_result x maxSpansPerSegment w partition name none remaining
  generalize w.persistTurn x maxSpansPerSegment partition name none remaining = result at hresult ⊢
  obtain ⟨w', turn⟩ := result
  dsimp only at hresult ⊢
  cases hresult with
  | unfiltered hfault => cases hfault
  | finished hfinished => exact .finished (hfresh.symm.trans hfinished)
  | written window rest w' receipt hfault hwindow hsplit hpersist hevents =>
    rw [hfresh] at hwindow hsplit
    subst hwindow
    rcases hsegment with ⟨hnodup, -⟩ | ⟨-, hconflict⟩
    · have hrest : rest = (w.db.fresh remaining).drop (max maxSpansPerSegment 1) :=
        List.append_cancel_left (hsplit.symm.trans (List.take_append_drop _ _).symm)
      rw [hrest]
      exact .written w' receipt hnone hnodup hevents
    · rw [hpersist] at hconflict
      cases hconflict
  | kept window w' db hfault hwindow hpersist hdb =>
    rw [hfresh] at hwindow ⊢
    subst hwindow
    rcases hsegment with ⟨-, receipt, hwritten⟩ | ⟨hdup, -⟩
    · rw [hpersist] at hwritten
      cases hwritten
    · have hevents : w'.db.runEvents = w.db.runEvents := by
        rw [hdb]
        rfl
      exact .kept w' hnone hdup hevents
  | failed window w' db hfault hwindow hpersist hdb =>
    rw [hfresh] at hwindow
    subst hwindow
    rcases hsegment with ⟨-, receipt, hwritten⟩ | ⟨-, hconflict⟩
    · rw [hpersist] at hwritten
      cases hwritten
    · rw [hpersist] at hconflict
      cases hconflict

theorem Db.hasEventKey_rowEvents {db db' : Db}
    (hevents : db'.runEvents = db.runEvents ++ rowEvents segmentId rowIndex eventId records)
    (key : String × String) :
    db'.hasEventKey key ↔ db.hasEventKey key ∨ key ∈ records.map SpanRecord.eventKey := by
  rw [Db.hasEventKey_append db hevents, ← map_eventKey_rowEvents, List.mem_map]

/-- The keys behind a committed window that are still fresh. -/
theorem Db.map_eventKey_fresh {db db' : Db} (n : Nat) (isNew : String × String → Bool)
    (hnew : ∀ key, isNew key = true ↔ key ∉ ((db.fresh records).map SpanRecord.eventKey).take n)
    (hevents : db'.runEvents = db.runEvents ++
      rowEvents segmentId rowIndex eventId ((db.fresh records).take n)) :
    (db'.fresh ((db.fresh records).drop n)).map SpanRecord.eventKey =
      (((db.fresh records).map SpanRecord.eventKey).drop n).filter isNew := by
  rw [← List.map_drop, List.filter_map, Db.fresh]
  refine congrArg _ (List.filter_congr ?_)
  intro record hrecord
  have hmem := of_decide_eq_true (List.mem_filter.1 (List.mem_of_mem_drop hrecord)).2
  rw [Bool.eq_iff_iff, decide_eq_true_iff, Db.hasEventKey_rowEvents hevents, Function.comp_apply,
    hnew, List.map_take, or_iff_right hmem]

theorem Db.spread_fresh {db db' : Db} (hn : 0 < n)
    (hevents : db'.runEvents = db.runEvents ++
      rowEvents segmentId rowIndex eventId ((db.fresh records).take n)) :
    Spread n [] ((db.fresh records).map SpanRecord.eventKey) ↔
      (((db.fresh records).take n).map SpanRecord.eventKey).Nodup ∧
        Spread n [] ((db'.fresh ((db.fresh records).drop n)).map SpanRecord.eventKey) := by
  rw [spread_iff hn, List.map_take]
  refine and_congr_right' (iff_of_eq (congrArg (Spread n []) ?_))
  refine (Db.map_eventKey_fresh n _ ?_ hevents).symm
  intro key
  simp

theorem Db.hasEventKey_congr {db db' : Db} (h : db'.runEvents = db.runEvents)
    (key : String × String) : db'.hasEventKey key ↔ db.hasEventKey key := by
  rw [Db.hasEventKey, h]
  rfl

theorem Db.fresh_idem (db : Db) (records : List SpanRecord) :
    db.fresh (db.fresh records) = db.fresh records := by
  unfold Db.fresh
  rw [List.filter_filter]
  simp

theorem Db.fresh_congr {db db' : Db} (h : db'.runEvents = db.runEvents)
    (records : List SpanRecord) : db'.fresh records = db.fresh records := by
  refine List.filter_congr ?_
  intro record _
  exact decide_eq_decide.2 (not_congr (Db.hasEventKey_congr h record.eventKey))

theorem mem_of_mem_fresh {db : Db} (h : record ∈ db.fresh remaining) : record ∈ remaining :=
  (List.mem_filter.1 h).1

theorem mem_of_mem_fresh_drop {db : Db} (h : record ∈ (db.fresh remaining).drop n) :
    record ∈ remaining :=
  mem_of_mem_fresh (List.mem_of_mem_drop h)

/-- A batch whose fresh keys are spread is persisted within as many turns as it has records. -/
theorem World.persistPartitionRecords_returns (x : Externals) (names : Nat → SegmentName)
    (fuel : Nat) (w : World) (remaining : List SpanRecord) (receipts : List FlushReceipt)
    (hvalid : ∀ r ∈ remaining, recordPartitionKey r = partition)
    (hspread : Spread (max maxSpansPerSegment 1) []
      ((w.db.fresh remaining).map SpanRecord.eventKey))
    (hfuel : (w.db.fresh remaining).length < fuel) :
    ∃ w' receipts', World.persistPartitionRecords x maxSpansPerSegment partition names fuel w
      remaining receipts = some (w', .ok receipts') := by
  have hpos : 0 < max maxSpansPerSegment 1 := by omega
  induction fuel generalizing w remaining receipts with
  | zero => omega
  | succ fuel ih =>
    have hturn := World.persistTurn_fresh x maxSpansPerSegment w (names fuel) hvalid
    rw [World.persistPartitionRecords]
    generalize w.persistTurn x maxSpansPerSegment partition (names fuel) none remaining = result
      at hturn ⊢
    obtain ⟨w₁, turn⟩ := result
    dsimp only at hturn ⊢
    cases hturn with
    | finished hnone => exact ⟨w, receipts, rfl⟩
    | written w₁ receipt hne hnodup hevents =>
      rw [Db.spread_fresh hpos hevents] at hspread
      refine ih w₁ _ _ (fun r hr => hvalid r (mem_of_mem_fresh_drop hr)) hspread.2 ?_
      have hle : (w₁.db.fresh ((w.db.fresh remaining).drop (max maxSpansPerSegment 1))).length ≤
        _ := List.length_filter_le _ _
      have hlt := List.length_pos_iff.2 hne
      rw [List.length_drop] at hle
      omega
    | kept w₁ hne hdup hevents =>
      rw [spread_iff hpos, ← List.map_take] at hspread
      exact absurd hspread.1 hdup

/-- A batch that is persisted has its fresh keys spread. -/
theorem World.spread_of_persistPartitionRecords
    (hvalid : ∀ r ∈ remaining, recordPartitionKey r = partition)
    (h : World.persistPartitionRecords x maxSpansPerSegment partition names fuel w remaining
      receipts = some result) :
    Spread (max maxSpansPerSegment 1) [] ((w.db.fresh remaining).map SpanRecord.eventKey) := by
  have hpos : 0 < max maxSpansPerSegment 1 := by omega
  induction fuel generalizing w remaining receipts with
  | zero => cases h
  | succ fuel ih =>
    have hturn := World.persistTurn_fresh x maxSpansPerSegment w (names fuel) hvalid
    rw [World.persistPartitionRecords] at h
    generalize w.persistTurn x maxSpansPerSegment partition (names fuel) none remaining = turned
      at hturn h
    obtain ⟨w₁, turn⟩ := turned
    dsimp only at hturn h
    cases hturn with
    | finished hnone =>
      rw [hnone]
      trivial
    | written w₁ receipt hne hnodup hevents =>
      rw [Db.spread_fresh hpos hevents]
      exact ⟨hnodup, ih (fun r hr => hvalid r (mem_of_mem_fresh_drop hr)) h⟩
    | kept w₁ hne hdup hevents =>
      have hspread := ih (fun r hr => hvalid r (mem_of_mem_fresh hr)) h
      rw [Db.fresh_congr hevents, Db.fresh_idem] at hspread
      exact hspread

/-- What a finished batch leaves committed. -/
theorem World.persistPartitionRecords_commits
    (hvalid : ∀ r ∈ remaining, recordPartitionKey r = partition)
    (hkeys : (w.db.runEvents.map RunEvent.eventKey).Nodup)
    (h : World.persistPartitionRecords x maxSpansPerSegment partition names fuel w remaining
      receipts = some (w', .ok receipts')) :
    (w'.db.runEvents.map RunEvent.eventKey).Nodup ∧
      (∀ key, w.db.hasEventKey key → w'.db.hasEventKey key) ∧
      ∀ r ∈ remaining, w'.db.hasEventKey r.eventKey := by
  induction fuel generalizing w remaining receipts with
  | zero => cases h
  | succ fuel ih =>
    have hturn := World.persistTurn_fresh x maxSpansPerSegment w (names fuel) hvalid
    rw [World.persistPartitionRecords] at h
    generalize w.persistTurn x maxSpansPerSegment partition (names fuel) none remaining = turned
      at hturn h
    obtain ⟨w₁, turn⟩ := turned
    dsimp only at hturn h
    cases hturn with
    | finished hnone =>
      cases h
      refine ⟨hkeys, fun _ hkey => hkey, ?_⟩
      intro r hr
      by_contra hfree
      exact List.filter_eq_nil_iff.1 hnone r hr (decide_eq_true hfree)
    | written w₁ receipt hne hnodup hevents =>
      have hgrows := Db.hasEventKey_rowEvents hevents
      have hkeys₁ : (w₁.db.runEvents.map RunEvent.eventKey).Nodup := by
        rw [hevents, List.map_append, map_eventKey_rowEvents, List.nodup_append']
        refine ⟨hkeys, hnodup, ?_⟩
        intro key hold hnew
        obtain ⟨record, hrecord, rfl⟩ := List.mem_map.1 hnew
        have hfree := of_decide_eq_true (List.mem_filter.1 (List.mem_of_mem_take hrecord)).2
        exact hfree (List.mem_map.1 hold)
      obtain ⟨hkeys', hstay, hrest⟩ :=
        ih (fun r hr => hvalid r (mem_of_mem_fresh_drop hr)) hkeys₁ h
      refine ⟨hkeys', fun key hkey => hstay key ((hgrows key).2 (.inl hkey)), ?_⟩
      intro r hr
      by_cases hhas : w.db.hasEventKey r.eventKey
      · exact hstay _ ((hgrows _).2 (.inl hhas))
      · have hfresh : r ∈ w.db.fresh remaining := List.mem_filter.2 ⟨hr, decide_eq_true hhas⟩
        rw [← List.take_append_drop (max maxSpansPerSegment 1) (w.db.fresh remaining),
          List.mem_append] at hfresh
        rcases hfresh with htaken | hdropped
        · exact hstay _ ((hgrows _).2 (.inr (List.mem_map_of_mem htaken)))
        · exact hrest r hdropped
    | kept w₁ hne hdup hevents =>
      have hsame := Db.hasEventKey_congr hevents
      obtain ⟨hkeys', hstay, hrest⟩ := ih (fun r hr => hvalid r (mem_of_mem_fresh hr))
        (by rw [hevents]; exact hkeys) h
      refine ⟨hkeys', fun key hkey => hstay key ((hsame key).2 hkey), ?_⟩
      intro r hr
      by_cases hhas : w.db.hasEventKey r.eventKey
      · exact hstay _ ((hsame _).2 hhas)
      · exact hrest r (List.mem_filter.2 ⟨hr, decide_eq_true hhas⟩)

/-- A batch of one partition is persisted, each of its keys once, exactly if its fresh keys are
spread over windows of the segment size. -/
theorem persist_partition_records_returns (x : Externals) (maxSpansPerSegment : Nat)
    (partition : PartitionKey) (names : Nat → SegmentName) (w : World) (records : List SpanRecord)
    (hvalid : ∀ r ∈ records, recordPartitionKey r = partition)
    (hkeys : (w.db.runEvents.map RunEvent.eventKey).Nodup) :
    (∃ fuel w' receipts, World.persistPartitionRecords x maxSpansPerSegment partition names fuel w
        records [] = some (w', .ok receipts) ∧
      ∀ r ∈ records, (w'.db.runEvents.map RunEvent.eventKey).count r.eventKey = 1) ↔
    Spread (max maxSpansPerSegment 1) [] ((w.db.fresh records).map SpanRecord.eventKey) := by
  constructor
  · rintro ⟨fuel, w', receipts, h, -⟩
    exact World.spread_of_persistPartitionRecords hvalid h
  · intro hspread
    obtain ⟨w', receipts, h⟩ := World.persistPartitionRecords_returns x names _ w records []
      hvalid hspread (Nat.lt_succ_self _)
    obtain ⟨hnodup, -, hcommitted⟩ := World.persistPartitionRecords_commits hvalid hkeys h
    refine ⟨_, w', receipts, h, ?_⟩
    intro r hr
    exact List.count_eq_one_of_mem hnodup (Db.mem_eventKeys.2 (hcommitted r hr))

def sampleRepeat : List SpanRecord :=
  [.sample "t" "s" "a" .«end» 10 30, .sample "t" "s" "b" .«end» 10 30,
    .sample "t" "s" "a" .«end» 10 30]

/-- Windows of one record tell the repeat apart from its original. -/
theorem persist_partition_records_returns_repeat :
    ∃ fuel w' receipts,
      World.persistPartitionRecords .sample 1 ⟨"p", 0⟩ (fun i => ⟨i, i⟩) fuel World.empty
        sampleRepeat [] = some (w', .ok receipts) ∧
      ∀ r ∈ sampleRepeat, (w'.db.runEvents.map RunEvent.eventKey).count r.eventKey = 1 :=
  (persist_partition_records_returns .sample 1 ⟨"p", 0⟩ (fun i => ⟨i, i⟩) World.empty sampleRepeat
    (by decide +kernel) (by decide +kernel)).2 (by decide +kernel)

/-- A batch that holds a new record twice in one window is never persisted. -/
theorem persist_partition_records_diverges :
    ¬ ∃ fuel result, World.persistPartitionRecords .sample 2 ⟨"p", 0⟩ (fun i => ⟨i, i⟩) fuel
      World.empty [.sample "t" "s" "a" .«end» 10 30, .sample "t" "s" "a" .«end» 10 30] [] =
        some result := by
  rintro ⟨fuel, result, h⟩
  have hspread := World.spread_of_persistPartitionRecords (by decide +kernel) h
  revert hspread
  decide +kernel

end KevinDb
