import KevinDb.Aggregate.Refresh
import KevinDb.Thread.Refresh

namespace KevinDb
set_option autoImplicit true
open Std

variable {tables tables' : ThreadTables} {db db' : Db} {p t th : String} {x : Externals}
  {reader : PayloadReader} {k : RunKey}

/-- Two stores have the same runs in a trace. -/
structure Db.SameTrace (projectName traceId : String) (db db' : Db) : Prop where
  heads (k : RunKey) (hk : k.inTrace projectName traceId) : db'.runHeads[k]? = db.runHeads[k]?
  deletions (k : RunKey) (hk : k.inTrace projectName traceId) :
    db'.runDeletions[k]? = db.runDeletions[k]?

/-- Two states of the thread tables have the same rows for a trace and its runs. -/
structure ThreadTables.SameTrace (projectName traceId : String) (tables tables' : ThreadTables) :
    Prop where
  tags (k : RunKey) (hk : k.inTrace projectName traceId) : tables'.runTags[k]? = tables.runTags[k]?
  metadata (k : RunKey) (hk : k.inTrace projectName traceId) :
    tables'.runMetadata[k]? = tables.runMetadata[k]?
  previews (k : RunKey) (hk : k.inTrace projectName traceId) :
    tables'.runPreviews[k]? = tables.runPreviews[k]?
  rows : tables'.threadTraces = tables.threadTraces

theorem Db.SameTrace.refl (p t : String) (db : Db) : Db.SameTrace p t db db :=
  ⟨fun _ _ => rfl, fun _ _ => rfl⟩

theorem Db.SameTrace.trans {db'' : Db} (h : Db.SameTrace p t db db')
    (h' : Db.SameTrace p t db' db'') : Db.SameTrace p t db db'' :=
  ⟨fun k hk => (h'.heads k hk).trans (h.heads k hk),
    fun k hk => (h'.deletions k hk).trans (h.deletions k hk)⟩

theorem ThreadTables.SameTrace.refl (p t : String) (tables : ThreadTables) :
    ThreadTables.SameTrace p t tables tables :=
  ⟨fun _ _ => rfl, fun _ _ => rfl, fun _ _ => rfl, rfl⟩

theorem ThreadTables.SameTrace.trans {tables'' : ThreadTables}
    (h : ThreadTables.SameTrace p t tables tables')
    (h' : ThreadTables.SameTrace p t tables' tables'') :
    ThreadTables.SameTrace p t tables tables'' :=
  ⟨fun k hk => (h'.tags k hk).trans (h.tags k hk),
    fun k hk => (h'.metadata k hk).trans (h.metadata k hk),
    fun k hk => (h'.previews k hk).trans (h.previews k hk), h'.rows.trans h.rows⟩

theorem Db.SameTrace.liveHeads (h : Db.SameTrace p t db db') :
    db'.liveHeads p t = db.liveHeads p t := by
  have hlive : ∀ row : RunKey × RunHead, (row.1.inTrace p t && db'.isLive row.1 row.2) =
      (row.1.inTrace p t && db.isLive row.1 row.2) := by
    intro row
    by_cases hin : row.1.inTrace p t
    · rw [Db.isLive, Db.isLive, h.deletions row.1 hin]
    · rw [Bool.not_eq_true _ |>.mp hin, Bool.false_and, Bool.false_and]
  rw [Db.liveHeads, Db.liveHeads]
  simp only [hlive]
  apply Table.filter_toList_congr
  intro k head hrow
  rw [h.heads k (Bool.and_eq_true _ _ |>.mp hrow).1]

theorem ThreadTables.SameTrace.threadIds (h : ThreadTables.SameTrace p t tables tables')
    (hk : k.inTrace p t) : tables'.joinedThreadIds k = tables.joinedThreadIds k := by
  rw [ThreadTables.joinedThreadIds, ThreadTables.joinedThreadIds, h.metadata k hk, h.tags k hk]

theorem ThreadTables.SameTrace.loadTraceThreadRuns (h : ThreadTables.SameTrace p t tables tables')
    (hdb : Db.SameTrace p t db db') :
    tables'.loadTraceThreadRuns db' p t = tables.loadTraceThreadRuns db p t := by
  rw [ThreadTables.loadTraceThreadRuns, ThreadTables.loadTraceThreadRuns, hdb.liveHeads]
  congr 1
  apply List.flatMap_congr
  intro row hrow
  have hin := (Bool.and_eq_true _ _ |>.mp (List.mem_filter.1 hrow).2).1
  rw [ThreadTables.runRows, ThreadTables.runRows, h.threadIds hin, h.previews row.1 hin]

/-- The rows of a trace stay fresh as long as its runs stay. -/
theorem ThreadTables.TraceFresh.of_same (h : tables.TraceFresh db p t)
    (htables : ThreadTables.SameTrace p t tables tables') (hdb : Db.SameTrace p t db db') :
    tables'.TraceFresh db' p t := by
  intro threadId
  rw [htables.rows, h threadId, ThreadTables.traceRow, ThreadTables.traceRow,
    ThreadTables.threadRuns, ThreadTables.threadRuns, htables.loadTraceThreadRuns hdb]

/-- A refresh makes the rows of its trace fresh, and those of other traces stay. -/
theorem ThreadTables.TraceFresh.refresh {p' t' : String}
    (h : (p, t) ≠ (p', t') → tables.TraceFresh db p t) :
    (tables.refreshTraceThreadMetadata db p' t').TraceFresh db p t := by
  intro threadId
  have hruns : tables.SameRuns (tables.refreshTraceThreadMetadata db p' t') :=
    ThreadTables.refreshTraceThreadMetadata_runs
  rw [ThreadTables.get_refreshTraceThreadMetadata, hruns.traceRow]
  split
  · next hin =>
    obtain ⟨rfl, rfl⟩ := of_decide_eq_true hin
    rfl
  · next hin =>
    apply h
    intro heq
    obtain ⟨rfl, rfl⟩ := Prod.mk.inj heq
    exact hin (decide_eq_true ⟨rfl, rfl⟩)

/-- Refreshes of the traces that are out of date bring all up to date. -/
theorem ThreadTables.TraceFresh.foldl_refresh (traces : List (String × String))
    (h : ∀ p t, (p, t) ∉ traces → tables.TraceFresh db p t) (p t : String) :
    (traces.foldl (fun tables trace => tables.refreshTraceThreadMetadata db trace.1 trace.2)
      tables).TraceFresh db p t := by
  induction traces generalizing tables with
  | nil => exact h p t List.not_mem_nil
  | cons trace traces ih =>
    apply ih
    intro p t hnot
    apply ThreadTables.TraceFresh.refresh
    intro hne
    apply h
    rw [List.mem_cons, not_or]
    exact ⟨hne, hnot⟩

theorem ThreadTables.Summed.foldl_refresh (traces : List (String × String)) (h : tables.Summed) :
    (traces.foldl (fun tables trace => tables.refreshTraceThreadMetadata db trace.1 trace.2)
      tables).Summed := by
  induction traces generalizing tables with
  | nil => exact h
  | cons trace traces ih => exact ih h.refresh

theorem ThreadTables.Summed.congr (h : tables.Summed) (hthreads : tables'.threads = tables.threads)
    (htraces : tables'.threadTraces = tables.threadTraces) : tables'.Summed := by
  intro key
  rw [hthreads, ThreadTables.tracesOf_congr htraces]
  exact h key

theorem RunKey.not_inTrace (h : (k.projectName, k.traceId) ≠ (p, t)) : ¬ k.inTrace p t := by
  intro hin
  obtain ⟨hp, ht⟩ := of_decide_eq_true hin
  exact h (by rw [hp, ht])

theorem Db.applyEvent_sameTrace {record : SpanRecord}
    (h : (db.applyEvent x segmentId rowIndex record).2 = false ∨
      (record.projectName, record.traceId) ≠ (p, t)) :
    Db.SameTrace p t db (db.applyEvent x segmentId rowIndex record).1 := by
  refine ⟨fun k hk => ?_, fun _ _ => rfl⟩
  rw [Db.applyEvent]
  dsimp only
  rcases h with h | h
  · rw [Table.upsert_of_not_updated h]
  · rw [Table.get_upsert, if_neg]
    rintro rfl
    exact RunKey.not_inTrace h hk

theorem ThreadTables.replaceRun_sameTrace {record : SpanRecord}
    (h : (record.projectName, record.traceId) ≠ (p, t)) :
    ThreadTables.SameTrace p t tables (tables.replaceRun reader record) := by
  have hne : ∀ k : RunKey, k.inTrace p t → record.runKey ≠ k := by
    rintro k hk rfl
    exact RunKey.not_inTrace h hk
  refine ⟨fun k hk => ?_, fun k hk => ?_, fun k hk => ?_, rfl⟩
  · exact (Table.get_insert _ _ _ _).trans (if_neg (hne k hk))
  · exact (Table.get_insert _ _ _ _).trans (if_neg (hne k hk))
  · exact (Table.get_insert _ _ _ _).trans (if_neg (hne k hk))

theorem ThreadTables.replaceRows_cons (record : SpanRecord) (records : List SpanRecord) :
    tables.replaceRows x reader segmentId db rowIndex (record :: records) =
      ThreadTables.replaceRows x reader segmentId (db.applyEvent x segmentId rowIndex record).1
        (rowIndex + 1) records (if (db.applyEvent x segmentId rowIndex record).2 then
          tables.replaceRun reader record else tables) :=
  rfl

/-- Replacing the rows of runs leaves the threads. -/
theorem ThreadTables.replaceRows_threads {records : List SpanRecord} :
    (tables.replaceRows x reader segmentId db rowIndex records).threads = tables.threads ∧
      (tables.replaceRows x reader segmentId db rowIndex records).threadTraces =
        tables.threadTraces := by
  induction records generalizing db rowIndex tables with
  | nil => exact ⟨rfl, rfl⟩
  | cons record records ih =>
    rw [ThreadTables.replaceRows_cons]
    split
    · exact ih
    · exact ih

/-- The rows of a segment only change the traces that are collected. -/
theorem Db.persistRows_sameTrace {records : List SpanRecord}
    {traces traces' : List (String × String)}
    (h : db.persistRows x segmentId rowIndex records traces = (db', some traces')) :
    traces ⊆ traces' ∧ ((p, t) ∉ traces' → Db.SameTrace p t db db') := by
  induction records generalizing db rowIndex traces with
  | nil =>
    cases h
    exact ⟨List.Subset.refl _, fun _ => .refl p t _⟩
  | cons record records ih =>
    rw [Db.persistRows] at h
    split at h
    · cases h
    · obtain ⟨hsub, hrest⟩ : (if (db.applyEvent x segmentId rowIndex record).2 then
            traces.insert (record.projectName, record.traceId) else traces) ⊆ traces' ∧
          ((p, t) ∉ traces' →
            Db.SameTrace p t (db.applyEvent x segmentId rowIndex record).1 db') := ih h
      refine ⟨?_, fun hnot => (Db.applyEvent_sameTrace ?_).trans (hrest hnot)⟩
      · intro trace htrace
        apply hsub
        split
        · exact List.mem_insert_of_mem htrace
        · exact htrace
      · cases hupdated : (db.applyEvent x segmentId rowIndex record).2 with
        | false => exact .inl rfl
        | true =>
          right
          rw [if_pos hupdated] at hsub
          rintro heq
          exact hnot (heq ▸ hsub (List.mem_insert_self ..))

/-- And so do the rows of the runs that are replaced. -/
theorem ThreadTables.replaceRows_sameTrace {records : List SpanRecord}
    {traces traces' : List (String × String)}
    (h : (db.persistRows x segmentId rowIndex records traces).2 = some traces')
    (hnot : (p, t) ∉ traces') : ThreadTables.SameTrace p t tables
      (tables.replaceRows x reader segmentId db rowIndex records) := by
  induction records generalizing db rowIndex traces tables with
  | nil => exact .refl p t _
  | cons record records ih =>
    rw [Db.persistRows] at h
    split at h
    · cases h
    · have hsub : (if (db.applyEvent x segmentId rowIndex record).2 then
          traces.insert (record.projectName, record.traceId) else traces) ⊆ traces' :=
        (Db.persistRows_sameTrace (p := p) (t := t) (Prod.ext rfl h)).1
      rw [ThreadTables.replaceRows_cons]
      refine ThreadTables.SameTrace.trans ?_ (ih h)
      split
      · next hupdated =>
        rw [if_pos hupdated] at hsub
        apply ThreadTables.replaceRun_sameTrace
        intro heq
        exact hnot (heq ▸ hsub (List.mem_insert_self ..))
      · exact .refl p t _

/-- A refresh of the tree of a trace leaves the other traces. -/
theorem Db.refreshTraceTreeMetadata_sameTrace {p' t' : String} (hne : (p', t') ≠ (p, t)) :
    Db.SameTrace p t db (db.refreshTraceTreeMetadata x p' t') := by
  refine ⟨fun k hk => ?_, fun _ _ => rfl⟩
  have hother : ∀ node : RunTreeIndexNode, RunKey.mk p' t' node.spanId ≠ k := by
    rintro node rfl
    exact RunKey.not_inTrace hne hk
  rw [Db.refreshTraceTreeMetadata]
  dsimp only
  generalize buildTraceTreeIndex _ = nodes
  generalize db.runHeads = heads
  induction nodes generalizing heads with
  | nil => rfl
  | cons node nodes ih => rw [List.foldl_cons, ih, Table.get_modify, if_neg (hother node)]

theorem Db.foldl_refresh_sameTrace {traces : List (String × String)} (hnot : (p, t) ∉ traces) :
    Db.SameTrace p t db
      (traces.foldl (fun db trace => db.refreshTraceTreeMetadata x trace.1 trace.2) db) := by
  induction traces generalizing db with
  | nil => exact .refl p t db
  | cons trace traces ih =>
    rw [List.mem_cons, not_or] at hnot
    exact (Db.refreshTraceTreeMetadata_sameTrace (Ne.symm hnot.1)).trans (ih hnot.2)

/-- A transaction only changes the traces that it collects. -/
theorem Db.CommitResult.sameTrace {records : List SpanRecord} (h : db.CommitResult x records db')
    (hnot : (p, t) ∉ (db.persistRows x db.nextTraceSegmentId 0 records []).2.getD []) :
    Db.SameTrace p t db db' := by
  cases h with
  | same other hdb =>
    subst hdb
    exact ⟨fun _ _ => rfl, fun _ _ => rfl⟩
  | committed partition uri searchUri hmetadata =>
    obtain ⟨first, -, hmetadata⟩ := Option.map_eq_some_iff.1 hmetadata
    dsimp only at hmetadata
    split at hmetadata
    · cases hmetadata
    · next db₁ traces hrows =>
      cases hmetadata
      have hsame : ((db.insertTraceSegment (.ofRecords first.projectName partition uri searchUri
            records)).persistRows x db.nextTraceSegmentId 0 records []).2 =
          (db.persistRows x db.nextTraceSegmentId 0 records []).2 := Db.persistRows_congr rfl rfl rfl
      rw [← hsame, hrows] at hnot
      have hinsert : Db.SameTrace p t db (db.insertTraceSegment (.ofRecords first.projectName
          partition uri searchUri records)) := ⟨fun _ _ => rfl, fun _ _ => rfl⟩
      exact (hinsert.trans ((Db.persistRows_sameTrace hrows).2 hnot)).trans
        (Db.foldl_refresh_sameTrace hnot)

theorem Db.deleteRunInTx_sameTrace
    (h : (db.deleteRunInTx x k time reason).2 = false ∨ (k.projectName, k.traceId) ≠ (p, t)) :
    Db.SameTrace p t db (db.deleteRunInTx x k time reason).1 := by
  unfold Db.deleteRunInTx at h ⊢
  split
  · exact .refl p t db
  next head hhead =>
    split
    · exact .refl p t db
    next hdeleted =>
      rw [hhead] at h
      dsimp only at h
      rw [if_neg hdeleted] at h
      have hne := h.resolve_left (Bool.noConfusion ·)
      refine Db.SameTrace.trans ⟨fun k' hk' => ?_, fun k' hk' => ?_⟩
        (Db.refreshTraceTreeMetadata_sameTrace hne)
      all_goals
        have hk : k ≠ k' := by
          rintro rfl
          exact RunKey.not_inTrace hne hk'
      · rw [Db.writeDeletion_eq]
        exact (Table.get_modify _ _ _ _).trans (if_neg hk)
      · rw [Db.writeDeletion_runDeletions, if_neg hk]

/-- The threads mirror the runs. -/
structure ThreadTables.Mirrors (tables : ThreadTables) (db : Db) : Prop where
  fresh (projectName traceId : String) : tables.TraceFresh db projectName traceId
  summed : tables.Summed

theorem ThreadTables.Mirrors.empty : ThreadTables.empty.Mirrors .empty where
  fresh p t th := by
    rw [ThreadTables.traceRow, buildThreadTraceUpsert_eq_none.2]
    · rfl
    · rfl
  summed key := rfl

/-- The refreshes of a transaction make up for what it changes. -/
theorem ThreadTables.Mirrors.persistMetadata {records : List SpanRecord} (h : tables.Mirrors db)
    (hcommit : db.CommitResult x records db') :
    (tables.persistMetadata x reader db db' records).Mirrors db' := by
  rw [ThreadTables.persistMetadata]
  split
  · next hnone =>
    refine ⟨fun p t => (h.fresh p t).of_same (.refl p t tables) ?_, h.summed⟩
    apply hcommit.sameTrace
    rw [hnone]
    exact List.not_mem_nil
  · next traces htraces =>
    obtain ⟨hthreads, hrows⟩ := @ThreadTables.replaceRows_threads tables db x reader
      db.nextTraceSegmentId 0 records
    refine ⟨?_, (h.summed.congr hthreads hrows).foldl_refresh traces⟩
    apply ThreadTables.TraceFresh.foldl_refresh
    intro p t hnot
    exact (h.fresh p t).of_same (ThreadTables.replaceRows_sameTrace htraces hnot)
      (hcommit.sameTrace (by rwa [htraces]))

theorem ThreadTables.Mirrors.deleteRun (h : tables.Mirrors db) (k : RunKey) (time : Int)
    (reason : Option String) : (tables.deleteRun (db.deleteRunInTx x k time reason) k).Mirrors
      (db.deleteRunInTx x k time reason).1 := by
  rw [ThreadTables.deleteRun]
  split
  · refine ⟨fun p t => ?_, h.summed.refresh⟩
    apply ThreadTables.TraceFresh.refresh
    intro hne
    exact (h.fresh p t).of_same (.refl p t tables) (Db.deleteRunInTx_sameTrace (.inr hne.symm))
  · next hflag =>
    refine ⟨fun p t => ?_, h.summed⟩
    exact (h.fresh p t).of_same (.refl p t tables)
      (Db.deleteRunInTx_sameTrace (.inl (Bool.eq_false_iff.2 hflag)))

theorem ThreadTables.Mirrors.expire (h : tables.Mirrors db) (projectName : String)
    (cutoff time : Int) :
    (tables.expire x db projectName cutoff time).1 =
        db.expireProjectRunsBefore x projectName cutoff time ∧
      (tables.expire x db projectName cutoff time).2.Mirrors
        (db.expireProjectRunsBefore x projectName cutoff time) := by
  rw [ThreadTables.expire, Db.expireProjectRunsBefore]
  generalize db.expiryCandidates projectName cutoff = candidates
  induction candidates generalizing db tables with
  | nil => exact ⟨rfl, h⟩
  | cons row candidates ih => exact ih (h.deleteRun row.1 time _)

def ThreadSystem.Mirrors (s : ThreadSystem) : Prop := s.tables.Mirrors s.system.world.db

theorem ThreadSystem.step_eq_some {s s' : ThreadSystem}
    (h : s.step x reader maxSpansPerSegment action = some s') :
    s.system.step x maxSpansPerSegment action = some s'.system ∧
      s'.tables = s.refreshed x reader maxSpansPerSegment s'.system action := by
  obtain ⟨after, hafter, rfl⟩ := Option.map_eq_some_iff.1 h
  exact ⟨hafter, rfl⟩

theorem ThreadSystem.Mirrors.step {s s' : ThreadSystem} (hs : s.Mirrors)
    (h : s.step x reader maxSpansPerSegment action = some s') : s'.Mirrors := by
  obtain ⟨hstep, htables⟩ := ThreadSystem.step_eq_some h
  rw [ThreadSystem.Mirrors, htables]
  generalize s'.system = after at hstep
  cases System.step_cases hstep with
  | ingest partition name records fault hfree huser =>
    exact ThreadTables.Mirrors.persistMetadata hs
      (World.persistSegment_commit x s.system.world partition name records fault)
  | delete k time reason => exact ThreadTables.Mirrors.deleteRun hs k time reason
  | expire projectName cutoff time =>
    exact (ThreadTables.Mirrors.expire hs projectName cutoff time).2
  | readIds projectName => exact hs
  | listRuns i runs listed execution hi hstage hlisted hperm => exact hs
  | persist i name fault execution partition records work world turn hi hstage hfree hturn =>
    rw [ThreadSystem.refreshed, System.committed_persist hi hstage]
    exact ThreadTables.Mirrors.persistMetadata hs hturn.commit
  | mark i time execution hi hstage =>
    refine ⟨fun p t => ?_, hs.summed⟩
    exact (hs.fresh p t).of_same (.refl p t _) ⟨fun _ _ => rfl, fun _ _ => rfl⟩
  | stop i => exact hs

theorem ThreadSystem.Mirrors.initial : ThreadSystem.initial.Mirrors := ThreadTables.Mirrors.empty

/-- In every reachable state the threads mirror the runs. -/
theorem ThreadSystem.Mirrors.run {s : ThreadSystem}
    (h : Transition.run (ThreadSystem.step x reader maxSpansPerSegment) .initial actions = some s) :
    s.Mirrors :=
  Transition.run_invariant_of_step ThreadSystem.Mirrors (fun _ _ _ hs hstep => hs.step hstep)
    .initial h

instance : Std.Total traceBefore := by
  constructor
  intro left right
  rcases Int.lt_trichotomy left.2.startTimeUnixNano right.2.startTimeUnixNano with h | h | h
  · exact .inl (.inl h)
  · rcases le_total left.1 right.1 with hid | hid
    · exact .inl (.inr ⟨h, hid⟩)
    · exact .inr (.inr ⟨h.symm, hid⟩)
  · exact .inr (.inl h)

instance : IsTrans TraceSummary traceBefore := by
  constructor
  rintro a b c (hab | ⟨hab, hab'⟩) (hbc | ⟨hbc, hbc'⟩)
  · exact .inl (hab.trans hbc)
  · exact .inl (hbc ▸ hab)
  · exact .inl (hab ▸ hbc)
  · exact .inr ⟨hab.trans hbc, hab'.trans hbc'⟩

/-- A trace of a thread with its row. -/
def ThreadTables.HasTrace (tables : ThreadTables) (key : ThreadKey) (trace : TraceSummary) : Prop :=
  tables.threadTraces[ThreadTraceKey.mk key.projectName key.threadId trace.1]? = some trace.2

theorem ThreadTables.mem_tracesOf {key : ThreadKey} {trace : TraceSummary} :
    trace ∈ tables.tracesOf key ↔ tables.HasTrace key trace := by
  rw [ThreadTables.tracesOf, List.mem_insertionSort, List.mem_map]
  constructor
  · rintro ⟨row, hrow, rfl⟩
    obtain ⟨hmem, hthread⟩ := List.mem_filter.1 hrow
    rw [← of_decide_eq_true hthread]
    exact TreeMap.mem_toList_iff_getElem?_eq_some.1 hmem
  · intro htrace
    refine ⟨⟨⟨key.projectName, key.threadId, trace.1⟩, trace.2⟩, List.mem_filter.2 ⟨?_, ?_⟩, rfl⟩
    · exact TreeMap.mem_toList_iff_getElem?_eq_some.2 htrace
    · exact decide_eq_true rfl

/-- What a row of `threads` says of the traces of the thread: how many there are, which comes first
and last, and when the earliest and the latest start. -/
structure ThreadRow.Describes (row : ThreadRow) (tables : ThreadTables) (key : ThreadKey) :
    Prop where
  count : row.count = (tables.threadTraces.keys.filter fun trace => trace.thread = key).length
  first : ∃ trace, tables.HasTrace key trace ∧ row.firstTraceId = some trace.1 ∧
    row.minStartTimeUnixNano = some trace.2.startTimeUnixNano ∧
    ∀ other, tables.HasTrace key other → traceBefore trace other
  last : ∃ trace, tables.HasTrace key trace ∧ row.lastTraceId = some trace.1 ∧
    row.maxStartTimeUnixNano = some trace.2.startTimeUnixNano ∧
    ∀ other, tables.HasTrace key other → traceBefore other trace

/-- A sorted list starts with the least of its elements. -/
theorem ThreadRow.describes_ofTraces {key : ThreadKey} (hne : tables.tracesOf key ≠ []) :
    (ThreadRow.ofTraces (tables.tracesOf key)).Describes tables key := by
  have hsorted : (tables.tracesOf key).Pairwise traceBefore :=
    List.pairwise_insertionSort traceBefore _
  refine ⟨?_, ?_, ?_⟩
  · rw [ThreadRow.ofTraces, ThreadTables.tracesOf, List.length_insertionSort, List.length_map,
      ← TreeMap.map_fst_toList_eq_keys, List.filter_map, List.length_map]
    rfl
  · obtain ⟨first, rest, htraces⟩ := List.exists_cons_of_ne_nil hne
    rw [ThreadRow.ofTraces, htraces]
    refine ⟨first, ThreadTables.mem_tracesOf.1 (htraces ▸ List.mem_cons_self), rfl, rfl, ?_⟩
    intro other hother
    rw [← ThreadTables.mem_tracesOf, htraces] at hother
    rw [htraces] at hsorted
    rcases List.mem_cons.1 hother with rfl | hother
    · exact (Std.Total.total (r := traceBefore) other other).elim id id
    · exact (List.pairwise_cons.1 hsorted).1 other hother
  · obtain ⟨rest, last, htraces⟩ := List.eq_nil_or_concat (tables.tracesOf key) |>.resolve_left hne
    rw [List.concat_eq_append] at htraces
    rw [ThreadRow.ofTraces, htraces]
    refine ⟨last, ThreadTables.mem_tracesOf.1 (htraces ▸ by simp), by simp, by simp, ?_⟩
    intro other hother
    rw [← ThreadTables.mem_tracesOf, htraces] at hother
    rw [htraces, List.pairwise_append] at hsorted
    rcases List.mem_append.1 hother with hother | hother
    · exact hsorted.2.2 other hother last (List.mem_singleton_self last)
    · rw [List.mem_singleton.1 hother]
      exact (Std.Total.total (r := traceBefore) last last).elim id id

/-- A run of the trace is live and in the thread. -/
def ThreadTables.InThread (tables : ThreadTables) (db : Db) (k : RunKey) (threadId : String) :
    Prop :=
  ∃ head, db.runHeads[k]? = some head ∧ db.isLive k head ∧ threadId ∈ tables.threadIds k

theorem Db.mem_liveHeads {row : RunKey × RunHead} : row ∈ db.liveHeads p t ↔
    row.1.inTrace p t ∧ db.runHeads[row.1]? = some row.2 ∧ db.isLive row.1 row.2 := by
  rw [Db.liveHeads, List.mem_filter, Bool.and_eq_true]
  exact (and_congr_left' TreeMap.mem_toList_iff_getElem?_eq_some).trans and_left_comm

theorem ThreadTables.exists_run_threadId :
    (∃ run ∈ tables.loadTraceThreadRuns db p t, run.threadId = some th) ↔
      ∃ spanId, tables.InThread db ⟨p, t, spanId⟩ th := by
  simp only [ThreadTables.loadTraceThreadRuns, List.mem_insertionSort, List.mem_flatMap]
  constructor
  · rintro ⟨run, ⟨⟨k, head⟩, hlive, hrun⟩, hthread⟩
    obtain ⟨hin, hhead, hshown⟩ := Db.mem_liveHeads.1 hlive
    obtain ⟨rfl, rfl⟩ := of_decide_eq_true hin
    obtain ⟨threadId, hmem, rfl⟩ := List.mem_map.1 hrun
    exact ⟨k.spanId, head, hhead, hshown, List.mem_filterMap.2 ⟨threadId, hmem, hthread⟩⟩
  · rintro ⟨spanId, head, hhead, hlive, hmem⟩
    obtain ⟨threadId, hmem, hthread⟩ := List.mem_filterMap.1 hmem
    exact ⟨_, ⟨(⟨p, t, spanId⟩, head), Db.mem_liveHeads.2 ⟨decide_eq_true ⟨rfl, rfl⟩, hhead, hlive⟩,
      List.mem_map_of_mem hmem⟩, hthread⟩

/-- In every reachable state the thread tables mirror the live runs: a trace has a row in a thread
exactly if one of its live runs is in the thread, a thread has a row exactly if it has a trace, and
its row says how many traces it has, which come first and last, and when they start. -/
theorem thread_tables_mirror_runs (x : Externals) (reader : PayloadReader)
    (maxSpansPerSegment : Nat) (actions : List Action) (s : ThreadSystem)
    (h : Transition.run (ThreadSystem.step x reader maxSpansPerSegment) .initial actions = some s) :
    (∀ p th t, ThreadTraceKey.mk p th t ∈ s.tables.threadTraces ↔
      ∃ spanId, s.tables.InThread s.system.world.db ⟨p, t, spanId⟩ th) ∧
    (∀ p th, ThreadKey.mk p th ∈ s.tables.threads ↔
      ∃ t, ThreadTraceKey.mk p th t ∈ s.tables.threadTraces) ∧
    ∀ (key : ThreadKey) (row : ThreadRow), s.tables.threads[key]? = some row →
      row.Describes s.tables key := by
  have hs := ThreadSystem.Mirrors.run h
  refine ⟨fun p th t => ?_, fun p th => ?_, fun key row hrow => ?_⟩
  · rw [← ThreadTables.exists_run_threadId, TreeMap.mem_iff_isSome_getElem?, hs.fresh p t th,
      Option.isSome_iff_ne_none, ne_eq, ThreadTables.traceRow_eq_none]
    push Not
    rfl
  · rw [TreeMap.mem_iff_isSome_getElem?, hs.summed ⟨p, th⟩]
    split
    · next hnone =>
      rw [ThreadTables.tracesOf_eq_nil] at hnone
      refine iff_of_false nofun ?_
      rintro ⟨t, htrace⟩
      rw [TreeMap.mem_iff_isSome_getElem?, hnone ⟨p, th, t⟩ rfl] at htrace
      cases htrace
    · next hsome =>
      obtain ⟨trace, htrace⟩ := List.exists_mem_of_ne_nil _ hsome
      refine iff_of_true rfl ⟨trace.1, ?_⟩
      rw [TreeMap.mem_iff_isSome_getElem?]
      exact Option.isSome_of_eq_some (ThreadTables.mem_tracesOf.1 htrace)
  · rw [hs.summed key] at hrow
    split at hrow
    · cases hrow
    · next hne =>
      cases hrow
      exact ThreadRow.describes_ofTraces hne

/-- A payload with a thread id. -/
def threadPayload : String := "\x7b\"metadata\":\x7b\"thread_id\":\"a\"\x7d\x7d"

/-- The JSON values of two payloads, and no previews. -/
def PayloadReader.sample : PayloadReader where
  parseAttributes text :=
    if text = threadPayload then .object [("metadata", .object [("thread_id", .string "a")])]
    else .object []
  numberText _ := ""
  runPreview _ := ⟨none, none, none, none⟩

/-- An ingest of one end event with a payload. -/
def ingestPayload (payload : String) : Action :=
  .ingest ⟨"p", 0⟩ ⟨1, 1⟩
    [{ SpanRecord.sample "t" "s" "n" .«end» 10 30 with attributesJson := payload }] none

/-- A run with a thread id makes a thread of one trace. -/
theorem thread_tables_mirror_runs_one :
    ∃ s row, Transition.run (ThreadSystem.step .sample .sample 1) .initial
        [ingestPayload threadPayload] = some s ∧
      s.tables.threads[ThreadKey.mk "p" "a"]? = some row ∧ row.count = 1 ∧
      row.Describes s.tables ⟨"p", "a"⟩ ∧
      ∃ spanId, s.tables.InThread s.system.world.db ⟨"p", "t", spanId⟩ "a" := by
  have hrun : (Transition.run (ThreadSystem.step .sample .sample 1) .initial
      [ingestPayload threadPayload]).map (fun s =>
        (s.tables.threads[ThreadKey.mk "p" "a"]?.map ThreadRow.count,
          s.tables.threadTraces[ThreadTraceKey.mk "p" "a" "t"]?.isSome)) = some (some 1, true) := by
    decide +kernel
  obtain ⟨s, hs, hrow⟩ := Option.map_eq_some_iff.1 hrun
  obtain ⟨hrow, htrace⟩ := Prod.mk.inj hrow
  obtain ⟨row, hrow, hcount⟩ := Option.map_eq_some_iff.1 hrow
  obtain ⟨hruns, -, hdescribes⟩ :=
    thread_tables_mirror_runs .sample .sample 1 [ingestPayload threadPayload] s hs
  obtain ⟨spanId, hthread⟩ :=
    (hruns "p" "a" "t").1 (TreeMap.mem_iff_isSome_getElem?.2 htrace)
  exact ⟨s, row, hs, hrow, hcount, hdescribes _ row hrow, spanId, hthread⟩

end KevinDb
