import KevinDb.Thread.Mirror

namespace KevinDb
set_option autoImplicit true
open Std

variable {tables tables' : ThreadTables} {db db' : Db} {p t th : String} {x : Externals}
  {reader : PayloadReader} {k : RunKey} {head : RunHead}

/-- The thread ids that the payload of a record gives its run, with their repetitions. -/
def SpanRecord.threadIds (reader : PayloadReader) (record : SpanRecord) : List String :=
  let attributes := reader.parseAttributes record.attributesJson
  (joinedThreadIds (extractMetadata reader attributes) (extractTags reader attributes)).filterMap id

/-- The record that each run gets its rows from in the loop of `persist_metadata`: the last one
that updates its head. -/
def Db.replacedRuns (x : Externals) (segmentId : Nat) :
    Db → Nat → List SpanRecord → Table RunKey SpanRecord → Table RunKey SpanRecord
  | _, _, [], replaced => replaced
  | db, rowIndex, record :: records, replaced =>
    let (db, updated) := db.applyEvent x segmentId rowIndex record
    Db.replacedRuns x segmentId db (rowIndex + 1) records
      (if updated then replaced.insert record.runKey record else replaced)

/-- The live runs that a step gives new rows get at most one thread id from them. -/
def ThreadSystem.JoinsOnce (x : Externals) (reader : PayloadReader) (maxSpansPerSegment : Nat)
    (s : ThreadSystem) (action : Action) : Prop :=
  ∀ (k : RunKey) (record : SpanRecord), s.system.world.db.runDeletions[k]? = none →
    (s.system.world.db.replacedRuns x s.system.world.db.nextTraceSegmentId 0
      (s.system.committed maxSpansPerSegment action) ∅)[k]? = some record →
    (record.threadIds reader).length ≤ 1

/-- Each live run is in at most one thread, once, and the rows of `thread_traces` sum up the live
runs of their thread. -/
structure ThreadTables.CountsOnce (tables : ThreadTables) (db : Db) : Prop where
  once (k : RunKey) (head : RunHead) (hhead : db.runHeads[k]? = some head)
    (hlive : db.isLive k head) : (tables.threadIds k).length ≤ 1
  totals (p t th : String) (row : ThreadTraceRow)
    (hrow : tables.threadTraces[ThreadTraceKey.mk p th t]? = some row) :
    row.totals = .sum (((db.liveHeads p t).filter fun run => th ∈ tables.threadIds run.1).map
      fun run => run.2.threadTotals)

theorem ThreadTotals.sum_perm {totals totals' : List ThreadTotals} (h : totals.Perm totals') :
    ThreadTotals.sum totals = ThreadTotals.sum totals' := by
  rw [ThreadTotals.sum, ThreadTotals.sum, total_perm (h.filterMap promptTokens),
    total_perm (h.filterMap completionTokens), total_perm (h.filterMap totalTokens),
    total_perm (h.filterMap promptCost), total_perm (h.filterMap completionCost),
    total_perm (h.filterMap totalCost)]

/-- Of at most one value, a given one is found at most once. -/
theorem filter_some_of_length_le_one {values : List (Option String)}
    (h : (values.filterMap id).length ≤ 1) :
    values.filter (fun value => value = some th) =
      if th ∈ values.filterMap id then [some th] else [] := by
  induction values with
  | nil => rfl
  | cons value values ih =>
    cases value with
    | none => simpa using ih h
    | some other =>
      have hcons : (some other :: values).filterMap id = other :: values.filterMap id := rfl
      rw [hcons, List.length_cons] at h
      have hnil : values.filterMap id = [] := by
        rw [← List.length_eq_zero_iff]
        omega
      have hrest := ih (by rw [hnil]; exact Nat.zero_le 1)
      rw [hnil, if_neg List.not_mem_nil] at hrest
      rw [hcons, hnil, List.filter_cons, hrest]
      by_cases heq : other = th
      · subst heq
        simp
      · simp [heq, Ne.symm heq]

/-- A run in at most one thread has one row there. -/
theorem ThreadTables.runRows_totals {row : RunKey × RunHead}
    (h : (tables.threadIds row.1).length ≤ 1) :
    ((tables.runRows row).filter fun run => run.threadId = some th).map ThreadRunRow.totals =
      if th ∈ tables.threadIds row.1 then [row.2.threadTotals] else [] := by
  have hthread : (tables.joinedThreadIds row.1).filter (fun threadId => threadId = some th) =
      if th ∈ tables.threadIds row.1 then [some th] else [] := filter_some_of_length_le_one h
  rw [ThreadTables.runRows, List.filter_map, List.map_map]
  change ((tables.joinedThreadIds row.1).filter fun threadId => threadId = some th).map
    (fun _ => row.2.threadTotals) = _
  rw [hthread]
  split
  · rfl
  · rfl

theorem ThreadTables.flatMap_runRows_totals {rows : List (RunKey × RunHead)}
    (h : ∀ row ∈ rows, (tables.threadIds row.1).length ≤ 1) :
    ((rows.flatMap tables.runRows).filter fun run => run.threadId = some th).map
        ThreadRunRow.totals =
      (rows.filter fun run => th ∈ tables.threadIds run.1).map fun run => run.2.threadTotals := by
  induction rows with
  | nil => rfl
  | cons row rows ih =>
    obtain ⟨hrow, hrows⟩ := List.forall_mem_cons.1 h
    rw [List.flatMap_cons, List.filter_append, List.map_append, ih hrows,
      ThreadTables.runRows_totals hrow, List.filter_cons]
    by_cases hth : th ∈ tables.threadIds row.1
    · simp [hth]
    · simp [hth]

/-- The row of a thread has the totals of its runs. -/
theorem ThreadTables.traceRow_totals {row : ThreadTraceRow}
    (h : ∀ run ∈ db.liveHeads p t, (tables.threadIds run.1).length ≤ 1)
    (hrow : tables.traceRow db p t th = some row) :
    row.totals = .sum (((db.liveHeads p t).filter fun run => th ∈ tables.threadIds run.1).map
      fun run => run.2.threadTotals) := by
  have htotals : row.totals =
      .sum ((tables.threadRuns db p t th).map ThreadRunRow.totals) := by
    obtain ⟨first, -, rfl⟩ := Option.map_eq_some_iff.1 hrow
    rfl
  rw [htotals, ← ThreadTables.flatMap_runRows_totals h]
  apply ThreadTotals.sum_perm
  apply List.Perm.map
  apply (List.perm_insertionSort _ _).trans
  apply List.Perm.filter
  exact List.perm_insertionSort _ _

theorem ThreadTables.SameRuns.threadIds (h : tables.SameRuns tables') (k : RunKey) :
    tables'.threadIds k = tables.threadIds k := by
  rw [ThreadTables.threadIds, ThreadTables.threadIds, ThreadTables.joinedThreadIds,
    ThreadTables.joinedThreadIds, h.1, h.2.1]

theorem ThreadTables.foldl_refresh_runs (traces : List (String × String)) :
    tables.SameRuns (traces.foldl (fun tables trace =>
      tables.refreshTraceThreadMetadata db trace.1 trace.2) tables) := by
  induction traces generalizing tables with
  | nil => exact ⟨rfl, rfl, rfl⟩
  | cons trace traces ih => exact ThreadTables.refreshTraceThreadMetadata_runs.trans ih

theorem ThreadTables.threadIds_replaceRun {record : SpanRecord} :
    (tables.replaceRun reader record).threadIds k =
      if record.runKey = k then record.threadIds reader else tables.threadIds k := by
  rw [ThreadTables.threadIds, ThreadTables.joinedThreadIds, ThreadTables.replaceRun]
  dsimp only
  rw [Table.get_insert, Table.get_insert]
  split
  · rfl
  · rfl

theorem Db.replacedRuns_cons (record : SpanRecord) (records : List SpanRecord)
    (replaced : Table RunKey SpanRecord) :
    db.replacedRuns x segmentId rowIndex (record :: records) replaced =
      Db.replacedRuns x segmentId (db.applyEvent x segmentId rowIndex record).1 (rowIndex + 1)
        records (if (db.applyEvent x segmentId rowIndex record).2 then
          replaced.insert record.runKey record else replaced) :=
  rfl

/-- A run has the thread ids of its last record, or those it had. -/
theorem ThreadTables.threadIds_replaceRows {before : ThreadTables} {records : List SpanRecord}
    {replaced : Table RunKey SpanRecord}
    (h : tables.threadIds k =
      (replaced[k]?.map (SpanRecord.threadIds reader)).getD (before.threadIds k)) :
    (tables.replaceRows x reader segmentId db rowIndex records).threadIds k =
      ((db.replacedRuns x segmentId rowIndex records replaced)[k]?.map
        (SpanRecord.threadIds reader)).getD (before.threadIds k) := by
  induction records generalizing db rowIndex tables replaced with
  | nil => exact h
  | cons record records ih =>
    rw [ThreadTables.replaceRows_cons, Db.replacedRuns_cons]
    apply ih
    split
    · rw [ThreadTables.threadIds_replaceRun, Table.get_insert]
      split
      · rfl
      · exact h
    · exact h

/-- The runs that are not deleted are in at most one thread. -/
def ThreadSystem.OneThread (s : ThreadSystem) : Prop :=
  ∀ k, s.system.world.db.runDeletions[k]? = none → (s.tables.threadIds k).length ≤ 1

/-- Deletions stay. -/
theorem System.undeleted_of_step {s s' : System} (h : s.step x maxSpansPerSegment action = some s')
    (hk : s'.world.db.runDeletions[k]? = none) : s.world.db.runDeletions[k]? = none := by
  generalize hworld : s'.world = w' at hk
  have hstep := System.storeStep h
  rw [hworld] at hstep
  cases hstep with
  | write action w' hwrites => rwa [hwrites.runDeletions] at hk
  | delete k' time reason => exact ((Db.deleteRunInTx_deletes x _ k' time reason).undeleted k hk).1
  | expire projectName cutoff time =>
    exact ((Db.expireProjectRunsBefore_deletes x _ projectName cutoff time).undeleted k hk).1
  | mark action ids time => exact hk

theorem ThreadTables.deleteRun_runs (deleted : Db × Bool) (k : RunKey) :
    tables.SameRuns (tables.deleteRun deleted k) := by
  rw [ThreadTables.deleteRun]
  split
  · exact ThreadTables.refreshTraceThreadMetadata_runs
  · exact ⟨rfl, rfl, rfl⟩

theorem ThreadTables.expire_runs (projectName : String) (cutoff time : Int) :
    tables.SameRuns (tables.expire x db projectName cutoff time).2 := by
  rw [ThreadTables.expire]
  generalize db.expiryCandidates projectName cutoff = candidates
  induction candidates generalizing db tables with
  | nil => exact ⟨rfl, rfl, rfl⟩
  | cons row candidates ih => exact (ThreadTables.deleteRun_runs _ row.1).trans ih

/-- What a step makes of the thread ids of a run. -/
theorem ThreadSystem.threadIds_refreshed (s : ThreadSystem) (after : System) (action : Action)
    (k : RunKey) :
    (s.refreshed x reader maxSpansPerSegment after action).threadIds k = s.tables.threadIds k ∨
      ∃ record, (s.system.world.db.replacedRuns x s.system.world.db.nextTraceSegmentId 0
          (s.system.committed maxSpansPerSegment action) ∅)[k]? = some record ∧
        (s.refreshed x reader maxSpansPerSegment after action).threadIds k =
          record.threadIds reader := by
  have hpersist : ∀ records,
      (s.tables.persistMetadata x reader s.system.world.db after.world.db records).threadIds k =
          s.tables.threadIds k ∨
        ∃ record, (s.system.world.db.replacedRuns x s.system.world.db.nextTraceSegmentId 0
            records ∅)[k]? = some record ∧
          (s.tables.persistMetadata x reader s.system.world.db after.world.db records).threadIds
            k = record.threadIds reader := by
    intro records
    rw [ThreadTables.persistMetadata]
    split
    · exact .inl rfl
    · have hrows : (s.tables.replaceRows x reader s.system.world.db.nextTraceSegmentId
          s.system.world.db 0 records).threadIds k =
            ((s.system.world.db.replacedRuns x s.system.world.db.nextTraceSegmentId 0 records
              ∅)[k]?.map (SpanRecord.threadIds reader)).getD (s.tables.threadIds k) :=
        ThreadTables.threadIds_replaceRows rfl
      rw [(ThreadTables.foldl_refresh_runs _).threadIds, hrows]
      cases hrecord : (s.system.world.db.replacedRuns x s.system.world.db.nextTraceSegmentId 0
          records ∅)[k]? with
      | none => exact .inl rfl
      | some record => exact .inr ⟨record, rfl, rfl⟩
  cases action with
  | ingest => exact hpersist _
  | persist => exact hpersist _
  | delete k' time reason => exact .inl ((ThreadTables.deleteRun_runs _ k').threadIds k)
  | expire projectName cutoff time =>
    exact .inl ((ThreadTables.expire_runs projectName cutoff time).threadIds k)
  | _ => exact .inl rfl

theorem ThreadSystem.OneThread.step {s s' : ThreadSystem} (hs : s.OneThread)
    (hjoins : s.JoinsOnce x reader maxSpansPerSegment action)
    (h : s.step x reader maxSpansPerSegment action = some s') : s'.OneThread := by
  obtain ⟨hstep, htables⟩ := ThreadSystem.step_eq_some h
  intro k hk
  have hk' := System.undeleted_of_step hstep hk
  rw [htables]
  rcases s.threadIds_refreshed s'.system action k with hsame | ⟨record, hrecord, hthreads⟩
  · rw [hsame]
    exact hs k hk'
  · rw [hthreads]
    exact hjoins k record hk' hrecord

theorem ThreadTables.Mirrors.countsOnce (h : tables.Mirrors db)
    (hone : ∀ k, db.runDeletions[k]? = none → (tables.threadIds k).length ≤ 1) :
    tables.CountsOnce db := by
  have hlive : ∀ k head, db.isLive k head → (tables.threadIds k).length ≤ 1 := by
    intro k head hlive
    rw [Db.isLive, Bool.and_eq_true, Option.isNone_iff_eq_none, Option.isNone_iff_eq_none] at hlive
    exact hone k hlive.2
  refine ⟨fun k head _ => hlive k head, fun p t th row hrow => ?_⟩
  rw [h.fresh p t th] at hrow
  refine ThreadTables.traceRow_totals (fun run hrun => ?_) hrow
  exact hlive run.1 run.2 (Db.mem_liveHeads.1 hrun).2.2

/-- In every run whose steps join no live run with more than one thread id, each live run is in at
most one thread, and the totals of a trace in a thread are the sums over its live runs there. -/
theorem thread_totals_count_once (x : Externals) (reader : PayloadReader) (maxSpansPerSegment : Nat)
    (actions : List Action) (s : ThreadSystem)
    (h : Transition.run (ThreadSystem.step x reader maxSpansPerSegment) .initial actions = some s)
    (hjoins : Transition.Meets (ThreadSystem.step x reader maxSpansPerSegment)
      (ThreadSystem.JoinsOnce x reader maxSpansPerSegment) .initial actions) :
    s.tables.CountsOnce s.system.world.db := by
  have hinitial : ThreadSystem.initial.OneThread := fun _ _ => Nat.zero_le 1
  have hone : s.OneThread :=
    Transition.run_invariant ThreadSystem.OneThread
      (fun _ _ _ hs hcond hstep => hs.step hcond hstep) hinitial hjoins h
  exact ThreadTables.Mirrors.countsOnce (ThreadSystem.Mirrors.run h) hone

/-- A payload with five tokens, a thread id, and two session ids in different places. -/
def repeatedPayload : String :=
  "\x7b\"metadata\":\x7b\"thread_id\":\"a\",\"session_id\":\"b\"\x7d," ++
    "\"extra\":\x7b\"metadata\":\x7b\"session_id\":\"c\"\x7d\x7d," ++
    "\"metrics\":\x7b\"total_tokens\":5\x7d\x7d"

/-- The JSON values of `repeatedPayload` and of the payloads that `PayloadReader.sample` reads. -/
def PayloadReader.repeats : PayloadReader where
  parseAttributes text :=
    if text = repeatedPayload then
      .object [
        ("metadata", .object [("thread_id", .string "a"), ("session_id", .string "b")]),
        ("extra", .object [("metadata", .object [("session_id", .string "c")])]),
        ("metrics", .object [("total_tokens", .number (.integer 5))])]
    else PayloadReader.sample.parseAttributes text
  numberText _ := ""
  runPreview _ := ⟨none, none, none, none⟩

/-- The metrics of `repeatedPayload`, and no counts of tokens elsewhere. -/
def Externals.repeats : Externals where
  newV5 := Externals.sample.newV5
  typedRunMetrics record :=
    { Externals.sample.typedRunMetrics record with
      totalTokens := if record.attributesJson = repeatedPayload then some 5 else none }

/-- An ingest of a payload with one thread id joins its run with no other. -/
theorem ThreadSystem.joinsOnce_ingestPayload :
    ThreadSystem.initial.JoinsOnce .repeats .repeats 1 (ingestPayload threadPayload) := by
  intro k record _ hrecord
  have hall : ((ThreadSystem.initial.system.world.db.replacedRuns .repeats
      ThreadSystem.initial.system.world.db.nextTraceSegmentId 0
      (ThreadSystem.initial.system.committed 1 (ingestPayload threadPayload)) ∅).toList.all
        fun row => (row.2.threadIds .repeats).length ≤ 1) = true := by
    decide +kernel
  simp only [List.all_eq_true, decide_eq_true_eq] at hall
  exact hall (k, record) (TreeMap.mem_toList_iff_getElem?_eq_some.2 hrecord)

/-- A run with one thread id is counted once. -/
theorem thread_totals_count_once_one :
    ∃ s, Transition.run (ThreadSystem.step .repeats .repeats 1) .initial
        [ingestPayload threadPayload] = some s ∧
      s.tables.threadTraces.keys = [⟨"p", "a", "t"⟩] ∧ s.tables.CountsOnce s.system.world.db := by
  have hrun : (Transition.run (ThreadSystem.step .repeats .repeats 1) .initial
      [ingestPayload threadPayload]).map (fun s => s.tables.threadTraces.keys) =
        some [⟨"p", "a", "t"⟩] := by
    decide +kernel
  obtain ⟨s, hs, hkeys⟩ := Option.map_eq_some_iff.1 hrun
  have hmeets : Transition.Meets (ThreadSystem.step .repeats .repeats 1)
      (ThreadSystem.JoinsOnce .repeats .repeats 1) .initial [ingestPayload threadPayload] :=
    ⟨ThreadSystem.joinsOnce_ingestPayload, fun _ _ => True.intro⟩
  exact ⟨s, hs, hkeys, thread_totals_count_once .repeats .repeats 1 _ s hs hmeets⟩

/-- A run with two session ids besides its thread id is counted twice. -/
theorem thread_totals_count_twice :
    ∃ s row, Transition.run (ThreadSystem.step .repeats .repeats 1) .initial
        [ingestPayload repeatedPayload] = some s ∧
      s.tables.threadTraces[ThreadTraceKey.mk "p" "a" "t"]? = some row ∧
      row.totals.totalTokens = some 10 ∧
      (s.system.world.db.liveHeads "p" "t").map (fun run => run.2.threadTotals.totalTokens) =
        [some 5] ∧
      ¬ s.tables.CountsOnce s.system.world.db := by
  have hrun : (Transition.run (ThreadSystem.step .repeats .repeats 1) .initial
      [ingestPayload repeatedPayload]).map (fun s =>
        (s.tables.threadTraces[ThreadTraceKey.mk "p" "a" "t"]?.map fun row =>
            row.totals.totalTokens,
          ((s.system.world.db.liveHeads "p" "t").map fun run => run.2.threadTotals.totalTokens),
          (ThreadTotals.sum (((s.system.world.db.liveHeads "p" "t").filter fun run =>
            "a" ∈ s.tables.threadIds run.1).map fun run => run.2.threadTotals)).totalTokens)) =
      some (some (some 10), [some 5], some 5) := by
    decide +kernel
  obtain ⟨s, hs, hvalues⟩ := Option.map_eq_some_iff.1 hrun
  obtain ⟨hrow, hvalues⟩ := Prod.mk.inj hvalues
  obtain ⟨hruns, hsum⟩ := Prod.mk.inj hvalues
  obtain ⟨row, hrow, htokens⟩ := Option.map_eq_some_iff.1 hrow
  refine ⟨s, row, hs, hrow, htokens, hruns, fun hcounts => ?_⟩
  rw [hcounts.totals _ _ _ row hrow, hsum] at htokens
  exact absurd htokens (by decide)

end KevinDb
