import KevinDb.Thread.Tables

namespace KevinDb
set_option autoImplicit true
open Std

variable {tables tables' : ThreadTables} {db db' : Db} {p t p' t' th : String} {key : ThreadKey}
  {runs : List ThreadRunRow}

/-- The rows of a thread among the runs of a trace. -/
def ThreadTables.threadRuns (tables : ThreadTables) (db : Db)
    (projectName traceId threadId : String) : List ThreadRunRow :=
  ((tables.loadTraceThreadRuns db projectName traceId).filter fun run =>
    run.threadId = some threadId).insertionSort ThreadRunRow.before

/-- The row that `thread_traces` should have for a trace of a thread. -/
def ThreadTables.traceRow (tables : ThreadTables) (db : Db)
    (projectName traceId threadId : String) : Option ThreadTraceRow :=
  buildThreadTraceUpsert (tables.threadRuns db projectName traceId threadId)

/-- The rows of a trace are those of its live runs. -/
def ThreadTables.TraceFresh (tables : ThreadTables) (db : Db) (projectName traceId : String) :
    Prop :=
  ∀ threadId, tables.threadTraces[ThreadTraceKey.mk projectName threadId traceId]? =
    tables.traceRow db projectName traceId threadId

/-- Each thread sums up its traces, and none is without a trace. -/
def ThreadTables.Summed (tables : ThreadTables) : Prop :=
  ∀ key : ThreadKey, tables.threads[key]? =
    if tables.tracesOf key = [] then none else some (.ofTraces (tables.tracesOf key))

theorem buildThreadTraceUpsert_eq_none : buildThreadTraceUpsert runs = none ↔ runs = [] := by
  rw [buildThreadTraceUpsert, Option.map_eq_none_iff, List.head?_eq_none_iff]

/-- The runs of a thread are those that are under its id. -/
theorem map_snd_filter_threadId (runs : List ThreadRunRow) (th : String) :
    ((runs.filterMap fun run => run.threadId.map fun threadId => (threadId, run)).filter
      fun row => row.1 = th).map Prod.snd = runs.filter fun run => run.threadId = some th := by
  induction runs with
  | nil => rfl
  | cons run runs ih =>
    cases hthread : run.threadId with
    | none => simpa [hthread] using ih
    | some threadId =>
      by_cases heq : threadId = th
      · simpa [hthread, heq] using ih
      · simpa [hthread, heq] using ih

theorem get_runsByThread : (runsByThread runs)[th]? =
    if ∃ run ∈ runs, run.threadId = some th then
      some (runs.filter fun run => run.threadId = some th)
    else none := by
  have hexists : (∃ row ∈ runs.filterMap fun run => run.threadId.map fun threadId =>
      (threadId, run), row.1 = th) ↔ ∃ run ∈ runs, run.threadId = some th := by
    simp only [List.mem_filterMap, Option.map_eq_some_iff]
    constructor
    · rintro ⟨row, ⟨run, hrun, threadId, hthread, rfl⟩, rfl⟩
      exact ⟨run, hrun, hthread⟩
    · rintro ⟨run, hrun, hthread⟩
      exact ⟨(th, run), ⟨run, hrun, th, hthread, rfl⟩, rfl⟩
  rw [runsByThread, get_groupFold,
    ← List.foldl_map (f := Prod.snd) (g := fun group run => group ++ [run]),
    foldl_append_singleton, List.nil_append, map_snd_filter_threadId]
  simp only [hexists]

/-- The threads of the runs have runs. -/
theorem mem_keys_runsByThread :
    th ∈ (runsByThread runs).keys ↔ ∃ run ∈ runs, run.threadId = some th := by
  rw [TreeMap.mem_keys, TreeMap.mem_iff_isSome_getElem?, get_runsByThread]
  split
  · next h => exact iff_of_true rfl h
  · next h => exact iff_of_false nofun h

section Upserts

variable {entry : String × List ThreadRunRow} {entries : List (String × List ThreadRunRow)}

theorem ThreadTables.get_ensureThreadRow (key' : ThreadKey) :
    (tables.ensureThreadRow key).threads[key']? =
      if key = key' then some (tables.threads[key']?.getD .new) else tables.threads[key']? := by
  rw [ThreadTables.ensureThreadRow, Table.get_insert]
  split
  · next hkey => rw [hkey]
  · rfl

theorem ThreadTables.upsertThread_threads :
    (tables.upsertThread p t entry).threads = (tables.ensureThreadRow ⟨p, entry.1⟩).threads := by
  rw [ThreadTables.upsertThread]
  split
  · rfl
  · rfl

theorem ThreadTables.get_upsertThread_threadTraces (key : ThreadTraceKey) :
    (tables.upsertThread p t entry).threadTraces[key]? =
      if ThreadTraceKey.mk p entry.1 t = key then
        (buildThreadTraceUpsert (entry.2.insertionSort ThreadRunRow.before)).or
          tables.threadTraces[key]?
      else tables.threadTraces[key]? := by
  rw [ThreadTables.upsertThread]
  split
  · next hnone =>
    rw [hnone, Option.none_or, ite_self]
    rfl
  · next trace hsome =>
    rw [hsome, Option.some_or, ThreadTables.upsertThreadTrace, Table.get_insert]
    rfl

/-- What the tables keep of the runs. -/
def ThreadTables.SameRuns (tables tables' : ThreadTables) : Prop :=
  tables'.runTags = tables.runTags ∧ tables'.runMetadata = tables.runMetadata ∧
    tables'.runPreviews = tables.runPreviews

theorem ThreadTables.SameRuns.trans {tables'' : ThreadTables} (h : tables.SameRuns tables')
    (h' : tables'.SameRuns tables'') : tables.SameRuns tables'' :=
  ⟨h'.1.trans h.1, h'.2.1.trans h.2.1, h'.2.2.trans h.2.2⟩

theorem ThreadTables.upsertThread_runs : tables.SameRuns (tables.upsertThread p t entry) := by
  rw [ThreadTables.upsertThread]
  split
  · exact ⟨rfl, rfl, rfl⟩
  · exact ⟨rfl, rfl, rfl⟩

/-- The upserts of a trace leave the rows of the runs alone. -/
theorem ThreadTables.foldl_upsertThread_runs :
    tables.SameRuns (entries.foldl (ThreadTables.upsertThread p t) tables) := by
  induction entries generalizing tables with
  | nil => exact ⟨rfl, rfl, rfl⟩
  | cons entry entries ih => exact ThreadTables.upsertThread_runs.trans ih

/-- They make a row for each thread of the runs that has none. -/
theorem ThreadTables.get_foldl_upsertThread_threads (key : ThreadKey) :
    (entries.foldl (ThreadTables.upsertThread p t) tables).threads[key]? =
      if key.projectName = p ∧ key.threadId ∈ entries.map Prod.fst then
        some (tables.threads[key]?.getD .new)
      else tables.threads[key]? := by
  induction entries generalizing tables with
  | nil => simp
  | cons entry entries ih =>
    rw [List.foldl_cons, ih, ThreadTables.upsertThread_threads, ThreadTables.get_ensureThreadRow]
    obtain ⟨project, threadId⟩ := key
    simp only [ThreadKey.mk.injEq, List.map_cons, List.mem_cons]
    by_cases hp : p = project
    · subst hp
      by_cases hentry : entry.1 = threadId
      · subst hentry
        simp
      · simp only [hentry, and_false, if_false]
        refine if_congr ?_ rfl rfl
        simp [Ne.symm hentry]
    · simp [hp, Ne.symm hp]

/-- They leave the rows of other traces, and of threads that no run of the trace is in. -/
theorem ThreadTables.get_foldl_upsertThread_of_ne {key : ThreadTraceKey}
    (hkey : ∀ entry ∈ entries, ThreadTraceKey.mk p entry.1 t ≠ key) :
    (entries.foldl (ThreadTables.upsertThread p t) tables).threadTraces[key]? =
      tables.threadTraces[key]? := by
  induction entries generalizing tables with
  | nil => rfl
  | cons entry entries ih =>
    obtain ⟨hentry, hentries⟩ := List.forall_mem_cons.1 hkey
    rw [List.foldl_cons, ih hentries, ThreadTables.get_upsertThread_threadTraces, if_neg hentry]

/-- They write the row of a thread that runs of the trace are in. -/
theorem ThreadTables.get_foldl_upsertThread (hentries : (entries.map Prod.fst).Nodup)
    (hentry : (th, runs) ∈ entries) :
    (entries.foldl (ThreadTables.upsertThread p t) tables).threadTraces[ThreadTraceKey.mk p th t]? =
      (buildThreadTraceUpsert (runs.insertionSort ThreadRunRow.before)).or
        tables.threadTraces[ThreadTraceKey.mk p th t]? := by
  induction entries generalizing tables with
  | nil => cases hentry
  | cons entry entries ih =>
    rw [List.map_cons, List.nodup_cons] at hentries
    rw [List.foldl_cons]
    rcases List.mem_cons.1 hentry with rfl | hentry
    · rw [ThreadTables.get_foldl_upsertThread_of_ne, ThreadTables.get_upsertThread_threadTraces,
        if_pos rfl]
      intro other hother heq
      have hthread : other.1 = th := congrArg ThreadTraceKey.threadId heq
      exact hentries.1 (List.mem_map.2 ⟨other, hother, hthread⟩)
    · rw [ih hentries.2 hentry, ThreadTables.get_upsertThread_threadTraces, if_neg]
      intro heq
      have hthread : entry.1 = th := congrArg ThreadTraceKey.threadId heq
      exact hentries.1 (List.mem_map.2 ⟨_, hentry, hthread.symm⟩)

end Upserts

section Summaries

variable {threadIds : List String}

/-- The row that the update of a summary leaves of a row. -/
def ThreadTables.summary (tables : ThreadTables) (key : ThreadKey) (old : Option ThreadRow) :
    Option ThreadRow :=
  if tables.tracesOf key = [] then none else old.map fun _ => .ofTraces (tables.tracesOf key)

theorem ThreadTables.get_refreshThreadSummary (key' : ThreadKey) :
    (tables.refreshThreadSummary key).threads[key']? =
      if key = key' then tables.summary key' tables.threads[key']? else tables.threads[key']? := by
  by_cases hkey : key = key'
  · subst hkey
    rw [if_pos rfl, ThreadTables.refreshThreadSummary, ThreadTables.summary]
    split
    · rw [Table.get_erase, if_pos rfl]
    · rw [Table.get_modify, if_pos rfl]
  · rw [if_neg hkey, ThreadTables.refreshThreadSummary]
    split
    · rw [Table.get_erase, if_neg hkey]
    · rw [Table.get_modify, if_neg hkey]

theorem ThreadTables.refreshThreadSummary_threadTraces :
    (tables.refreshThreadSummary key).threadTraces = tables.threadTraces := by
  rw [ThreadTables.refreshThreadSummary]
  split
  · rfl
  · rfl

theorem ThreadTables.refreshThreadSummary_runs :
    tables.SameRuns (tables.refreshThreadSummary key) := by
  rw [ThreadTables.refreshThreadSummary]
  split
  · exact ⟨rfl, rfl, rfl⟩
  · exact ⟨rfl, rfl, rfl⟩

theorem ThreadTables.foldl_refreshThreadSummary_threadTraces :
    (threadIds.foldl (fun tables threadId => tables.refreshThreadSummary ⟨p, threadId⟩)
      tables).threadTraces = tables.threadTraces := by
  induction threadIds generalizing tables with
  | nil => rfl
  | cons threadId threadIds ih =>
    rw [List.foldl_cons, ih, ThreadTables.refreshThreadSummary_threadTraces]

theorem ThreadTables.foldl_refreshThreadSummary_runs :
    tables.SameRuns (threadIds.foldl (fun tables threadId =>
      tables.refreshThreadSummary ⟨p, threadId⟩) tables) := by
  induction threadIds generalizing tables with
  | nil => exact ⟨rfl, rfl, rfl⟩
  | cons threadId threadIds ih => exact ThreadTables.refreshThreadSummary_runs.trans ih

theorem ThreadTables.tracesOf_congr (h : tables'.threadTraces = tables.threadTraces)
    (key : ThreadKey) : tables'.tracesOf key = tables.tracesOf key := by
  rw [ThreadTables.tracesOf, ThreadTables.tracesOf, h]

theorem ThreadTables.summary_summary (old : Option ThreadRow) :
    tables.summary key (tables.summary key old) = tables.summary key old := by
  rw [ThreadTables.summary, ThreadTables.summary]
  split
  · rfl
  · rw [Option.map_map]
    rfl

/-- Each of the threads is summed up, and the others stay. -/
theorem ThreadTables.get_foldl_refreshThreadSummary (key : ThreadKey) :
    (threadIds.foldl (fun tables threadId => tables.refreshThreadSummary ⟨p, threadId⟩)
      tables).threads[key]? =
      if key.projectName = p ∧ key.threadId ∈ threadIds then
        tables.summary key tables.threads[key]?
      else tables.threads[key]? := by
  induction threadIds generalizing tables with
  | nil => simp
  | cons threadId threadIds ih =>
    have hsummary : (tables.refreshThreadSummary ⟨p, threadId⟩).summary key =
        tables.summary key := by
      funext old
      rw [ThreadTables.summary, ThreadTables.summary,
        ThreadTables.tracesOf_congr ThreadTables.refreshThreadSummary_threadTraces]
    rw [List.foldl_cons, ih, hsummary, ThreadTables.get_refreshThreadSummary]
    obtain ⟨project, other⟩ := key
    simp only [ThreadKey.mk.injEq, List.mem_cons]
    by_cases hp : p = project
    · subst hp
      by_cases hthread : threadId = other
      · subst hthread
        simp [ThreadTables.summary_summary]
      · simp only [hthread, and_false, if_false]
        refine if_congr ?_ rfl rfl
        simp [Ne.symm hthread]
    · simp [hp, Ne.symm hp]

end Summaries

theorem ThreadTables.SameRuns.loadTraceThreadRuns (h : tables.SameRuns tables') :
    tables'.loadTraceThreadRuns db p t = tables.loadTraceThreadRuns db p t := by
  obtain ⟨htags, hmetadata, hpreviews⟩ := h
  rw [ThreadTables.loadTraceThreadRuns, ThreadTables.loadTraceThreadRuns]
  have hrows : tables'.runRows = tables.runRows := by
    funext row
    rw [ThreadTables.runRows, ThreadTables.runRows, ThreadTables.joinedThreadIds,
      ThreadTables.joinedThreadIds, htags, hmetadata, hpreviews]
  rw [hrows]

theorem ThreadTables.SameRuns.traceRow (h : tables.SameRuns tables') :
    tables'.traceRow db p t th = tables.traceRow db p t th := by
  rw [ThreadTables.traceRow, ThreadTables.traceRow, ThreadTables.threadRuns,
    ThreadTables.threadRuns, h.loadTraceThreadRuns]

theorem ThreadTables.get_clearTrace (key : ThreadTraceKey) :
    (tables.clearTrace p t).threadTraces[key]? =
      if key.inTrace p t then none else tables.threadTraces[key]? := by
  rw [ThreadTables.clearTrace, TreeMap.getElem?_filter']
  split
  · next hin => simp [hin]
  · next hin =>
    rw [Bool.not_eq_true] at hin
    cases htrace : tables.threadTraces[key]? with
    | none => rfl
    | some trace => simp [hin]

/-- A refresh keeps the rows of the runs. -/
theorem ThreadTables.refreshTraceThreadMetadata_runs :
    tables.SameRuns (tables.refreshTraceThreadMetadata db p t) := by
  have hclear : tables.SameRuns (tables.clearTrace p t) := ⟨rfl, rfl, rfl⟩
  exact (hclear.trans ThreadTables.foldl_upsertThread_runs).trans
    ThreadTables.foldl_refreshThreadSummary_runs

/-- A refresh gives a trace the rows of its live runs, and leaves the rows of other traces. -/
theorem ThreadTables.get_refreshTraceThreadMetadata (key : ThreadTraceKey) :
    (tables.refreshTraceThreadMetadata db p t).threadTraces[key]? =
      if key.inTrace p t then tables.traceRow db p t key.threadId
      else tables.threadTraces[key]? := by
  have hclear : (tables.clearTrace p t).loadTraceThreadRuns db p t =
      tables.loadTraceThreadRuns db p t := ThreadTables.SameRuns.loadTraceThreadRuns ⟨rfl, rfl, rfl⟩
  rw [ThreadTables.refreshTraceThreadMetadata,
    ThreadTables.foldl_refreshThreadSummary_threadTraces, hclear]
  generalize hgroups : runsByThread (tables.loadTraceThreadRuns db p t) = groups
  split
  · next hin =>
    obtain ⟨hp, ht⟩ := of_decide_eq_true hin
    have hkey : key = ⟨p, key.threadId, t⟩ := by rw [← hp, ← ht]
    have hcleared : (tables.clearTrace p t).threadTraces[key]? = none := by
      rw [ThreadTables.get_clearTrace, if_pos hin]
    have hgroup := @get_runsByThread key.threadId (tables.loadTraceThreadRuns db p t)
    rw [hgroups] at hgroup
    rw [ThreadTables.traceRow, ThreadTables.threadRuns]
    split at hgroup
    · rw [hkey, ThreadTables.get_foldl_upsertThread (TreeMap.map_fst_toList_eq_keys ▸
          TreeMap.nodup_keys) (TreeMap.mem_toList_iff_getElem?_eq_some.2 hgroup), ← hkey, hcleared,
        Option.or_none]
    · next hnone =>
      have hempty : (tables.loadTraceThreadRuns db p t).filter
          (fun run => run.threadId = some key.threadId) = [] := by
        rw [List.filter_eq_nil_iff]
        exact fun run hrun hthread => hnone ⟨run, hrun, of_decide_eq_true hthread⟩
      rw [hempty, ThreadTables.get_foldl_upsertThread_of_ne, hcleared]
      · rfl
      · rintro ⟨threadId, group⟩ hentry rfl
        rw [TreeMap.mem_toList_iff_getElem?_eq_some, hgroup] at hentry
        cases hentry
  · next hin =>
    rw [ThreadTables.get_foldl_upsertThread_of_ne, ThreadTables.get_clearTrace, if_neg hin]
    rintro entry - rfl
    exact hin (decide_eq_true ⟨rfl, rfl⟩)

/-- The traces of a thread depend on its rows alone. -/
theorem ThreadTables.tracesOf_eq
    (h : ∀ row : ThreadTraceKey, row.thread = key →
      tables'.threadTraces[row]? = tables.threadTraces[row]?) :
    tables'.tracesOf key = tables.tracesOf key := by
  have hrows : (tables'.threadTraces.toList.filter fun row => row.1.thread = key) =
      tables.threadTraces.toList.filter fun row => row.1.thread = key := by
    apply Table.filter_toList_congr
    intro row trace hrow
    rw [h row (of_decide_eq_true hrow)]
  rw [ThreadTables.tracesOf, ThreadTables.tracesOf, hrows]

theorem ThreadTables.tracesOf_eq_nil : tables.tracesOf key = [] ↔
    ∀ row : ThreadTraceKey, row.thread = key → tables.threadTraces[row]? = none := by
  rw [ThreadTables.tracesOf, ← List.length_eq_zero_iff, List.length_insertionSort,
    List.length_map, List.length_eq_zero_iff, List.filter_eq_nil_iff]
  constructor
  · intro h row hrow
    by_contra hsome
    obtain ⟨trace, htrace⟩ := Option.ne_none_iff_exists'.1 hsome
    exact h (row, trace) (TreeMap.mem_toList_iff_getElem?_eq_some.2 htrace) (decide_eq_true hrow)
  · rintro h ⟨row, trace⟩ hmem hrow
    rw [TreeMap.mem_toList_iff_getElem?_eq_some, h row (of_decide_eq_true hrow)] at hmem
    cases hmem

/-- A trace has a row in the threads of its runs and no others. -/
theorem ThreadTables.traceRow_eq_none : tables.traceRow db p t th = none ↔
    ∀ run ∈ tables.loadTraceThreadRuns db p t, run.threadId ≠ some th := by
  rw [ThreadTables.traceRow, buildThreadTraceUpsert_eq_none, ThreadTables.threadRuns,
    ← List.length_eq_zero_iff, List.length_insertionSort, List.length_eq_zero_iff,
    List.filter_eq_nil_iff]
  simp only [decide_eq_true_eq, ne_eq]

theorem ThreadTables.mem_oldThreadIds : th ∈ tables.oldThreadIds p t ↔
    tables.threadTraces[ThreadTraceKey.mk p th t]? ≠ none := by
  rw [ThreadTables.oldThreadIds, List.mem_map, ← Option.isSome_iff_ne_none,
    ← TreeMap.mem_iff_isSome_getElem?, ← TreeMap.mem_keys]
  constructor
  · rintro ⟨key, hkey, rfl⟩
    obtain ⟨hmem, hin⟩ := List.mem_filter.1 hkey
    obtain ⟨rfl, rfl⟩ := of_decide_eq_true hin
    exact hmem
  · intro hmem
    exact ⟨_, List.mem_filter.2 ⟨hmem, decide_eq_true ⟨rfl, rfl⟩⟩, rfl⟩

/-- The threads of the runs of a trace. -/
def ThreadTables.newThreadIds (tables : ThreadTables) (db : Db) (projectName traceId : String) :
    List String :=
  (runsByThread (tables.loadTraceThreadRuns db projectName traceId)).keys

theorem ThreadTables.mem_newThreadIds : th ∈ tables.newThreadIds db p t ↔
    tables.traceRow db p t th ≠ none := by
  rw [ThreadTables.newThreadIds, mem_keys_runsByThread, ne_eq, ThreadTables.traceRow_eq_none]
  push Not
  rfl

/-- A refresh sums up the threads that it affects, with a row for each of those of the runs. -/
theorem ThreadTables.get_refreshTraceThreadMetadata_threads (key : ThreadKey) :
    (tables.refreshTraceThreadMetadata db p t).threads[key]? =
      if key.projectName = p ∧
          (key.threadId ∈ tables.oldThreadIds p t ∨ key.threadId ∈ tables.newThreadIds db p t) then
        (tables.refreshTraceThreadMetadata db p t).summary key
          (if key.threadId ∈ tables.newThreadIds db p t then some (tables.threads[key]?.getD .new)
          else tables.threads[key]?)
      else tables.threads[key]? := by
  have hclear : (tables.clearTrace p t).loadTraceThreadRuns db p t =
      tables.loadTraceThreadRuns db p t := ThreadTables.SameRuns.loadTraceThreadRuns ⟨rfl, rfl, rfl⟩
  have hsummary : (tables.refreshTraceThreadMetadata db p t).summary key =
      ((runsByThread (tables.loadTraceThreadRuns db p t)).toList.foldl
        (ThreadTables.upsertThread p t) (tables.clearTrace p t)).summary key := by
    have htraces : (tables.refreshTraceThreadMetadata db p t).threadTraces =
        ((runsByThread (tables.loadTraceThreadRuns db p t)).toList.foldl
          (ThreadTables.upsertThread p t) (tables.clearTrace p t)).threadTraces := by
      rw [ThreadTables.refreshTraceThreadMetadata,
        ThreadTables.foldl_refreshThreadSummary_threadTraces, hclear]
    funext old
    rw [ThreadTables.summary, ThreadTables.summary, ThreadTables.tracesOf_congr htraces]
  rw [hsummary, ThreadTables.refreshTraceThreadMetadata, hclear,
    ThreadTables.get_foldl_refreshThreadSummary, ThreadTables.get_foldl_upsertThread_threads,
    TreeMap.map_fst_toList_eq_keys]
  simp only [List.mem_insertionSort, List.mem_union_iff]
  change (if _ ∧ (_ ∨ _ ∈ tables.newThreadIds db p t) then
      ThreadTables.summary _ key (if _ ∧ _ ∈ tables.newThreadIds db p t then
        some (tables.threads[key]?.getD .new) else tables.threads[key]?) else
    if _ ∧ _ ∈ tables.newThreadIds db p t then _ else tables.threads[key]?) = _
  by_cases hp : key.projectName = p
  · by_cases hnew : key.threadId ∈ tables.newThreadIds db p t
    · simp only [hp, hnew, true_and, or_true, if_true]
    · simp only [hp, hnew, and_false, or_false, if_false]
  · simp only [hp, false_and, if_false]

/-- A refresh of a trace keeps the threads summed up. -/
theorem ThreadTables.Summed.refresh (h : tables.Summed) :
    (tables.refreshTraceThreadMetadata db p t).Summed := by
  intro key
  have hget := @ThreadTables.get_refreshTraceThreadMetadata tables db p t
  rw [ThreadTables.get_refreshTraceThreadMetadata_threads]
  split
  · next haffected =>
    rw [ThreadTables.summary]
    split
    · rfl
    · next htraces =>
      -- the thread has a row before the update: an old one, or one made for a run of the trace
      have hrow : (if key.threadId ∈ tables.newThreadIds db p t then
          some (tables.threads[key]?.getD .new) else tables.threads[key]?) ≠ none := by
        split
        · exact Option.some_ne_none _
        · next hnew =>
          rw [ThreadTables.mem_newThreadIds, not_ne_iff] at hnew
          rw [ThreadTables.tracesOf_eq_nil] at htraces
          push Not at htraces
          obtain ⟨row, hthread, hrow⟩ := htraces
          have hold : tables.tracesOf key ≠ [] := by
            rw [ne_eq, ThreadTables.tracesOf_eq_nil]
            intro hnone
            apply hrow
            rw [hget row]
            split
            · rwa [show row.threadId = key.threadId from congrArg ThreadKey.threadId hthread]
            · exact hnone row hthread
          rw [h key, if_neg hold]
          exact Option.some_ne_none _
      obtain ⟨old, hold⟩ := Option.ne_none_iff_exists'.1 hrow
      rw [hold]
      rfl
  · next haffected =>
    have hsame : (tables.refreshTraceThreadMetadata db p t).tracesOf key = tables.tracesOf key := by
      apply ThreadTables.tracesOf_eq
      rintro row rfl
      rw [hget row]
      split
      · next hin =>
        obtain ⟨hp, ht⟩ := of_decide_eq_true hin
        rw [ThreadTables.mem_oldThreadIds, ThreadTables.mem_newThreadIds] at haffected
        push Not at haffected
        obtain ⟨hold, hnew⟩ := haffected hp
        rw [← hp, ← ht] at hold hnew ⊢
        exact hnew.trans hold.symm
      · rfl
    rw [hsame, h key]

end KevinDb
