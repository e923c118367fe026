import KevinDb.Query.RootFilter
import KevinDb.Thread.Listing

namespace KevinDb
set_option autoImplicit true
open Std

/-- The times that threads are listed by are there, in 64 bits. -/
structure ThreadTables.Listable (tables : ThreadTables) : Prop where
  traces : ∀ row ∈ tables.threadTraces.toList,
    i64Min ≤ row.2.startTimeUnixNano ∧ row.2.startTimeUnixNano ≤ i64Max
  threads : ∀ row ∈ tables.threads.toList, ∃ start, row.2.maxStartTimeUnixNano = some start ∧
    i64Min ≤ start ∧ start ≤ i64Max

/-- The rows of `thread_traces` that a query is about. -/
def ThreadTables.matchingTraces (engine : QueryEngine) (db : Db) (tables : ThreadTables)
    (query : ThreadTraceQuery) (sql : Option HeadPredicate) : List ThreadTraceSummary :=
  (tables.threadTraces.toList.filter (query.admits engine db sql)).map .ofRow

/-- The rows of `threads` that a query is about. -/
def ThreadTables.matchingThreads (engine : QueryEngine) (db : Db) (tables : ThreadTables)
    (query : ThreadListQuery) (sql : Option HeadPredicate) : List ThreadSummary :=
  (tables.threads.toList.filter (query.admits engine db tables sql)).map .ofRow

instance (collation : Collation) : TransCmp collation.compare := collation.transCmp

instance (collation : Collation) : LawfulEqCmp collation.compare := collation.lawfulEqCmp

section pages

variable {collation : Collation} {engine : QueryEngine} {db : Db} {tables : ThreadTables}
  {sql : Option HeadPredicate}

theorem transCmp_of (f : α → β) (cmp : β → β → Ordering) [TransCmp cmp] :
    TransCmp fun a b => cmp (f a) (f b) where
  eq_swap := OrientedCmp.eq_swap
  isLE_trans := TransCmp.isLE_trans

instance : TransCmp (ThreadTraceSummary.compare collation) :=
  have := transCmp_of ThreadTraceSummary.traceId collation.compare
  inferInstanceAs (TransCmp (compareLex _ _))

instance : TransCmp (ThreadSummary.compare collation) :=
  have := transCmp_of ThreadSummary.threadId collation.compare
  have := transCmp_of ThreadSummary.maxStartTimeUnixNano fun left right => Ord.compare right left
  inferInstanceAs (TransCmp (compareLex _ _))

theorem decodeCursor_encodeCursor {kind : String} (hkind : ':' ∉ kind.toList) {time : Int}
    (htime : i64Min ≤ time ∧ time ≤ i64Max) (id invalid invalidTime : String) :
    decodeCursor kind invalid invalidTime (encodeCursor kind time id) = .ok (time, id) := by
  have htext : (encodeCursor kind time id).toList =
      kind.toList ++ ':' :: ((toString time).toList ++ ':' :: id.toList) := by
    rw [encodeCursor]
    simp only [String.toList_append, List.append_assoc]
    rfl
  have hdigits : ':' ∉ (toString time).toList := not_mem_toString_int rfl (by decide) time
  rw [decodeCursor, htext, splitN_cons hkind, splitN_cons hdigits, splitN]
  dsimp only
  rw [if_pos rfl, String.ofList_toList, parseI64_toString htime]
  dsimp only
  rw [String.ofList_toList]

theorem TraceCursor.decode_encode (cursor : TraceCursor)
    (htime : i64Min ≤ cursor.startTimeUnixNano ∧ cursor.startTimeUnixNano ≤ i64Max) :
    TraceCursor.decode cursor.encode = .ok cursor := by
  rw [TraceCursor.decode, TraceCursor.encode, decodeCursor_encodeCursor (by decide) htime]
  rfl

theorem ThreadCursor.decode_encode (cursor : ThreadCursor)
    (htime : i64Min ≤ cursor.maxStartTimeUnixNano ∧ cursor.maxStartTimeUnixNano ≤ i64Max) :
    ThreadCursor.decode cursor.encode = .ok cursor := by
  rw [ThreadCursor.decode, ThreadCursor.encode, decodeCursor_encodeCursor (by decide) htime]
  rfl

theorem equalsLiteral_iff {column value : String} : equalsLiteral column value ↔ value = column := by
  rw [equalsLiteral, literalValue_sqlStringLiteral, decide_eq_true_iff, Option.some.injEq]

theorem Collation.afterLiteral_iff {column value : String} :
    collation.afterLiteral column value ↔ collation.compare value column = .lt := by
  rw [Collation.afterLiteral, literalValue_sqlStringLiteral, Option.any_some, decide_eq_true_iff]
  exact OrientedCmp.gt_iff_lt

/-- The predicate for the cursor of a row is the order of the listing. -/
theorem TraceCursor.admits_ofSummary (trace : ThreadTraceSummary)
    (row : ThreadTraceKey × ThreadTraceRow) :
    (TraceCursor.ofSummary trace).admits collation row =
      decide (ThreadTraceSummary.compare collation trace (.ofRow row) = .lt) := by
  rw [Bool.eq_iff_iff, decide_eq_true_iff, ThreadTraceSummary.compare, compareLex,
    Ordering.then_eq_lt, compareOn, compare_lt_iff_lt, LawfulEqCmp.compare_eq_iff_eq, TraceCursor.admits,
    Bool.or_eq_true, Bool.and_eq_true, decide_eq_true_iff, decide_eq_true_iff,
    Collation.afterLiteral_iff, eq_comm]
  rfl

theorem ThreadCursor.admits_ofSummary {thread : ThreadSummary} {cursor : ThreadCursor}
    (hcursor : ThreadCursor.ofSummary thread = some cursor) {row : ThreadKey × ThreadRow}
    (hrow : row.2.maxStartTimeUnixNano.isSome) :
    cursor.admits collation row =
      decide (ThreadSummary.compare collation thread (.ofRow row) = .lt) := by
  obtain ⟨start, hstart, rfl⟩ := Option.map_eq_some_iff.1 hcursor
  obtain ⟨start', hstart'⟩ := Option.isSome_iff_exists.1 hrow
  have hcompare : Ord.compare row.2.maxStartTimeUnixNano thread.maxStartTimeUnixNano =
      Ord.compare start' start := by
    rw [hstart, hstart']
    rfl
  rw [Bool.eq_iff_iff, decide_eq_true_iff, ThreadSummary.compare, compareLex,
    Ordering.then_eq_lt]
  change _ ↔ Ord.compare row.2.maxStartTimeUnixNano thread.maxStartTimeUnixNano = _ ∨
    Ord.compare row.2.maxStartTimeUnixNano thread.maxStartTimeUnixNano = _ ∧ _
  rw [hcompare, compare_lt_iff_lt, LawfulEqCmp.compare_eq_iff_eq, ThreadCursor.admits, hstart',
    Option.any_some, Bool.or_eq_true, Bool.and_eq_true, decide_eq_true_iff, decide_eq_true_iff,
    Collation.afterLiteral_iff]
  rfl

theorem ThreadTables.matchingTraces_distinct (query : ThreadTraceQuery) :
    (tables.matchingTraces engine db query sql).Pairwise fun left right =>
      ThreadTraceSummary.compare collation left right ≠ .eq := by
  rw [ThreadTables.matchingTraces, List.pairwise_map]
  apply (TreeMap.distinct_keys_toList.filter _).imp_of_mem
  intro left right hleft hright hne heq
  have hleft := (List.mem_filter.1 hleft).2
  have hright := (List.mem_filter.1 hright).2
  simp only [ThreadTraceQuery.admits, Bool.and_eq_true, equalsLiteral_iff] at hleft hright
  rw [ThreadTraceSummary.compare, compareLex_eq_eq] at heq
  have htrace : left.1.traceId = right.1.traceId := LawfulEqCmp.eq_of_compare heq.2
  have hkeys : left.1 = right.1 := by
    obtain ⟨⟨hproject, hthread⟩, -⟩ := hleft
    obtain ⟨⟨hproject', hthread'⟩, -⟩ := hright
    cases hkey : left.1
    cases hkey' : right.1
    simp_all
  rw [hkeys] at hne
  exact hne ReflCmp.compare_self

theorem ThreadTables.matchingThreads_distinct (query : ThreadListQuery) :
    (tables.matchingThreads engine db query sql).Pairwise fun left right =>
      ThreadSummary.compare collation left right ≠ .eq := by
  rw [ThreadTables.matchingThreads, List.pairwise_map]
  apply (TreeMap.distinct_keys_toList.filter _).imp_of_mem
  intro left right hleft hright hne heq
  have hleft := (List.mem_filter.1 hleft).2
  have hright := (List.mem_filter.1 hright).2
  simp only [ThreadListQuery.admits, Bool.and_eq_true, equalsLiteral_iff] at hleft hright
  rw [ThreadSummary.compare, compareLex_eq_eq] at heq
  have hthread : left.1.threadId = right.1.threadId := LawfulEqCmp.eq_of_compare heq.2
  have hkeys : left.1 = right.1 := by
    obtain ⟨⟨⟨hproject, -⟩, -⟩, -⟩ := hleft
    obtain ⟨⟨⟨hproject', -⟩, -⟩, -⟩ := hright
    cases hkey : left.1
    cases hkey' : right.1
    simp_all
  rw [hkeys] at hne
  exact hne ReflCmp.compare_self

/-- The pages of a listing whose filter compiles, from the rows in order. -/
theorem ThreadTables.listThreadTraces_first {query : ThreadTraceQuery}
    (hsql : listingFilterSql engine.formats query.projectName query.filter = .ok sql) :
    tables.listThreadTraces engine collation db { query with cursor := none } =
      .ok (pageThreadTraceRows (normalizedPageSize query.pageSize)
        ((ordered (ThreadTraceSummary.compare collation)
          (tables.matchingTraces engine db query sql)).take
            (normalizedPageSize query.pageSize + 1))) := by
  have hrows : tables.queryThreadTraceRows engine collation db { query with cursor := none }
      (normalizedPageSize query.pageSize + 1) =
        .ok ((ordered (ThreadTraceSummary.compare collation)
          (tables.matchingTraces engine db query sql)).take
            (normalizedPageSize query.pageSize + 1)) := by
    rw [ThreadTables.queryThreadTraceRows, hsql]
    exact congrArg (fun rows => Except.ok ((ordered _ (List.map _ rows)).take _))
      (List.filter_congr fun row _ => Bool.and_true (query.admits engine db sql row))
  rw [ThreadTables.listThreadTraces, hrows]
  rfl

theorem ThreadTables.listThreadTraces_after {query : ThreadTraceQuery} {trace : ThreadTraceSummary}
    (hsql : listingFilterSql engine.formats query.projectName query.filter = .ok sql)
    (htime : i64Min ≤ trace.startTimeUnixNano ∧ trace.startTimeUnixNano ≤ i64Max) :
    tables.listThreadTraces engine collation db
        { query with cursor := some (TraceCursor.ofSummary trace).encode } =
      .ok (pageThreadTraceRows (normalizedPageSize query.pageSize)
        ((ordered (ThreadTraceSummary.compare collation)
          ((tables.matchingTraces engine db query sql).filter fun row =>
            ThreadTraceSummary.compare collation trace row = .lt)).take
              (normalizedPageSize query.pageSize + 1))) := by
  have hrows : tables.queryThreadTraceRows engine collation db
      { query with cursor := some (TraceCursor.ofSummary trace).encode }
      (normalizedPageSize query.pageSize + 1) =
        .ok ((ordered (ThreadTraceSummary.compare collation)
          ((tables.matchingTraces engine db query sql).filter fun row =>
            ThreadTraceSummary.compare collation trace row = .lt)).take
              (normalizedPageSize query.pageSize + 1)) := by
    have hdecode : TraceCursor.decode (TraceCursor.ofSummary trace).encode =
        .ok (TraceCursor.ofSummary trace) :=
      TraceCursor.decode_encode _ htime
    rw [ThreadTables.queryThreadTraceRows, hsql, ThreadTables.matchingTraces, List.filter_map,
      List.filter_filter]
    dsimp only
    rw [hdecode]
    simp only [Function.comp_def, ← TraceCursor.admits_ofSummary, Bool.and_comm]
    rfl
  rw [ThreadTables.listThreadTraces, hrows]
  rfl

theorem ThreadTables.listThreads_first {query : ThreadListQuery}
    (hsql : listingFilterSql engine.formats query.projectName query.filter = .ok sql) :
    tables.listThreads engine collation db { query with cursor := none } =
      .ok (pageThreadRows (normalizedPageSize query.pageSize)
        ((ordered (ThreadSummary.compare collation)
          (tables.matchingThreads engine db query sql)).take
            (normalizedPageSize query.pageSize + 1))) := by
  have hrows : tables.queryThreadRows engine collation db { query with cursor := none }
      (normalizedPageSize query.pageSize + 1) =
        .ok ((ordered (ThreadSummary.compare collation)
          (tables.matchingThreads engine db query sql)).take
            (normalizedPageSize query.pageSize + 1)) := by
    rw [ThreadTables.queryThreadRows, hsql]
    exact congrArg (fun rows => Except.ok ((ordered _ (List.map _ rows)).take _))
      (List.filter_congr fun row _ => Bool.and_true (query.admits engine db tables sql row))
  rw [ThreadTables.listThreads, hrows]
  rfl

theorem ThreadTables.listThreads_after {query : ThreadListQuery} {thread : ThreadSummary}
    {cursor : ThreadCursor} (hthreads : ∀ row ∈ tables.threads.toList,
      row.2.maxStartTimeUnixNano.isSome)
    (hsql : listingFilterSql engine.formats query.projectName query.filter = .ok sql)
    (hcursor : ThreadCursor.ofSummary thread = some cursor)
    (htime : i64Min ≤ cursor.maxStartTimeUnixNano ∧ cursor.maxStartTimeUnixNano ≤ i64Max) :
    tables.listThreads engine collation db { query with cursor := some cursor.encode } =
      .ok (pageThreadRows (normalizedPageSize query.pageSize)
        ((ordered (ThreadSummary.compare collation)
          ((tables.matchingThreads engine db query sql).filter fun row =>
            ThreadSummary.compare collation thread row = .lt)).take
              (normalizedPageSize query.pageSize + 1))) := by
  have hfilter : (tables.threads.toList.filter fun row =>
      query.admits engine db tables sql row && cursor.admits collation row) =
        tables.threads.toList.filter fun row =>
          decide (ThreadSummary.compare collation thread (.ofRow row) = .lt) &&
            query.admits engine db tables sql row := by
    apply List.filter_congr
    intro row hrow
    rw [ThreadCursor.admits_ofSummary hcursor (hthreads row hrow), Bool.and_comm]
  have hrows : tables.queryThreadRows engine collation db
      { query with cursor := some cursor.encode } (normalizedPageSize query.pageSize + 1) =
        .ok ((ordered (ThreadSummary.compare collation)
          ((tables.matchingThreads engine db query sql).filter fun row =>
            ThreadSummary.compare collation thread row = .lt)).take
              (normalizedPageSize query.pageSize + 1)) := by
    rw [ThreadTables.queryThreadRows, hsql, ThreadTables.matchingThreads, List.filter_map,
      List.filter_filter]
    dsimp only
    rw [ThreadCursor.decode_encode cursor htime]
    simp only [Function.comp_def, ← hfilter]
    rfl
  rw [ThreadTables.listThreads, hrows]
  rfl

theorem normalizedPageSize_pos (pageSize : Nat) : 0 < normalizedPageSize pageSize :=
  Nat.lt_of_lt_of_le Nat.zero_lt_one (Nat.le_max_left 1 _)

theorem ThreadTables.Listable.enumerates_traces (htables : tables.Listable)
    {query : ThreadTraceQuery}
    (hsql : listingFilterSql engine.formats query.projectName query.filter = .ok sql) :
    Enumerates (fun cursor =>
        tables.listThreadTraces engine collation db { query with cursor := cursor })
      (ThreadTraceSummary.compare collation) (tables.matchingTraces engine db query sql) := by
  apply enumerates_of_keyset (normalizedPageSize_pos query.pageSize)
    (ThreadTables.matchingTraces_distinct query) (ThreadTables.listThreadTraces_first hsql)
  intro trace htrace
  obtain ⟨row, hrow, rfl⟩ := List.mem_map.1 htrace
  exact ⟨_, rfl, ThreadTables.listThreadTraces_after hsql
    (htables.traces row (List.mem_of_mem_filter hrow))⟩

theorem ThreadTables.Listable.enumerates_threads (htables : tables.Listable)
    {query : ThreadListQuery}
    (hsql : listingFilterSql engine.formats query.projectName query.filter = .ok sql) :
    Enumerates (fun cursor =>
        tables.listThreads engine collation db { query with cursor := cursor })
      (ThreadSummary.compare collation) (tables.matchingThreads engine db query sql) := by
  apply enumerates_of_keyset (normalizedPageSize_pos query.pageSize)
    (ThreadTables.matchingThreads_distinct query) (ThreadTables.listThreads_first hsql)
  intro thread hthread
  obtain ⟨row, hrow, rfl⟩ := List.mem_map.1 hthread
  obtain ⟨start, hstart, htime⟩ := htables.threads row (List.mem_of_mem_filter hrow)
  have hcursor : ThreadCursor.ofSummary (.ofRow row) = some ⟨start, row.1.threadId⟩ :=
    congrArg (Option.map _) hstart
  refine ⟨_, congrArg (Option.map ThreadCursor.encode) hcursor, ?_⟩
  apply ThreadTables.listThreads_after _ hsql hcursor htime
  intro row hrow
  obtain ⟨start, hstart, -⟩ := htables.threads row hrow
  exact Option.isSome_of_eq_some hstart

/-- The pages of the traces of a thread, and those of the threads, show each matching row once and
in order, and cursors are read as they were written. -/
theorem thread_pages_exact (collation : Collation) (engine : QueryEngine) (db : Db)
    (tables : ThreadTables) (htables : tables.Listable) :
    (∀ (query : ThreadTraceQuery) (sql : Option HeadPredicate),
      listingFilterSql engine.formats query.projectName query.filter = .ok sql →
        Enumerates (fun cursor =>
            tables.listThreadTraces engine collation db { query with cursor := cursor })
          (ThreadTraceSummary.compare collation) (tables.matchingTraces engine db query sql)) ∧
    (∀ (query : ThreadListQuery) (sql : Option HeadPredicate),
      listingFilterSql engine.formats query.projectName query.filter = .ok sql →
        Enumerates (fun cursor =>
            tables.listThreads engine collation db { query with cursor := cursor })
          (ThreadSummary.compare collation) (tables.matchingThreads engine db query sql)) ∧
    (∀ cursor : TraceCursor, i64Min ≤ cursor.startTimeUnixNano ∧ cursor.startTimeUnixNano ≤ i64Max →
      TraceCursor.decode cursor.encode = .ok cursor) ∧
    ∀ cursor : ThreadCursor,
      i64Min ≤ cursor.maxStartTimeUnixNano ∧ cursor.maxStartTimeUnixNano ≤ i64Max →
        ThreadCursor.decode cursor.encode = .ok cursor :=
  ⟨fun _ _ hsql => htables.enumerates_traces hsql, fun _ _ hsql => htables.enumerates_threads hsql,
    TraceCursor.decode_encode, ThreadCursor.decode_encode⟩

end pages

/-- The order of texts by code points. -/
def Collation.codePoints : Collation := ⟨Ord.compare, inferInstance, inferInstance⟩

/-- A thread with two traces that start together before the epoch. -/
def ThreadTables.twoTraces : ThreadTables :=
  let trace : ThreadTraceRow := ⟨"r", "s", "n", -5, 10, 15, ⟨none, none, none, none⟩, .sum []⟩
  { ThreadTables.empty with
    threadTraces := ((∅ : Table ThreadTraceKey ThreadTraceRow).insert ⟨"p", "it's", "a:b"⟩
      trace).insert ⟨"p", "it's", "c'd"⟩ trace
    threads := (∅ : Table ThreadKey ThreadRow).insert ⟨"p", "it's"⟩
      (.ofTraces [("a:b", trace), ("c'd", trace)]) }

theorem thread_pages_exact_two :
    Enumerates (fun cursor => ThreadTables.twoTraces.listThreadTraces .sample .codePoints .empty
        ⟨"p", "it's", none, 1, cursor⟩) (ThreadTraceSummary.compare .codePoints)
      (ThreadTables.twoTraces.matchingTraces .sample .empty ⟨"p", "it's", none, 1, none⟩ none) ∧
    (ThreadTables.twoTraces.matchingTraces .sample .empty ⟨"p", "it's", none, 1, none⟩
      none).length = 2 := by
  have hthreads : ThreadTables.twoTraces.threads.toList.all fun row =>
      row.2.maxStartTimeUnixNano = some (-5) := by
    decide +kernel
  have htables : ThreadTables.twoTraces.Listable := by
    constructor
    · decide +kernel
    · intro row hrow
      exact ⟨-5, of_decide_eq_true (List.all_eq_true.1 hthreads row hrow), by decide, by decide⟩
  exact ⟨(thread_pages_exact .codePoints .sample .empty .twoTraces htables).1
    ⟨"p", "it's", none, 1, none⟩ none rfl, by decide +kernel⟩

end KevinDb
