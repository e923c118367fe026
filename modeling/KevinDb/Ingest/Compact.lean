import KevinDb.Query.List
import KevinDb.Lib.Text

namespace KevinDb
set_option autoImplicit true

def compactionBatchKey (segmentIds : List Nat) : String :=
  ",".intercalate (segmentIds.map toString)

def compactionIdempotencyKey (run : RunSummary) (batchKey : String) : String :=
  ":".intercalate ["compact", batchKey, run.projectName, run.traceId, run.spanId,
    toString run.startTimeUnixNano, toString run.endTimeUnixNano, run.status.asStr,
    attributesHash run.attributesJson]

/-- The copy of a run that compaction ingests. -/
def spanRecordFromRunSummary (run : RunSummary) (batchKey : String) : SpanRecord where
  projectName := run.projectName
  runId := run.runId.getD ""
  traceId := run.traceId
  spanId := run.spanId
  parentRunId := run.parentRunId
  parentSpanId := run.parentSpanId
  name := run.name
  runType := run.runType
  startTimeUnixNano := run.startTimeUnixNano
  endTimeUnixNano := run.endTimeUnixNano
  statusCode :=
    if run.status = .error then 2
    else if run.endTimeUnixNano = 0 then 0
    else 1
  eventKind := .compact
  attributesJson := run.attributesJson
  idempotencyKey := some (compactionIdempotencyKey run batchKey)

def Db.activeProjectSegmentIds (db : Db) (projectName : String) : List Nat :=
  (db.traceSegments.toList.filter fun row =>
    row.2.projectName = projectName ∧ row.2.compactedAtUnixNano = none).map Prod.fst

def TraceSegment.setCompacted (compactedAtUnixNano : Int) (segment : TraceSegment) :
    TraceSegment :=
  if segment.compactedAtUnixNano = none then
    { segment with compactedAtUnixNano := some compactedAtUnixNano }
  else segment

def Db.markSegmentsCompacted (db : Db) (segmentIds : List Nat) (compactedAtUnixNano : Int) : Db :=
  { db with
    traceSegments := segmentIds.foldl
      (fun segments id => segments.modify id (TraceSegment.setCompacted compactedAtUnixNano))
      db.traceSegments }

theorem not_mem_compactionBatchKey (ids : List Nat) :
    ':' ∉ (compactionBatchKey ids).toList := by
  induction ids with
  | nil => simp [compactionBatchKey]
  | cons id ids ih =>
    cases ids with
    | nil => simpa [compactionBatchKey] using not_mem_toString_nat (c := ':') rfl id
    | cons next ids =>
      have hid := not_mem_toString_nat (c := ':') rfl id
      simp only [compactionBatchKey, List.map_cons, String.intercalate_cons_cons,
        String.toList_append, List.mem_append, not_or] at ih ⊢
      exact ⟨⟨hid, by decide⟩, ih⟩

theorem compactionBatchKey_injective (hne : ids ≠ []) (hne' : ids' ≠ [])
    (h : compactionBatchKey ids = compactionBatchKey ids') : ids = ids' := by
  have hsplit : ∀ ids : List Nat, ids ≠ [] →
      (compactionBatchKey ids).toList.splitOn ',' = ids.map fun id => (toString id).toList := by
    intro ids hne
    rw [compactionBatchKey, String.toList_intercalate, List.map_map]
    refine List.splitOn_intercalate ',' ?_ (by simpa using hne)
    intro digits hdigits
    obtain ⟨id, -, rfl⟩ := List.mem_map.1 hdigits
    exact not_mem_toString_nat rfl id
  have h := (hsplit ids hne).symm.trans ((congrArg _ (congrArg _ h)).trans (hsplit ids' hne'))
  refine List.map_injective_iff.2 ?_ h
  intro m n hmn
  exact toString_nat_injective (String.toList_inj.1 hmn)

theorem compactionIdempotencyKey_toList (run : RunSummary) (batchKey : String) :
    ∃ rest, (compactionIdempotencyKey run batchKey).toList =
      "compact".toList ++ ':' :: (batchKey.toList ++ ':' :: rest) := by
  unfold compactionIdempotencyKey
  rw [String.intercalate_cons_cons, String.intercalate_cons_cons]
  generalize ":".intercalate _ = tail
  refine ⟨tail.toList, ?_⟩
  simp only [String.toList_append, List.append_assoc]
  rfl

/-- The key of a copy tells the segments its batch replaces. -/
theorem compactionIdempotencyKey_batch (hne : ids ≠ []) (hne' : ids' ≠ [])
    (h : compactionIdempotencyKey run (compactionBatchKey ids) =
      compactionIdempotencyKey run' (compactionBatchKey ids')) : ids = ids' := by
  obtain ⟨rest, hr⟩ := compactionIdempotencyKey_toList run (compactionBatchKey ids)
  obtain ⟨rest', hr'⟩ := compactionIdempotencyKey_toList run' (compactionBatchKey ids')
  rw [h, hr', List.append_cancel_left_eq, List.cons.injEq] at hr
  have hsplit := congrArg (List.splitOn ':') hr.2
  rw [List.splitOn_append_cons_self_of_not_mem (not_mem_compactionBatchKey ids'),
    List.splitOn_append_cons_self_of_not_mem (not_mem_compactionBatchKey ids),
    List.cons.injEq] at hsplit
  exact (compactionBatchKey_injective hne' hne (String.toList_inj.1 hsplit.1)).symm

end KevinDb
