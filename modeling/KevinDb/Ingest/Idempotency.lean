import KevinDb.Ingest.Partition
import KevinDb.Lib.Text

namespace KevinDb
set_option autoImplicit true

variable {record record' : SpanRecord} {x : Externals} {w : World} {partition : PartitionKey}
  {records : List SpanRecord}

theorem hex16_toList (n : UInt64) : (hex16 n).toList = hexDigits 16 n.toNat := by
  unfold hex16
  exact String.toList_ofList

theorem hex16_injective : Function.Injective hex16 := by
  intro m n h
  have hdigits := congrArg String.toList h
  rw [hex16_toList, hex16_toList] at hdigits
  have hnat := hexDigits_inj (by decide) m.toNat_lt n.toNat_lt hdigits
  exact UInt64.toNat_inj.1 hnat

theorem not_mem_attributesHash (attributesJson : String) :
    ':' ∉ (attributesHash attributesJson).toList := by
  rw [attributesHash, hex16_toList]
  exact not_mem_hexDigits _ _

theorem RunEventKind.asStr_injective : Function.Injective RunEventKind.asStr := by
  intro kind kind' h
  revert h
  cases kind <;> cases kind' <;> decide

theorem RunEventKind.not_mem_asStr (kind : RunEventKind) : ':' ∉ kind.asStr.toList := by
  cases kind <;> decide

/-- The columns of a record that go into its key in plain text. -/
structure KeyedColumns where
  runId : String
  traceId : String
  spanId : String
  eventKind : RunEventKind
  startTimeUnixNano : Int
  endTimeUnixNano : Int
  statusCode : Int
  name : String
deriving DecidableEq

def SpanRecord.keyedColumns (record : SpanRecord) : KeyedColumns where
  runId := record.runId
  traceId := record.traceId
  spanId := record.spanId
  eventKind := record.eventKind
  startTimeUnixNano := record.startTimeUnixNano
  endTimeUnixNano := record.endTimeUnixNano
  statusCode := record.statusCode
  name := record.name

/-- The event columns of a key: no separator occurs in them. -/
def SpanRecord.stampTexts (record : SpanRecord) : List String :=
  [record.eventKind.asStr, toString record.eventTimeUnixNano, toString record.startTimeUnixNano,
    toString record.endTimeUnixNano, toString record.statusCode]

/-- The parts into which the separators cut the ids, the event columns and the name. -/
def SpanRecord.keyPieces (record : SpanRecord) : List (List Char) :=
  pieces ':' ([record.runId, record.traceId, record.spanId] ++ record.stampTexts ++ [record.name])

/-- The two hashes of the attributes are the same. -/
def SpanRecord.SameHash (record record' : SpanRecord) : Prop :=
  stableHash record.attributesJson.toUTF8.toList = stableHash record'.attributesJson.toUTF8.toList

instance : Decidable (record.SameHash record') :=
  inferInstanceAs (Decidable (_ = _))

theorem runEventIdempotencyKey_eq_iff (h : record.idempotencyKey = none)
    (h' : record'.idempotencyKey = none) :
    runEventIdempotencyKey record = runEventIdempotencyKey record' ↔
      record.keyPieces = record'.keyPieces ∧
        record.SameHash record' := by
  have hkey : ∀ r : SpanRecord, r.idempotencyKey = none → runEventIdempotencyKey r =
      (String.singleton ':').intercalate ([r.runId, r.traceId, r.spanId] ++ r.stampTexts ++
        [r.name] ++ [attributesHash r.attributesJson]) := by
    intro r hr
    rw [runEventIdempotencyKey, hr]
    rfl
  have hpieces : ∀ r : SpanRecord, pieces ':' ([r.runId, r.traceId, r.spanId] ++ r.stampTexts ++
      [r.name] ++ [attributesHash r.attributesJson]) =
      r.keyPieces ++ [(attributesHash r.attributesJson).toList] := by
    intro r
    rw [pieces_append, pieces_cons (not_mem_attributesHash _)]
    rfl
  rw [hkey record h, hkey record' h', intercalate_eq_iff (by simp) (by simp), hpieces, hpieces]
  constructor
  · intro hpieces
    obtain ⟨hfront, hlast⟩ := List.append_inj' hpieces rfl
    exact ⟨hfront, hex16_injective (String.toList_inj.1 (List.cons.inj hlast).1)⟩
  · rintro ⟨hfront, hhash⟩
    rw [hfront, attributesHash, attributesHash, hhash]

def SpanRecord.withoutAttributes (record : SpanRecord) : SpanRecord :=
  { record with attributesJson := "" }

/-- Both records say the same in every column that a segment keeps, unless their attributes
collide. -/
def SpanRecord.Agrees (record record' : SpanRecord) : Prop :=
  record.withoutAttributes = record'.withoutAttributes ∧
    (record.attributesJson = record'.attributesJson ∨ record.SameHash record')

/-- The records differ in a parent id or the run type, which the key leaves out, and in nothing
the key holds. -/
def SpanRecord.Relinked (record record' : SpanRecord) : Prop :=
  record.keyedColumns = record'.keyedColumns ∧ record.SameHash record' ∧
    ¬ (record.parentRunId = record'.parentRunId ∧ record.parentSpanId = record'.parentSpanId ∧
      record.runType = record'.runType)

/-- The records differ in a column the key holds, but only by where the separators inside their
ids and names stand. -/
def SpanRecord.Regrouped (record record' : SpanRecord) : Prop :=
  record.keyedColumns ≠ record'.keyedColumns ∧ record.SameHash record' ∧
    record.keyPieces = record'.keyPieces

theorem SpanRecord.withoutAttributes_eq_iff (hproject : record.projectName = record'.projectName)
    (h : record.idempotencyKey = none) (h' : record'.idempotencyKey = none) :
    record.withoutAttributes = record'.withoutAttributes ↔
      record.keyedColumns = record'.keyedColumns ∧ record.parentRunId = record'.parentRunId ∧
        record.parentSpanId = record'.parentSpanId ∧ record.runType = record'.runType := by
  cases record
  cases record'
  simp only [SpanRecord.withoutAttributes, SpanRecord.keyedColumns, SpanRecord.mk.injEq,
    KeyedColumns.mk.injEq] at hproject h h' ⊢
  subst hproject h h'
  constructor
  · rintro ⟨-, hrun, htrace, hspan, hparentRun, hparentSpan, hname, htype, hstart, hend, hstatus,
      hkind, -⟩
    exact ⟨⟨hrun, htrace, hspan, hkind, hstart, hend, hstatus, hname⟩, hparentRun, hparentSpan,
      htype⟩
  · rintro ⟨⟨hrun, htrace, hspan, hkind, hstart, hend, hstatus, hname⟩, hparentRun, hparentSpan,
      htype⟩
    exact ⟨rfl, hrun, htrace, hspan, hparentRun, hparentSpan, hname, htype, hstart, hend, hstatus,
      hkind, trivial, rfl⟩

theorem SpanRecord.keyPieces_congr (h : record.keyedColumns = record'.keyedColumns) :
    record.keyPieces = record'.keyPieces := by
  have hpieces : ∀ r : SpanRecord, r.keyPieces = { r with
      projectName := "", parentRunId := none, parentSpanId := none, runType := "",
      attributesJson := "", idempotencyKey := none : SpanRecord }.keyPieces := fun _ => rfl
  rw [hpieces record, hpieces record']
  cases record
  cases record'
  simp only [SpanRecord.keyedColumns, KeyedColumns.mk.injEq] at h
  obtain ⟨rfl, rfl, rfl, rfl, rfl, rfl, rfl, rfl⟩ := h
  rfl

theorem SpanRecord.agrees_iff_of_key (hproject : record.projectName = record'.projectName)
    (h : record.idempotencyKey = none) (h' : record'.idempotencyKey = none)
    (hkey : runEventIdempotencyKey record = runEventIdempotencyKey record') :
    record.Agrees record' ↔ ¬ record.Relinked record' ∧ ¬ record.Regrouped record' := by
  obtain ⟨hpieces, hhash⟩ := (runEventIdempotencyKey_eq_iff h h').1 hkey
  rw [SpanRecord.Agrees, SpanRecord.withoutAttributes_eq_iff hproject h h']
  constructor
  · rintro ⟨⟨hkeyed, hlinks⟩, -⟩
    exact ⟨fun hrelinked => hrelinked.2.2 hlinks, fun hregrouped => hregrouped.1 hkeyed⟩
  · rintro ⟨hrelinked, hregrouped⟩
    have hkeyed : record.keyedColumns = record'.keyedColumns := by
      by_contra hne
      exact hregrouped ⟨hne, hhash, hpieces⟩
    refine ⟨⟨hkeyed, ?_⟩, .inr hhash⟩
    by_contra hlinks
    exact hrelinked ⟨hkeyed, hhash, hlinks⟩

/-- The key is faithful for two records exactly if they are neither relinked nor regrouped. -/
theorem SpanRecord.key_faithful_iff (hproject : record.projectName = record'.projectName)
    (h : record.idempotencyKey = none) (h' : record'.idempotencyKey = none) :
    (runEventIdempotencyKey record = runEventIdempotencyKey record' → record.Agrees record') ↔
      ¬ record.Relinked record' ∧ ¬ record.Regrouped record' := by
  by_cases hkey : runEventIdempotencyKey record = runEventIdempotencyKey record'
  · rw [← SpanRecord.agrees_iff_of_key hproject h h' hkey]
    exact ⟨fun hagrees => hagrees hkey, fun hagrees _ => hagrees⟩
  · refine ⟨fun _ => ⟨?_, ?_⟩, fun _ hkey' => absurd hkey' hkey⟩
    · rintro ⟨hkeyed, hhash, -⟩
      exact hkey ((runEventIdempotencyKey_eq_iff h h').2
        ⟨SpanRecord.keyPieces_congr hkeyed, hhash⟩)
    · rintro ⟨-, hhash, hpieces⟩
      exact hkey ((runEventIdempotencyKey_eq_iff h h').2 ⟨hpieces, hhash⟩)

/-- Ids without separators rule a regrouping out, whatever the names are. -/
theorem SpanRecord.not_regrouped
    (hids : ∀ id ∈ [record.runId, record.traceId, record.spanId], ':' ∉ id.toList)
    (hids' : ∀ id ∈ [record'.runId, record'.traceId, record'.spanId], ':' ∉ id.toList) :
    ¬ record.Regrouped record' := by
  have hpieces : ∀ r : SpanRecord,
      (∀ id ∈ [r.runId, r.traceId, r.spanId], ':' ∉ id.toList) →
      r.keyPieces = [r.runId, r.traceId, r.spanId].map String.toList ++
        r.stampTexts.map String.toList ++ r.name.toList.splitOn ':' := by
    intro r hr
    have hstamp : ∀ n : Int, ':' ∉ (toString n).toList := not_mem_toString_int rfl (by decide)
    simp only [List.mem_cons, List.not_mem_nil, or_false, forall_eq_or_imp, forall_eq] at hr
    simp only [SpanRecord.keyPieces, SpanRecord.stampTexts, List.cons_append, List.nil_append,
      List.map_cons, List.map_nil]
    rw [pieces_cons hr.1, pieces_cons hr.2.1, pieces_cons hr.2.2,
      pieces_cons (RunEventKind.not_mem_asStr _), pieces_cons (hstamp _), pieces_cons (hstamp _),
      pieces_cons (hstamp _), pieces_cons (hstamp _), pieces_singleton]
  rintro ⟨hne, -, heq⟩
  rw [hpieces record hids, hpieces record' hids'] at heq
  simp only [SpanRecord.stampTexts, List.map_cons, List.map_nil, List.cons_append, List.nil_append,
    List.cons.injEq, String.toList_inj] at heq
  obtain ⟨hrun, htrace, hspan, hkind, -, hstart, hend, hstatus, hname⟩ := heq
  apply hne
  rw [SpanRecord.keyedColumns, SpanRecord.keyedColumns, hrun, htrace, hspan,
    RunEventKind.asStr_injective hkind, toString_int_injective hstart,
    toString_int_injective hend, toString_int_injective hstatus,
    String.toList_inj.1 (splitOn_injective ':' hname)]

/-- A record that the filter drops is held to be the event of a committed row. -/
theorem exists_event_of_dropped (hw : w.Consistent x)
    (hvalid : ∀ r ∈ records, recordPartitionKey r = partition) (hrecord : record ∈ records)
    (hdropped : record ∉ filterDuplicateRecords w.db records) :
    ∃ event ∈ w.db.runEvents, event.eventKey = record.eventKey ∧
      (event.eventType ≠ .tombstone → ∃ stored,
        w.rowAt event.traceSegmentId event.rowIndex = some stored ∧
        stored.eventKey = record.eventKey) := by
  have hkey : w.db.hasEventKey record.eventKey := by
    rw [filterDuplicateRecords_eq w.db hvalid] at hdropped
    by_contra hfree
    exact hdropped (List.mem_filter.2 ⟨hrecord, decide_eq_true hfree⟩)
  obtain ⟨event, hevent, heq⟩ := hkey
  refine ⟨event, hevent, heq, ?_⟩
  intro htype
  obtain ⟨stored, hrow, hof⟩ := hw.event_row event hevent htype
  refine ⟨stored, hrow, ?_⟩
  rw [← heq, hof]
  rfl

/-- Two records of a project without keys of their own, and a record that the filter drops
together with the stored record it is dropped for. -/
theorem run_event_idempotency_key_faithful (x : Externals) :
    (∀ record record' : SpanRecord, record.projectName = record'.projectName →
      record.idempotencyKey = none → record'.idempotencyKey = none →
      ((runEventIdempotencyKey record = runEventIdempotencyKey record' → record.Agrees record') ↔
        ¬ record.Relinked record' ∧ ¬ record.Regrouped record')) ∧
    ∀ ops w, Transition.run (World.apply x) World.empty ops = some w →
      ∀ partition records, (∀ r ∈ records, recordPartitionKey r = partition) →
      ∀ record ∈ records, record ∉ filterDuplicateRecords w.db records →
      ∃ event ∈ w.db.runEvents, event.eventKey = record.eventKey ∧
        (event.eventType ≠ .tombstone → ∃ stored,
          w.rowAt event.traceSegmentId event.rowIndex = some stored ∧
          (record.idempotencyKey = none → stored.idempotencyKey = none →
            (record.Agrees stored ↔ ¬ record.Relinked stored ∧ ¬ record.Regrouped stored))) := by
  refine ⟨fun record record' => SpanRecord.key_faithful_iff, ?_⟩
  intro ops w hrun partition records hvalid record hrecord hdropped
  obtain ⟨event, hevent, hkey, hrow⟩ :=
    exists_event_of_dropped (World.Consistent.run hrun) hvalid hrecord hdropped
  refine ⟨event, hevent, hkey, ?_⟩
  intro htype
  obtain ⟨stored, hstored, hsame⟩ := hrow htype
  obtain ⟨hproject, hkeys⟩ := Prod.mk.inj hsame
  exact ⟨stored, hstored, fun h h' => SpanRecord.agrees_iff_of_key hproject.symm h h' hkeys.symm⟩

theorem run_event_idempotency_key_faithful_retry :
    let record := SpanRecord.sample "t" "s" "a" .«end» 10 30
    (runEventIdempotencyKey record = runEventIdempotencyKey record → record.Agrees record) ∧
      ∃ w, Transition.run (World.apply .sample) World.empty
          [.persist ⟨"p", 0⟩ ⟨1, 1⟩ [record] none] = some w ∧
        ∃ event ∈ w.db.runEvents, event.eventKey = record.eventKey := by
  intro record
  obtain ⟨hpair, hdropped⟩ := run_event_idempotency_key_faithful .sample
  refine ⟨(hpair record record rfl rfl rfl).2 ⟨?_, ?_⟩, ?_⟩
  · exact fun h => h.2.2 ⟨rfl, rfl, rfl⟩
  · exact fun h => h.1 rfl
  · have hrun : (Transition.run (World.apply .sample) World.empty
        [.persist ⟨"p", 0⟩ ⟨1, 1⟩ [record] none]).map
        (fun w => filterDuplicateRecords w.db [record]) = some [] := by
      decide +kernel
    obtain ⟨w, hw, hfilter⟩ := Option.map_eq_some_iff.1 hrun
    obtain ⟨event, hevent, hkey, -⟩ := hdropped _ w hw ⟨"p", 0⟩ [record] (by decide +kernel) record
      List.mem_cons_self (by rw [hfilter]; exact List.not_mem_nil)
    exact ⟨w, hw, event, hevent, hkey⟩

/-- An update that only changes the run type is dropped for the update before it. -/
theorem run_event_idempotency_key_unfaithful :
    let stored := SpanRecord.sample "t" "s" "a" .update 10 0
    let record := { stored with runType := "tool" }
    runEventIdempotencyKey record = runEventIdempotencyKey stored ∧ ¬ record.Agrees stored ∧
      (Transition.run (World.apply .sample) World.empty
        [.persist ⟨"p", 0⟩ ⟨1, 1⟩ [stored] none]).map
        (fun w => filterDuplicateRecords w.db [record]) = some [] := by
  refine ⟨rfl, ?_, ?_⟩
  · rintro ⟨hsame, -⟩
    exact absurd (congrArg SpanRecord.runType hsame) (by decide)
  · decide +kernel

end KevinDb
