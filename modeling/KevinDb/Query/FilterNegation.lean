import KevinDb.Query.FilterAtoms
import KevinDb.Query.RootFilter

namespace KevinDb
set_option autoImplicit true
open Sql

variable {formats : FilterFormats} {rules : TextRules} {projects : List String} {run : FilterRun}
  {field : FilterField} {value : FilterValue} {column : HeadColumn} {eq neq : HeadPredicate}

/-- Two predicates compare one column with one value, one of them with `=` and the other with
`<>`. -/
def OppositeComparisons (column : HeadColumn) (left right : HeadPredicate) : Prop :=
  ∃ value, value ≠ Value.null ∧
    ((left = compareSql .eq column value ∧ right = compareSql .neq column value) ∨
      (left = compareSql .neq column value ∧ right = compareSql .eq column value))

theorem OppositeComparisons.of_eq_neq {value : Value} (h : value ≠ .null) :
    OppositeComparisons column (compareSql .eq column value) (compareSql .neq column value) :=
  ⟨value, h, .inl ⟨rfl, rfl⟩⟩

/-- They part the runs whose column is not null. -/
theorem OppositeComparisons.xor_satisfies (h : OppositeComparisons column eq neq) :
    Xor (run.satisfies rules eq) (run.satisfies rules neq) ↔ run.column column ≠ .null := by
  obtain ⟨value, hvalue, ⟨rfl, rfl⟩ | ⟨rfl, rfl⟩⟩ := h
  · rw [FilterRun.satisfies_compareSql, FilterRun.satisfies_compareSql]
    exact Operator.xor_eq_neq hvalue
  · rw [FilterRun.satisfies_compareSql, FilterRun.satisfies_compareSql, xor_comm]
    exact Operator.xor_eq_neq hvalue

theorem compileCompare_opposite (hcolumn : field.comparedColumn = some column)
    (heq : compileCompare formats projects .eq field value = .ok eq)
    (hneq : compileCompare formats projects .neq field value = .ok neq) :
    OppositeComparisons column eq neq := by
  have htext : field.textColumn = some column → OppositeComparisons column eq neq := by
    intro htext
    rw [compileCompare_text htext] at heq hneq
    cases heq
    cases hneq
    exact .of_eq_neq nofun
  have hinteger : ∀ name, field.integerColumn = some (column, name) →
      OppositeComparisons column eq neq := by
    intro name hinteger
    rw [compileCompare_integer hinteger, compileI64Column_eq_ok] at heq hneq
    obtain ⟨literal, hliteral, rfl⟩ := heq
    obtain ⟨same, hsame, rfl⟩ := hneq
    cases hliteral.symm.trans hsame
    exact .of_eq_neq nofun
  cases field with
  | name | runType | status | projectName | traceId | rootRunId | rootSpanId | modelName
  | providerName => exact htext hcolumn
  | startTime | endTime | latency | promptTokens | completionTokens | totalTokens =>
    cases hcolumn
    exact hinteger _ rfl
  | totalCost =>
    cases hcolumn
    obtain ⟨literal, hliteral, heq⟩ := bind_eq_ok heq
    obtain ⟨same, hsame, hneq⟩ := bind_eq_ok hneq
    cases hliteral.symm.trans hsame
    cases heq
    cases hneq
    exact .of_eq_neq nofun
  | isRoot =>
    cases hcolumn
    obtain ⟨flag, hflag, heq⟩ := bind_eq_ok heq
    obtain ⟨same, hsame, hneq⟩ := bind_eq_ok hneq
    cases hflag.symm.trans hsame
    cases heq
    cases hneq
    exact .of_eq_neq nofun
  | error =>
    cases hcolumn
    obtain ⟨flag, hflag, heq⟩ := bind_eq_ok heq
    obtain ⟨same, hsame, hneq⟩ := bind_eq_ok hneq
    cases hflag.symm.trans hsame
    cases flag with
    | true =>
      cases heq
      cases hneq
      exact .of_eq_neq nofun
    | false =>
      -- `eq(error, false)` is the comparison with `<>`.
      cases heq
      cases hneq
      exact ⟨.text "error", nofun, .inr ⟨rfl, rfl⟩⟩
  | id | tags | metadataKey | metadataValue | feedbackKey | feedbackScore | feedbackValue | inputs
  | outputs | extra | attributesJson => cases hcolumn

/-- On the other fields `neq` negates the predicate of `eq`. -/
theorem compileCompare_not (hcolumn : field.comparedColumn = none)
    (heq : compileCompare formats projects .eq field value = .ok eq)
    (hneq : compileCompare formats projects .neq field value = .ok neq) : neq = .not eq := by
  have hfeedback : compileFeedbackAtom formats projects .eq field value = .ok eq →
      compileFeedbackAtom formats projects .neq field value = .ok neq → neq = .not eq := by
    intro heq hneq
    obtain ⟨condition, hcondition, heq⟩ := bind_eq_ok heq
    obtain ⟨same, hsame, hneq⟩ := bind_eq_ok hneq
    cases hcondition.symm.trans hsame
    cases heq
    cases hneq
    rfl
  cases field with
  | id | tags | metadataKey | metadataValue =>
    cases heq
    cases hneq
    rfl
  | feedbackKey | feedbackScore | feedbackValue => exact hfeedback heq hneq
  | inputs | outputs | extra | attributesJson => cases heq
  | _ => cases hcolumn

/-- Whether a head has an id is known if its run id is not empty, or if it has it as its generated
one. -/
theorem idSql_known {tables : FilterTables} {k : RunKey} {head : RunHead} (id : String) :
    (idSql id).truth (HeadCondition.truth rules (tables.filterRun k head)) ≠ none ↔
      head.runId ≠ "" ∨ head.generatedRunId = id := by
  have hgenerated : Operator.eq.apply rules (.text head.generatedRunId) (.text id) =
      some (decide (head.generatedRunId = id)) := by
    simp [Operator.apply]
  have hrun : Operator.eq.apply rules
      (if head.runId = "" then Value.null else .text head.runId) (.text id) =
      if head.runId = "" then none else some (decide (head.runId = id)) := by
    by_cases hempty : head.runId = "" <;> simp [Operator.apply, hempty]
  change ((Operator.eq.apply rules (if head.runId = "" then Value.null else .text head.runId)
    (.text id)).or ((Operator.eq.apply rules (.text head.generatedRunId) (.text id)).or
      (some false))) ≠ none ↔ _
  rw [hgenerated, hrun]
  by_cases hempty : head.runId = ""
  · by_cases hid : head.generatedRunId = id <;> simp [hempty, hid, Truth.or]
  · have hknown : ∀ left right : Bool,
        Truth.or (some left) (Truth.or (some right) (some false)) ≠ none := by
      decide
    rw [if_neg hempty]
    exact iff_of_true (hknown _ _) (.inl hempty)

/-- What `eq` and `neq` compare of a head is known. -/
def RunHead.comparesKnown (formats : FilterFormats) (k : RunKey) (head : RunHead)
    (field : FilterField) (value : FilterValue) : Prop :=
  (∀ column ∈ field.comparedColumn, head.column k column ≠ .null) ∧
    (field = .id → head.runId ≠ "" ∨ head.generatedRunId = value.asString formats)

/-- What `contains` and `does_not_contain` look into is known. -/
def RunHead.containsKnown (k : RunKey) (head : RunHead) (field : FilterField) : Prop :=
  ∀ column ∈ field.textColumn, head.column k column ≠ .null

theorem compare_xor_iff {tables : FilterTables} {k : RunKey} {head : RunHead}
    (heq : compileCompare formats projects .eq field value = .ok eq)
    (hneq : compileCompare formats projects .neq field value = .ok neq) :
    Xor ((tables.filterRun k head).satisfies rules eq)
        ((tables.filterRun k head).satisfies rules neq) ↔
      head.comparesKnown formats k field value := by
  cases hcolumn : field.comparedColumn with
  | some column =>
    have hid : field ≠ .id := by
      rintro rfl
      cases hcolumn
    rw [(compileCompare_opposite hcolumn heq hneq).xor_satisfies, RunHead.comparesKnown, hcolumn]
    exact ⟨fun h => ⟨fun _ hsame => Option.some.inj hsame ▸ h, fun h => absurd h hid⟩,
      fun h => h.1 column rfl⟩
  | none =>
    have hknown : ∀ column ∈ field.comparedColumn, head.column k column ≠ .null := by
      rw [hcolumn]
      exact nofun
    cases compileCompare_not hcolumn heq hneq
    rw [FilterRun.satisfies, FilterRun.satisfies, Predicate.xor_holds_not,
      RunHead.comparesKnown, and_iff_right hknown]
    cases field with
    | id =>
      cases heq
      rw [idSql_known]
      exact ⟨fun h _ => h, fun h => h rfl⟩
    | tags | metadataKey | metadataValue =>
      cases heq
      exact iff_of_true nofun nofun
    | feedbackKey | feedbackScore | feedbackValue =>
      obtain ⟨condition, rfl⟩ := compileFeedbackAtom_eq heq
      exact iff_of_true nofun nofun
    | inputs | outputs | extra | attributesJson => cases heq
    | _ => cases hcolumn

/-- A text column holds a text or is null. -/
theorem RunHead.textColumn_cases (k : RunKey) (head : RunHead)
    (hcolumn : field.textColumn = some column) :
    head.column k column = .null ∨ ∃ text, head.column k column = .text text := by
  have hnullable : ∀ text, nullable text = .null ∨ ∃ shown, nullable text = .text shown := by
    intro text
    cases text with
    | none => exact .inl rfl
    | some text => exact .inr ⟨text, rfl⟩
  cases field with
  | name | runType | status | projectName | traceId | rootRunId | rootSpanId =>
    cases hcolumn
    exact .inr ⟨_, rfl⟩
  | modelName | providerName =>
    cases hcolumn
    exact hnullable _
  | _ => cases hcolumn

theorem contains_xor_iff {tables : FilterTables} {k : RunKey} {head : RunHead}
    {contains lacks : HeadPredicate}
    (hcontains : compileContains formats projects field value false = .ok contains)
    (hlacks : compileContains formats projects field value true = .ok lacks) :
    Xor ((tables.filterRun k head).satisfies rules contains)
        ((tables.filterRun k head).satisfies rules lacks) ↔ head.containsKnown k field := by
  obtain ⟨searched, hsearched, rfl⟩ := compileContains_eq_ok.1 hcontains
  obtain ⟨same, hsame, rfl⟩ := compileContains_eq_ok.1 hlacks
  cases hsearched.symm.trans hsame
  rw [if_neg Bool.false_ne_true, if_pos rfl, FilterRun.satisfies, FilterRun.satisfies,
    Predicate.xor_holds_not, RunHead.containsKnown]
  rcases field.searched_cases hsearched with ⟨rfl, rfl⟩ | ⟨column, hcolumn, rfl⟩
  · exact iff_of_true nofun nofun
  · have hknown : (∀ column ∈ field.textColumn, head.column k column ≠ .null) ↔
        head.column k column ≠ .null := by
      rw [hcolumn]
      exact ⟨fun h => h column rfl, fun h _ hsame => Option.some.inj hsame ▸ h⟩
    rw [hknown, Searched.sql, Predicate.truth, HeadCondition.truth, Comparison.truth,
      FilterTables.filterRun]
    rcases head.textColumn_cases k hcolumn with hnull | ⟨text, htext⟩
    · simp only [hnull, ne_eq, not_true_eq_false]
    · simp only [htext, ne_eq, reduceCtorEq, not_false_eq_true]

/-- A run without an id of its own, and without a model. -/
def RunHead.sample : RunHead where
  runId := ""
  generatedRunId := "generated"
  parentRunId := none
  parentSpanId := none
  name := "chain"
  runType := "chain"
  startTimeUnixNano := 10
  endTimeUnixNano := 30
  statusCode := 1
  status := .success
  isRoot := true
  rootRunId := "generated"
  rootSpanId := "s"
  metrics := ⟨20, none, none, none, none, none, none, none, none, none, none⟩
  lastTraceSegmentId := 1
  lastRowIndex := 0
  lastEventType := .«end»
  lastEventTimeUnixNano := 30
  lastRunEventId := none
  deletedAtUnixNano := none
  deletionReason := none

end KevinDb
