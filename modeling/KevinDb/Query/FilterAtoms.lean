import KevinDb.Lib.Result
import KevinDb.Query.Planner

namespace KevinDb
set_option autoImplicit true
open Sql

variable {formats : FilterFormats} {rules : TextRules} {projects : List String} {run : FilterRun}
  {field : FilterField} {value : FilterValue} {op : CompareOp} {column : HeadColumn}

/-- The integer columns, each with the name that errors give it. -/
def FilterField.integerColumn : FilterField → Option (HeadColumn × String)
  | .startTime => some (.startTimeUnixNano, "start_time")
  | .endTime => some (.endTimeUnixNano, "end_time")
  | .latency => some (.latencyNanos, "latency")
  | .promptTokens => some (.promptTokens, "prompt_tokens")
  | .completionTokens => some (.completionTokens, "completion_tokens")
  | .totalTokens => some (.totalTokens, "total_tokens")
  | _ => none

/-- The column that comparisons of the field compare, if it is one of a head. -/
def FilterField.comparedColumn (field : FilterField) : Option HeadColumn :=
  match field with
  | .totalCost => some .totalCost
  | .isRoot => some .isRoot
  | .error => some .status
  | field => (field.integerColumn.map Prod.fst).or field.textColumn

theorem compileCompare_integer {name : String} (h : field.integerColumn = some (column, name)) :
    compileCompare formats projects op field value =
      compileI64Column formats op column value name := by
  cases field with
  | startTime | endTime | latency | promptTokens | completionTokens | totalTokens =>
    cases h
    rfl
  | _ => cases h

theorem compileCompare_text (h : field.textColumn = some column) :
    compileCompare formats projects op field value =
      .ok (compileTextColumn formats op column value) := by
  cases field with
  | name | runType | status | projectName | traceId | rootRunId | rootSpanId | modelName
  | providerName =>
    cases h
    rfl
  | _ => cases h

/-- The integer that a value of an integer column stands for. -/
def FilterValue.asColumnI64 (formats : FilterFormats) (value : FilterValue) (fieldName : String) :
    Except FilterError Int :=
  if fieldName = "latency" then value.asDurationNanos formats
  else if fieldName = "start_time" ∨ fieldName = "end_time" then value.asTimeNanos formats fieldName
  else value.asI64 formats fieldName

theorem compileI64Column_eq_ok {name : String} {sql : HeadPredicate} :
    compileI64Column formats op column value name = .ok sql ↔
      ∃ literal, value.asColumnI64 formats name = .ok literal ∧
        sql = compareSql op column (.integer literal) := by
  have hbind : compileI64Column formats op column value name =
      (value.asColumnI64 formats name).bind fun literal =>
        .ok (compareSql op column (.integer literal)) := by
    unfold compileI64Column FilterValue.asColumnI64
    split
    · rfl
    · split <;> rfl
  rw [hbind]
  constructor
  · intro h
    obtain ⟨literal, hliteral, h⟩ := bind_eq_ok h
    exact ⟨literal, hliteral, (Except.ok.inj h).symm⟩
  · rintro ⟨literal, hliteral, rfl⟩
    rw [hliteral]
    rfl

theorem compileFeedbackAtom_eq {sql : HeadPredicate}
    (h : compileFeedbackAtom formats projects .eq field value = .ok sql) :
    ∃ condition, sql = feedbackExistsSql projects [condition] := by
  obtain ⟨condition, -, h⟩ := bind_eq_ok h
  exact ⟨condition, (Except.ok.inj h).symm⟩

/-- What `contains` looks into: a column, or the values of the metadata rows. -/
inductive Searched where
  | column (column : HeadColumn)
  | metadataValue

def FilterField.searched : FilterField → Option Searched
  | .metadataValue => some .metadataValue
  | field => field.textColumn.map Searched.column

theorem FilterField.searched_cases {searched : Searched} (field : FilterField)
    (h : field.searched = some searched) :
    (field = .metadataValue ∧ searched = .metadataValue) ∨
      ∃ column, field.textColumn = some column ∧ searched = .column column := by
  cases field with
  | metadataValue => exact .inl ⟨rfl, (Option.some.inj h).symm⟩
  | name | runType | status | projectName | traceId | rootRunId | rootSpanId | modelName
  | providerName => exact .inr ⟨_, rfl, (Option.some.inj h).symm⟩
  | _ => cases h

/-- The predicate of `contains` with a pattern. -/
def Searched.sql (projects : List String) (pattern : String) : Searched → HeadPredicate
  | .column column => .atom (.compare (.lowerLike column pattern))
  | .metadataValue => metadataExistsSql projects [.atom (.lowerLike .value pattern)]

theorem compileContains_eq_ok {negated : Bool} {sql : HeadPredicate} :
    compileContains formats projects field value negated = .ok sql ↔
      ∃ searched, field.searched = some searched ∧
        sql = if negated then .not (searched.sql projects (containsPattern (value.asString formats)))
          else searched.sql projects (containsPattern (value.asString formats)) := by
  cases field with
  | name | runType | status | projectName | traceId | rootRunId | rootSpanId | modelName
  | providerName | metadataValue =>
    exact ⟨fun h => ⟨_, rfl, (Except.ok.inj h).symm⟩, fun ⟨searched, hsearched, h⟩ => by
      cases hsearched
      exact congrArg Except.ok h.symm⟩
  | _ => exact ⟨nofun, nofun⟩

theorem FilterRun.satisfies_compareSql {literal : Value} :
    run.satisfies rules (compareSql op column literal) ↔
      op.operator.apply rules (run.column column) literal = some true :=
  Predicate.holds_atom _

end KevinDb
