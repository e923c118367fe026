import KevinDb.Db
import KevinDb.Lib.Sql

namespace KevinDb
open Sql

inductive CompareOp where
  | eq
  | neq
  | gt
  | gte
  | lt
  | lte
deriving DecidableEq, Repr

inductive FilterField where
  | id
  | name
  | runType
  | status
  | startTime
  | endTime
  | latency
  | tags
  | metadataKey
  | metadataValue
  | feedbackKey
  | feedbackScore
  | feedbackValue
  | isRoot
  | traceId
  | projectName
  | rootRunId
  | rootSpanId
  | modelName
  | providerName
  | promptTokens
  | completionTokens
  | totalTokens
  | totalCost
  | error
  | inputs
  | outputs
  | extra
  | attributesJson
deriving DecidableEq, Repr

/-- A number of a filter is a finite double, kept as the rational number it is. -/
inductive FilterValue where
  | string (value : String)
  | number (value : ℚ)
  | bool (value : Bool)
deriving DecidableEq

inductive FilterExpr where
  | and (children : List FilterExpr)
  | or (children : List FilterExpr)
  | compare (op : CompareOp) (field : FilterField) (value : FilterValue)
  | has (field : FilterField) (value : FilterValue)
  | isIn (field : FilterField) (values : List FilterValue)
  | contains (field : FilterField) (value : FilterValue) (negated : Bool)
  | search (field : Option FilterField) (query : String)
  | jsonKey (field : Option FilterField) (pattern : String)
  | jsonKeySearch (field : Option FilterField) (path query : String)

inductive FilterError where
  | parse (message : String)
  | unsupported (message : String)
deriving DecidableEq, Repr

/-- The texts of numbers and times: the shortest decimal of a double, `str::parse` for doubles and
64-bit integers, the nanoseconds of a number of seconds, and those of an RFC 3339 time. -/
structure FilterFormats where
  showF64 : ℚ → String
  readF64 : String → Option ℚ
  readI64 : String → Option Int
  nanosOfSeconds : ℚ → Int
  nanosOfTime : String → Option Int

/-- `value as i64`: towards zero, and saturating. -/
def i64OfF64 (value : ℚ) : Int :=
  max i64Min (min i64Max (if value < 0 then ⌈value⌉ else ⌊value⌋))

/-- `strip_suffix`, or the text itself. -/
def stripSuffix (suffix text : String) : String :=
  if suffix.toList.isSuffixOf text.toList then
    String.ofList (text.toList.take (text.toList.length - suffix.toList.length))
  else text

def trimFloat (formats : FilterFormats) (value : ℚ) : String :=
  stripSuffix ".0" (formats.showF64 value)

def FilterValue.asString (formats : FilterFormats) : FilterValue → String
  | .string value => value
  | .number value => trimFloat formats value
  | .bool value => if value then "true" else "false"

/-- `to_ascii_lowercase`. -/
def toAsciiLowercase (text : String) : String :=
  String.ofList (text.toList.map Char.toLower)

def FilterValue.asBool (fieldName : String) : FilterValue → Except FilterError Bool
  | .bool value => .ok value
  | .string value =>
    if toAsciiLowercase value = "true" then .ok true
    else if toAsciiLowercase value = "false" then .ok false
    else .error (.parse (fieldName ++ " must be boolean"))
  | .number _ => .error (.parse (fieldName ++ " must be boolean"))

def FilterValue.asI64 (formats : FilterFormats) (fieldName : String) :
    FilterValue → Except FilterError Int
  | .number value => .ok (i64OfF64 value)
  | .string value =>
    match formats.readI64 value with
    | some parsed => .ok parsed
    | none => .error (.parse (fieldName ++ " must be an integer"))
  | .bool _ => .error (.parse (fieldName ++ " must be numeric"))

def FilterValue.asF64 (formats : FilterFormats) (fieldName : String) :
    FilterValue → Except FilterError ℚ
  | .number value => .ok value
  | .string value =>
    match formats.readF64 value with
    | some parsed => .ok parsed
    | none => .error (.parse (fieldName ++ " must be numeric"))
  | .bool _ => .error (.parse (fieldName ++ " must be numeric"))

def FilterValue.asDurationNanos (formats : FilterFormats) : FilterValue → Except FilterError Int
  | .number seconds => .ok (formats.nanosOfSeconds seconds)
  | .string value =>
    match formats.readF64 (stripSuffix "s" value) with
    | some seconds => .ok (formats.nanosOfSeconds seconds)
    | none => .error (.parse "latency must be seconds")
  | .bool _ => .error (.parse "latency must be numeric")

def FilterValue.asTimeNanos (formats : FilterFormats) (fieldName : String)
    (value : FilterValue) : Except FilterError Int :=
  match value with
  | .string text =>
    match formats.nanosOfTime text with
    | some time => .ok time
    | none => .error (.parse (fieldName ++ " must be RFC3339"))
  | _ => value.asI64 formats fieldName

/-- The columns of `run_heads` that filters read, and `NULLIF(run_id, '')`. -/
inductive HeadColumn where
  | nonemptyRunId
  | generatedRunId
  | projectName
  | traceId
  | parentRunId
  | parentSpanId
  | name
  | runType
  | status
  | startTimeUnixNano
  | endTimeUnixNano
  | isRoot
  | rootRunId
  | rootSpanId
  | latencyNanos
  | promptTokens
  | completionTokens
  | totalTokens
  | totalCost
  | modelName
  | providerName
deriving DecidableEq, Repr

inductive TagColumn where
  | tag
deriving DecidableEq, Repr

inductive MetadataColumn where
  | key
  | value
deriving DecidableEq, Repr

inductive FeedbackColumn where
  | key
  | valueText
  | scoreNumber
deriving DecidableEq, Repr

/-- A condition on a head: a comparison of its columns, or that one of its rows in an index table
meets all the conditions of a subquery over the given projects. -/
inductive HeadCondition where
  | compare (comparison : Comparison HeadColumn)
  | tagIn (projects : List String) (condition : Comparison TagColumn)
  | metadataIn (projects : List String) (conditions : List (Predicate (Comparison MetadataColumn)))
  | feedbackIn (projects : List String) (conditions : List (Comparison FeedbackColumn))

abbrev HeadPredicate := Predicate HeadCondition

def CompareOp.operator : CompareOp → Operator
  | .eq => .eq
  | .neq => .neq
  | .gt => .gt
  | .gte => .gte
  | .lt => .lt
  | .lte => .lte

def compareSql (op : CompareOp) (column : HeadColumn) (value : Value) : HeadPredicate :=
  .atom (.compare (.compare op.operator column value))

def compileTextColumn (formats : FilterFormats) (op : CompareOp) (column : HeadColumn)
    (value : FilterValue) : HeadPredicate :=
  compareSql op column (.text (value.asString formats))

def compileI64Column (formats : FilterFormats) (op : CompareOp) (column : HeadColumn)
    (value : FilterValue) (fieldName : String) : Except FilterError HeadPredicate := do
  let value ←
    if fieldName = "latency" then value.asDurationNanos formats
    else if fieldName = "start_time" ∨ fieldName = "end_time" then
      value.asTimeNanos formats fieldName
    else value.asI64 formats fieldName
  return compareSql op column (.integer value)

def compileF64Column (formats : FilterFormats) (op : CompareOp) (column : HeadColumn)
    (value : FilterValue) (fieldName : String) : Except FilterError HeadPredicate := do
  return compareSql op column (.real (← value.asF64 formats fieldName))

def compileBoolColumn (op : CompareOp) (column : HeadColumn) (value : Bool) :
    Except FilterError HeadPredicate :=
  match op with
  | .eq | .neq => .ok (compareSql op column (.boolean value))
  | _ => .error (.unsupported "boolean fields only support eq and neq")

def compileErrorColumn (op : CompareOp) (column : HeadColumn) (value : Bool) :
    Except FilterError HeadPredicate :=
  match op, value with
  | .eq, true | .neq, false => .ok (compareSql .eq column (.text "error"))
  | .eq, false | .neq, true => .ok (compareSql .neq column (.text "error"))
  | _, _ => .error (.unsupported "error only supports eq and neq boolean filters")

def tagExistsSql (projects : List String) (tag : String) : HeadPredicate :=
  .atom (.tagIn projects (.compare .eq .tag (.text tag)))

def metadataExistsSql (projects : List String)
    (conditions : List (Predicate (Comparison MetadataColumn))) : HeadPredicate :=
  .atom (.metadataIn projects conditions)

def feedbackExistsSql (projects : List String) (conditions : List (Comparison FeedbackColumn)) :
    HeadPredicate :=
  .atom (.feedbackIn projects conditions)

/-- The comparison of `metadata_compare_condition`. It is only called with the two fields. -/
def metadataCompareCondition (formats : FilterFormats) (op : CompareOp) (field : FilterField)
    (value : FilterValue) : Predicate (Comparison MetadataColumn) :=
  let column := if field = .metadataKey then MetadataColumn.key else .value
  .atom (.compare op.operator column (.text (value.asString formats)))

/-- The comparison of `feedback_compare_condition`. It is only called with the three fields. -/
def feedbackCompareCondition (formats : FilterFormats) (op : CompareOp) (field : FilterField)
    (value : FilterValue) : Except FilterError (Comparison FeedbackColumn) :=
  match field with
  | .feedbackKey => .ok (.compare op.operator .key (.text (value.asString formats)))
  | .feedbackValue => .ok (.compare op.operator .valueText (.text (value.asString formats)))
  | _ => do return .compare op.operator .scoreNumber (.real (← value.asF64 formats "feedback_score"))

def compileMetadataAtom (formats : FilterFormats) (projects : List String) (op : CompareOp)
    (field : FilterField) (value : FilterValue) : HeadPredicate :=
  if op = .neq then
    .not (metadataExistsSql projects [metadataCompareCondition formats .eq field value])
  else metadataExistsSql projects [metadataCompareCondition formats op field value]

def compileFeedbackAtom (formats : FilterFormats) (projects : List String) (op : CompareOp)
    (field : FilterField) (value : FilterValue) : Except FilterError HeadPredicate :=
  if op = .neq then do
    return .not (feedbackExistsSql projects [← feedbackCompareCondition formats .eq field value])
  else do
    return feedbackExistsSql projects [← feedbackCompareCondition formats op field value]

/-- The text columns, with which `eq`, `in` and `contains` all work. -/
def FilterField.textColumn : FilterField → Option HeadColumn
  | .name => some .name
  | .runType => some .runType
  | .status => some .status
  | .projectName => some .projectName
  | .traceId => some .traceId
  | .rootRunId => some .rootRunId
  | .rootSpanId => some .rootSpanId
  | .modelName => some .modelName
  | .providerName => some .providerName
  | _ => none

/-- The run id or the generated one is the id. -/
def idSql (id : String) : HeadPredicate :=
  .or [compareSql .eq .nonemptyRunId (.text id), compareSql .eq .generatedRunId (.text id)]

def compileCompare (formats : FilterFormats) (projects : List String) (op : CompareOp)
    (field : FilterField) (value : FilterValue) : Except FilterError HeadPredicate :=
  match field with
  | .metadataKey | .metadataValue => .ok (compileMetadataAtom formats projects op field value)
  | .feedbackKey | .feedbackScore | .feedbackValue =>
    compileFeedbackAtom formats projects op field value
  | .tags =>
    match op with
    | .eq => .ok (tagExistsSql projects (value.asString formats))
    | .neq => .ok (.not (tagExistsSql projects (value.asString formats)))
    | _ => .error (.unsupported "tags only support eq, neq, has, and in")
  | .id =>
    match op with
    | .eq => .ok (idSql (value.asString formats))
    | .neq => .ok (.not (idSql (value.asString formats)))
    | _ => .error (.unsupported "id only supports eq, neq, and in")
  | .startTime => compileI64Column formats op .startTimeUnixNano value "start_time"
  | .endTime => compileI64Column formats op .endTimeUnixNano value "end_time"
  | .latency => compileI64Column formats op .latencyNanos value "latency"
  | .promptTokens => compileI64Column formats op .promptTokens value "prompt_tokens"
  | .completionTokens => compileI64Column formats op .completionTokens value "completion_tokens"
  | .totalTokens => compileI64Column formats op .totalTokens value "total_tokens"
  | .totalCost => compileF64Column formats op .totalCost value "total_cost"
  | .isRoot => do compileBoolColumn op .isRoot (← value.asBool "is_root")
  | .error => do compileErrorColumn op .status (← value.asBool "error")
  | .inputs | .outputs | .extra | .attributesJson =>
    .error (.unsupported "payload JSON filters require the Phase 6 object-store index")
  | .name => .ok (compileTextColumn formats op .name value)
  | .projectName => .ok (compileTextColumn formats op .projectName value)
  | .runType => .ok (compileTextColumn formats op .runType value)
  | .status => .ok (compileTextColumn formats op .status value)
  | .traceId => .ok (compileTextColumn formats op .traceId value)
  | .rootRunId => .ok (compileTextColumn formats op .rootRunId value)
  | .rootSpanId => .ok (compileTextColumn formats op .rootSpanId value)
  | .modelName => .ok (compileTextColumn formats op .modelName value)
  | .providerName => .ok (compileTextColumn formats op .providerName value)

def compileHas (formats : FilterFormats) (projects : List String) (field : FilterField)
    (value : FilterValue) : Except FilterError HeadPredicate :=
  match field with
  | .tags => .ok (tagExistsSql projects (value.asString formats))
  | .metadataKey => .ok (metadataExistsSql projects
      [.atom (.compare .eq .key (.text (value.asString formats)))])
  | _ => .error (.unsupported "has() is supported for tags and metadata_key only")

def compileIn (formats : FilterFormats) (projects : List String) (field : FilterField)
    (values : List FilterValue) : Except FilterError HeadPredicate :=
  let texts := values.map fun value => Value.text (value.asString formats)
  if values = [] then .error (.parse "in() requires a non-empty list")
  else
    match field with
    | .tags => .ok (.atom (.tagIn projects (.isIn .tag texts)))
    | .metadataKey => .ok (metadataExistsSql projects
        [.or (texts.map fun text => .atom (.compare .eq .key text))])
    | .metadataValue => .ok (metadataExistsSql projects
        [.or (texts.map fun text => .atom (.compare .eq .value text))])
    | .id => .ok (.or (values.map fun value => idSql (value.asString formats)))
    | _ =>
      match field.textColumn with
      | some column => .ok (.atom (.compare (.isIn column texts)))
      | none => .error (.unsupported
          "in() is supported for indexed scalar text fields, tags, and metadata")

def escapeLikePattern (value : String) : String :=
  String.ofList (value.toList.flatMap fun char =>
    if char ∈ ['\\', '%', '_'] then ['\\', char] else [char])

def containsPattern (value : String) : String :=
  "%" ++ escapeLikePattern (toAsciiLowercase value) ++ "%"

def compileContains (formats : FilterFormats) (projects : List String) (field : FilterField)
    (value : FilterValue) (negated : Bool) : Except FilterError HeadPredicate := do
  let pattern := containsPattern (value.asString formats)
  let predicate ←
    match field with
    | .metadataValue => .ok (metadataExistsSql projects [.atom (.lowerLike .value pattern)])
    | _ =>
      match field.textColumn with
      | some column => .ok (.atom (.compare (.lowerLike column pattern)))
      | none => .error (.unsupported "contains() is only supported for indexed scalar text fields")
  return if negated then .not predicate else predicate

/-- The condition that an atom puts on the shared metadata row of an `and()`. -/
def metadataRowCondition (formats : FilterFormats) (hasKeyAnchor : Bool) :
    FilterExpr → Option (Predicate (Comparison MetadataColumn))
  | .compare op .metadataKey value =>
    if op = .neq then none else some (metadataCompareCondition formats op .metadataKey value)
  | .compare op .metadataValue value =>
    if op = .neq ∧ !hasKeyAnchor then none
    else some (metadataCompareCondition formats op .metadataValue value)
  | .isIn .metadataKey values =>
    some (.atom (.isIn .key (values.map fun value => .text (value.asString formats))))
  | _ => none

/-- The condition that an atom puts on the shared feedback row of an `and()`. -/
def feedbackRowCondition (formats : FilterFormats) (hasKeyAnchor : Bool) :
    FilterExpr → Except FilterError (Option (Comparison FeedbackColumn))
  | .compare op .feedbackKey value =>
    if op = .neq then .ok none
    else (feedbackCompareCondition formats op .feedbackKey value).map some
  | .compare op .feedbackScore value =>
    if op = .neq ∧ !hasKeyAnchor then .ok none
    else (feedbackCompareCondition formats op .feedbackScore value).map some
  | .compare op .feedbackValue value =>
    if op = .neq ∧ !hasKeyAnchor then .ok none
    else (feedbackCompareCondition formats op .feedbackValue value).map some
  | _ => .ok none

def isPositiveMetadataKeyCondition : FilterExpr → Bool
  | .compare op .metadataKey _ => op ≠ .neq
  | .isIn .metadataKey _ => true
  | _ => false

def isPositiveFeedbackKeyCondition : FilterExpr → Bool
  | .compare op .feedbackKey _ => op ≠ .neq
  | _ => false

/-- What the loop of `compile_and` has collected. -/
structure CompiledAnd where
  predicates : List HeadPredicate
  metadataConditions : List (Predicate (Comparison MetadataColumn))
  feedbackConditions : List (Comparison FeedbackColumn)

/-- The conjunction of `compile_and`, once its children are compiled. -/
def CompiledAnd.sql (projects : List String) (compiled : CompiledAnd) : HeadPredicate :=
  .and (compiled.predicates ++
    (if compiled.metadataConditions = [] then []
      else [metadataExistsSql projects compiled.metadataConditions]) ++
    if compiled.feedbackConditions = [] then []
    else [feedbackExistsSql projects compiled.feedbackConditions])

mutual

def compileExpr (formats : FilterFormats) (projects : List String) :
    FilterExpr → Except FilterError HeadPredicate
  | .and children =>
    if children.isEmpty then .error (.parse "and() requires at least one child")
    else do
      let compiled ← compileAndChildren formats projects
        (children.any isPositiveMetadataKeyCondition) (children.any isPositiveFeedbackKeyCondition)
        children
      return compiled.sql projects
  | .or children =>
    if children.isEmpty then .error (.parse "or() requires at least one child")
    else do return .or (← compileChildren formats projects children)
  | .compare op field value => compileCompare formats projects op field value
  | .has field value => compileHas formats projects field value
  | .isIn field values => compileIn formats projects field values
  | .contains field value negated => compileContains formats projects field value negated
  | .search _ _ =>
    .error (.unsupported "full-text search requires the Phase 6 object-store index")
  | .jsonKey _ _ | .jsonKeySearch _ _ _ =>
    .error (.unsupported "payload JSON filters require the Phase 6 object-store index")

def compileChildren (formats : FilterFormats) (projects : List String) :
    List FilterExpr → Except FilterError (List HeadPredicate)
  | [] => .ok []
  | child :: children => do
    let predicate ← compileExpr formats projects child
    let predicates ← compileChildren formats projects children
    return predicate :: predicates

/-- The loop of `compile_and` over its children. -/
def compileAndChildren (formats : FilterFormats) (projects : List String)
    (hasMetadataKeyAnchor hasFeedbackKeyAnchor : Bool) :
    List FilterExpr → Except FilterError CompiledAnd
  | [] => .ok ⟨[], [], []⟩
  | child :: children => do
    match metadataRowCondition formats hasMetadataKeyAnchor child with
    | some condition =>
      let rest ← compileAndChildren formats projects hasMetadataKeyAnchor hasFeedbackKeyAnchor
        children
      return { rest with metadataConditions := condition :: rest.metadataConditions }
    | none =>
      match ← feedbackRowCondition formats hasFeedbackKeyAnchor child with
      | some condition =>
        let rest ← compileAndChildren formats projects hasMetadataKeyAnchor hasFeedbackKeyAnchor
          children
        return { rest with feedbackConditions := condition :: rest.feedbackConditions }
      | none =>
        let predicate ← compileExpr formats projects child
        let rest ← compileAndChildren formats projects hasMetadataKeyAnchor hasFeedbackKeyAnchor
          children
        return { rest with predicates := predicate :: rest.predicates }

end

end KevinDb
