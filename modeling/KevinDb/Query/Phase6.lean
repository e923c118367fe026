import KevinDb.Query.Filter
import KevinDb.Search.Predicate

namespace KevinDb
set_option autoImplicit true
open Sql

def FilterField.isPayload (field : FilterField) : Bool :=
  field ∈ [.inputs, .outputs, .extra, .attributesJson]

/-- The name of a field in error messages. Only payload fields have one of their own. -/
def FilterField.label : FilterField → String
  | .inputs => "inputs"
  | .outputs => "outputs"
  | .extra => "extra"
  | .attributesJson => "attributes_json"
  | _ => "filter"

def payloadScopes : FilterField → List SearchField
  | .inputs => [.pathPrefix "langsmith.inputs", .pathPrefix "inputs"]
  | .outputs => [.pathPrefix "langsmith.outputs", .pathPrefix "outputs"]
  | .extra => [.pathPrefix "langsmith.extra", .pathPrefix "extra"]
  | .attributesJson => [.all]
  | _ => []

def payloadPathPrefixes : FilterField → List String
  | .inputs => ["langsmith.inputs", "inputs"]
  | .outputs => ["langsmith.outputs", "outputs"]
  | .extra => ["langsmith.extra", "extra"]
  | _ => []

def indexedTextPath : FilterField → Option String
  | .name => some "name"
  | .runType => some "run_type"
  | .status => some "status"
  | _ => none

def joinPathPattern (front suffix : String) : String :=
  if suffix = "" then front else front ++ "." ++ suffix

/-- The predicate of the only scope, or the disjunction of those of all the scopes. -/
def overScopes (scopes : List σ) (predicate : σ → SearchPredicate) : SearchPredicate :=
  match scopes with
  | [scope] => predicate scope
  | _ => .or (scopes.map predicate)

def payloadTextPredicate (field : FilterField) (query : SearchQuery) : SearchPredicate :=
  overScopes (payloadScopes field) fun scope => .text scope query

def payloadExactValuePredicate (field : FilterField) (value : String) : SearchPredicate :=
  overScopes (payloadScopes field) fun scope => .exactValue scope value

def unsupportedSearchField (field : FilterField) : FilterError :=
  .unsupported ("field " ++ field.label ++ " is not available in the Phase 6 search index")

def fieldTextPredicate (field : FilterField) (query : SearchQuery) :
    Except FilterError SearchPredicate :=
  if field.isPayload then .ok (payloadTextPredicate field query)
  else
    match indexedTextPath field with
    | some path => .ok (.text (.exactPath path) query)
    | none => .error (unsupportedSearchField field)

def payloadExactPathTextPredicate (field : FilterField) (path : String) (query : SearchQuery) :
    SearchPredicate :=
  match payloadPathPrefixes field with
  | [] => .text (.exactPath path) query
  | prefixes => .or (prefixes.map fun front => .text (.exactPath (joinPathPattern front path)) query)

def fieldExactPathTextPredicate (field : FilterField) (path : String) (query : SearchQuery) :
    Except FilterError SearchPredicate :=
  if field.isPayload then .ok (payloadExactPathTextPredicate field path query)
  else .error (unsupportedSearchField field)

def payloadPathPredicate (field : FilterField) (suffix : String) : SearchPredicate :=
  match payloadPathPrefixes field with
  | [] => .jsonKey suffix
  | prefixes => .or (prefixes.map fun front => .jsonKey (joinPathPattern front suffix))

def combineAnd : List SearchPredicate → Option SearchPredicate
  | [] => none
  | [predicate] => some predicate
  | predicates => some (.and predicates)

def combineOr : List SearchPredicate → Option SearchPredicate
  | [] => none
  | [predicate] => some predicate
  | predicates => some (.or predicates)

def isPhase6Atom : FilterExpr → Bool
  | .search _ _ | .jsonKey _ _ | .jsonKeySearch _ _ _ => true
  | .compare _ field _ | .has field _ | .isIn field _ | .contains field _ _ => field.isPayload
  | .and _ | .or _ => false

mutual

def containsPhase6Atom : FilterExpr → Bool
  | .and children | .or children => anyContainsPhase6Atom children
  | expr => isPhase6Atom expr

def anyContainsPhase6Atom : List FilterExpr → Bool
  | [] => false
  | child :: children => containsPhase6Atom child || anyContainsPhase6Atom children

end

mutual

def containsScalarAtom : FilterExpr → Bool
  | .and children | .or children => anyContainsScalarAtom children
  | expr => !isPhase6Atom expr

def anyContainsScalarAtom : List FilterExpr → Bool
  | [] => false
  | child :: children => containsScalarAtom child || anyContainsScalarAtom children

end

def mixedOrError : FilterError :=
  .unsupported "Phase 6 search predicates can only be ORed with other search predicates"

def phase6AtomPredicate (formats : FilterFormats) :
    FilterExpr → Except FilterError (Option SearchPredicate)
  | .search field query =>
    match field with
    | some field => return some (← fieldTextPredicate field (.parse query))
    | none => return some (.text .all (.parse query))
  | .jsonKey field pattern =>
    match field with
    | some field =>
      if field.isPayload then return some (payloadPathPredicate field pattern)
      else .error (unsupportedSearchField field)
    | none => return some (.jsonKey pattern)
  | .jsonKeySearch field path query =>
    match field with
    | some field => return some (← fieldExactPathTextPredicate field path (.parse query))
    | none => return some (.text (.exactPath path) (.parse query))
  | .compare op field value =>
    if field.isPayload then
      let predicate := payloadExactValuePredicate field (value.asString formats)
      match op with
      | .eq => return some predicate
      | .neq => return some (.not predicate)
      | _ => .error (.unsupported "payload JSON comparisons only support eq and neq")
    else return none
  | .has field value =>
    if field.isPayload then return some (payloadPathPredicate field (value.asString formats))
    else return none
  | .isIn field values =>
    if field.isPayload then
      if values = [] then .error (.parse "in() requires a non-empty list")
      else return combineOr (values.map fun value =>
        payloadExactValuePredicate field (value.asString formats))
    else return none
  | .contains field value negated =>
    if field.isPayload then
      let predicate := payloadTextPredicate field (.parse (value.asString formats))
      return some (if negated then .not predicate else predicate)
    else return none
  | .and _ | .or _ => return none

mutual

def phase6PredicateForExpr (formats : FilterFormats) :
    FilterExpr → Except FilterError (Option SearchPredicate)
  | .and children => do return combineAnd (← phase6Conjuncts formats children)
  | .or children =>
    if anyContainsPhase6Atom children then
      if anyContainsScalarAtom children then .error mixedOrError
      else do return combineOr (← phase6Disjuncts formats children)
    else .ok none
  | expr => phase6AtomPredicate formats expr

/-- The predicates of the children of an `and()` that have one. -/
def phase6Conjuncts (formats : FilterFormats) :
    List FilterExpr → Except FilterError (List SearchPredicate)
  | [] => .ok []
  | child :: children => do
    let predicate ← phase6PredicateForExpr formats child
    let predicates ← phase6Conjuncts formats children
    return predicate.toList ++ predicates

/-- The predicates of the children of an `or()`, which all need one. -/
def phase6Disjuncts (formats : FilterFormats) :
    List FilterExpr → Except FilterError (List SearchPredicate)
  | [] => .ok []
  | child :: children => do
    match ← phase6PredicateForExpr formats child with
    | some predicate => return predicate :: (← phase6Disjuncts formats children)
    | none => .error (.unsupported "or() search branch did not contain a search predicate")

end

/-- The only expression, or the conjunction of all of them. -/
def conjunction : List FilterExpr → Option FilterExpr
  | [] => none
  | [expr] => some expr
  | exprs => some (.and exprs)

mutual

def scalarPrefilterExpr : FilterExpr → Except FilterError (Option FilterExpr)
  | .and children => do return conjunction (← scalarConjuncts children)
  | .or children =>
    if anyContainsPhase6Atom children then
      if anyContainsScalarAtom children then .error mixedOrError else .ok none
    else .ok (some (.or children))
  | expr => .ok (if isPhase6Atom expr then none else some expr)

/-- The scalar parts of the children of an `and()` that have one. -/
def scalarConjuncts : List FilterExpr → Except FilterError (List FilterExpr)
  | [] => .ok []
  | child :: children => do
    let scalar ← scalarPrefilterExpr child
    let scalars ← scalarConjuncts children
    return scalar.toList ++ scalars

end

def FilterExpr.phase6SearchPredicate (formats : FilterFormats) (expr : FilterExpr) :
    Except FilterError (Option SearchPredicate) :=
  phase6PredicateForExpr formats expr

def FilterExpr.compileRunHeadPrefilterForProjects (formats : FilterFormats)
    (projects : List String) (expr : FilterExpr) : Except FilterError (Option HeadPredicate) := do
  match ← scalarPrefilterExpr expr with
  | none => return none
  | some expr => return some (← compileExpr formats projects expr)

/-- A row of `run_tags`. -/
structure TagRow where
  projectName : String
  tag : String
deriving DecidableEq, Repr

/-- A row of `run_metadata`. -/
structure MetadataRow where
  projectName : String
  key : String
  value : String
deriving DecidableEq, Repr

/-- A row of `feedback`. -/
structure FeedbackRow where
  projectName : String
  runId : Option String
  key : String
  valueText : Option String
  scoreNumber : Option ℚ
deriving DecidableEq

def MetadataRow.column (row : MetadataRow) : MetadataColumn → Value
  | .key => .text row.key
  | .value => .text row.value

def FeedbackRow.column (row : FeedbackRow) : FeedbackColumn → Value
  | .key => .text row.key
  | .valueText => (row.valueText.map Value.text).getD .null
  | .scoreNumber => (row.scoreNumber.map Value.real).getD .null

/-- What a scalar filter reads of a run: the columns of its head, the rows of tags and of metadata
that have its key, and the rows of feedback. -/
structure FilterRun where
  column : HeadColumn → Value
  tags : List TagRow
  metadata : List MetadataRow
  feedback : List FeedbackRow

/-- Without projects a subquery runs over all of them. -/
def inProjects (projects : List String) (projectName : String) : Bool :=
  projects = [] ∨ projectName ∈ projects

/-- A row of feedback that the run ids of a head select. -/
def FilterRun.selects (run : FilterRun) (row : FeedbackRow) : Bool :=
  match row.runId with
  | none => false
  | some runId => run.column .nonemptyRunId = .text runId ∨ run.column .generatedRunId = .text runId

def MetadataRow.meets (rules : TextRules) (row : MetadataRow)
    (condition : Predicate (Comparison MetadataColumn)) : Bool :=
  condition.holds fun comparison => comparison.truth rules row.column

def FeedbackRow.meets (rules : TextRules) (row : FeedbackRow)
    (condition : Comparison FeedbackColumn) : Bool :=
  condition.truth rules row.column = some true

/-- One row of metadata meets all the conditions. -/
def FilterRun.hasMetadata (rules : TextRules) (projects : List String) (run : FilterRun)
    (conditions : List (Predicate (Comparison MetadataColumn))) : Bool :=
  run.metadata.any fun row => inProjects projects row.projectName && conditions.all (row.meets rules)

/-- One row of feedback meets all the conditions. -/
def FilterRun.hasFeedback (rules : TextRules) (projects : List String) (run : FilterRun)
    (conditions : List (Comparison FeedbackColumn)) : Bool :=
  run.feedback.any fun row =>
    run.selects row && inProjects projects row.projectName && conditions.all (row.meets rules)

def HeadCondition.truth (rules : TextRules) (run : FilterRun) : HeadCondition → Truth
  | .compare comparison => comparison.truth rules run.column
  | .tagIn projects condition => some <| run.tags.any fun row =>
      inProjects projects row.projectName && condition.truth rules (fun _ => .text row.tag) = some true
  | .metadataIn projects conditions => some (run.hasMetadata rules projects conditions)
  | .feedbackIn projects conditions => some (run.hasFeedback rules projects conditions)

/-- The run satisfies the SQL of a filter. -/
def FilterRun.satisfies (rules : TextRules) (run : FilterRun) (sql : HeadPredicate) : Bool :=
  sql.holds (HeadCondition.truth rules run)

end KevinDb
