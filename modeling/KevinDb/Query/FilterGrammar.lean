import KevinDb.Query.FilterLexer

namespace KevinDb
set_option autoImplicit true

def CompareOp.name : CompareOp → String
  | .eq => "eq"
  | .neq => "neq"
  | .gt => "gt"
  | .gte => "gte"
  | .lt => "lt"
  | .lte => "lte"

/-- The first name that `parse_field` reads as the field. -/
def FilterField.spelling : FilterField → String
  | .id => "id"
  | .name => "name"
  | .runType => "run_type"
  | .status => "status"
  | .startTime => "start_time"
  | .endTime => "end_time"
  | .latency => "latency"
  | .tags => "tags"
  | .metadataKey => "metadata_key"
  | .metadataValue => "metadata_value"
  | .feedbackKey => "feedback_key"
  | .feedbackScore => "feedback_score"
  | .feedbackValue => "feedback_value"
  | .isRoot => "is_root"
  | .traceId => "trace_id"
  | .projectName => "project_name"
  | .rootRunId => "root_run_id"
  | .rootSpanId => "root_span_id"
  | .modelName => "model"
  | .providerName => "provider"
  | .promptTokens => "prompt_tokens"
  | .completionTokens => "completion_tokens"
  | .totalTokens => "total_tokens"
  | .totalCost => "total_cost"
  | .error => "error"
  | .inputs => "inputs"
  | .outputs => "outputs"
  | .extra => "extra"
  | .attributesJson => "attributes_json"

theorem FilterField.parseField_spelling (field : FilterField) :
    parseField field.spelling = .ok field := by
  cases field <;> rfl

/-- The name of a function. A negated `contains` has two. -/
def FilterFunction.name : FilterFunction → String
  | .and => "and"
  | .or => "or"
  | .compare op => op.name
  | .has => "has"
  | .isIn => "in"
  | .contains false => "contains"
  | .contains true => "does_not_contain"
  | .search => "search"
  | .jsonKey => "json_key"
  | .jsonKeySearch => "json_key_search"

/-- A place of the grammar of filters, which a token takes. -/
inductive Slot where
  | call (function : FilterFunction)
  | field (field : FilterField)
  | value (value : FilterValue)
  | text (value : String)
  | path (value : String)
  | mark (token : Token)

def Token.isIdent : Token → Bool
  | .ident _ => true
  | _ => false

/-- The value of a token, as a text. -/
def Token.text? (formats : FilterFormats) (token : Token) : Option String :=
  token.value?.map (FilterValue.asString formats)

/-- The token can be read in the place. A path without a field in front of it is no identifier, as
that would be the field. -/
def Slot.reads (formats : FilterFormats) : Slot → Token → Prop
  | .call f, token => ∃ name, token = .ident name ∧ filterFunction (toAsciiLowercase name) = .ok f
  | .field f, token => ∃ name, token = .ident name ∧ parseField name = .ok f
  | .value v, token => token.value? = some v
  | .text t, token => token.text? formats = some t
  | .path t, token => token.isIdent = false ∧ token.text? formats = some t
  | .mark m, token => token = m

/-- The canonical token of a place. -/
def Slot.token : Slot → Token
  | .call f => .ident f.name
  | .field f => .ident f.spelling
  | .value (.string v) => .string v
  | .value (.number v) => .number v
  | .value (.bool v) => .ident (if v then "true" else "false")
  | .text t => .string t
  | .path t => .string t
  | .mark m => m

/-- The places of a function with its arguments. -/
def callSlots (function : FilterFunction) (arguments : List Slot) : List Slot :=
  .call function :: .mark .lParen :: (arguments ++ [.mark .rParen])

/-- Places with commas between them. -/
def commaSlots : List (List Slot) → List Slot
  | [] => []
  | [slots] => slots
  | slots :: next :: rest => slots ++ .mark .comma :: commaSlots (next :: rest)

def optionalField : Option FilterField → List Slot
  | none => []
  | some field => [.field field, .mark .comma]

def FilterExpr.function : FilterExpr → FilterFunction
  | .and _ => .and
  | .or _ => .or
  | .compare op _ _ => .compare op
  | .has _ _ => .has
  | .isIn _ _ => .isIn
  | .contains _ _ negated => .contains negated
  | .search _ _ => .search
  | .jsonKey _ _ => .jsonKey
  | .jsonKeySearch _ _ _ => .jsonKeySearch

mutual

/-- The places between the parentheses of an expression. -/
def FilterExpr.arguments : FilterExpr → List Slot
  | .and children => commaSlots (FilterExpr.childSlots children)
  | .or children => commaSlots (FilterExpr.childSlots children)
  | .compare _ field value => [.field field, .mark .comma, .value value]
  | .has field value => [.field field, .mark .comma, .value value]
  | .isIn field values => .field field :: .mark .comma :: .mark .lBracket ::
    (commaSlots (values.map fun value => [.value value]) ++ [.mark .rBracket])
  | .contains field value _ => [.field field, .mark .comma, .value value]
  | .search field query => optionalField field ++ [.text query]
  | .jsonKey field pattern => optionalField field ++ [.text pattern]
  | .jsonKeySearch none path query => [.path path, .mark .comma, .text query]
  | .jsonKeySearch (some field) path query =>
    [.field field, .mark .comma, .text path, .mark .comma, .text query]

def FilterExpr.childSlots : List FilterExpr → List (List Slot)
  | [] => []
  | child :: children => callSlots child.function child.arguments :: FilterExpr.childSlots children

end

def FilterExpr.slots (expr : FilterExpr) : List Slot :=
  callSlots expr.function expr.arguments

mutual

/-- The number of nodes below an expression. -/
def FilterExpr.descendants : FilterExpr → Nat
  | .and children => FilterExpr.childNodes children
  | .or children => FilterExpr.childNodes children
  | _ => 0

def FilterExpr.childNodes : List FilterExpr → Nat
  | [] => 0
  | child :: children => child.descendants + 1 + FilterExpr.childNodes children

end

def FilterExpr.nodes (expr : FilterExpr) : Nat :=
  expr.descendants + 1

mutual

/-- The nesting below an expression. -/
def FilterExpr.depth : FilterExpr → Nat
  | .and children => FilterExpr.childLevels children
  | .or children => FilterExpr.childLevels children
  | _ => 0

def FilterExpr.childLevels : List FilterExpr → Nat
  | [] => 0
  | child :: children => max (child.depth + 1) (FilterExpr.childLevels children)

end

/-- The limits of the parser. -/
def FilterExpr.withinLimits (expr : FilterExpr) : Prop :=
  expr.nodes ≤ maxFilterNodes ∧ expr.depth ≤ maxFilterDepth

/-- The tokens are those of the expression, but for the aliases of its functions and fields and for
the texts that its values are read from. -/
def FilterExpr.spelledBy (formats : FilterFormats) (expr : FilterExpr) (tokens : List Token) :
    Prop :=
  List.Forall₂ (Slot.reads formats) expr.slots tokens

def FilterExpr.tokens (expr : FilterExpr) : List Token :=
  expr.slots.map Slot.token

theorem FilterExpr.childSlots_eq (children : List FilterExpr) :
    childSlots children = children.map slots := by
  induction children with
  | nil => rw [childSlots, List.map_nil]
  | cons child children ih =>
    rw [childSlots, ih, List.map_cons]
    rfl

theorem FilterExpr.childNodes_eq (children : List FilterExpr) :
    childNodes children = (children.map nodes).sum := by
  induction children with
  | nil => rw [childNodes, List.map_nil, List.sum_nil]
  | cons child children ih =>
    rw [childNodes, ih, List.map_cons, List.sum_cons]
    rfl

theorem FilterExpr.childLevels_le {children : List FilterExpr} {levels : Nat} :
    childLevels children ≤ levels ↔ ∀ child ∈ children, child.depth < levels := by
  induction children with
  | nil => exact iff_of_true (by rw [childLevels]; exact Nat.zero_le _) nofun
  | cons child children ih =>
    rw [childLevels, max_le_iff, ih, List.forall_mem_cons, Nat.succ_le_iff]

end KevinDb
