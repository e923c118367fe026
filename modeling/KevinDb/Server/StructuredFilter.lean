import KevinDb.Lib.Json
import KevinDb.Query.FilterText

namespace KevinDb
set_option autoImplicit true

/-- `normalize_structured_operator`. -/
def normalizeStructuredOperator (operator : String) : Except String FilterFunction :=
  match toAsciiLowercase operator with
  | "=" | "==" | "eq" => .ok (.compare .eq)
  | "!=" | "<>" | "neq" | "ne" => .ok (.compare .neq)
  | ">" | "gt" => .ok (.compare .gt)
  | ">=" | "gte" | "ge" => .ok (.compare .gte)
  | "<" | "lt" => .ok (.compare .lt)
  | "<=" | "lte" | "le" => .ok (.compare .lte)
  | "in" | "is_one_of" | "is one of" => .ok .isIn
  | "has" => .ok .has
  | "contains" => .ok (.contains false)
  | "does_not_contain" | "not_contains" | "not contains" => .ok (.contains true)
  | "and" => .ok .and
  | "or" => .ok .or
  | "search" => .ok .search
  | "json_key" => .ok .jsonKey
  | "json_key_search" => .ok .jsonKeySearch
  | other => .error ("operator " ++ other ++ " is not supported")

def structuredFilterIdentifier (field : String) : Except String String :=
  if field = "" ∨ !field.toList.all isIdentChar then
    .error ("field " ++ field ++ " is not a valid filter identifier")
  else .ok field

/-- The loop of `structured_explicit_phase6_scope` over its keys. -/
def structuredExplicitScope (fields : JsonFields) : List String → Except String (Option String)
  | [] => .ok none
  | key :: keys =>
    match (fields.lookup key).bind Json.asStr with
    | none => structuredExplicitScope fields keys
    | some value =>
      match structuredFilterIdentifier value with
      | .ok identifier => .ok (some identifier)
      | .error _ => .error (key ++ " " ++ value ++ " is not a valid filter identifier")

def structuredExplicitPhase6Scope (fields : JsonFields) : Except String (Option String) :=
  structuredExplicitScope fields ["scope", "payload_field"]

def structuredPhase6Scope (fields : JsonFields) : Except String (Option String) := do
  match ← structuredExplicitPhase6Scope fields with
  | some scope => return some scope
  | none =>
    match (fields.lookup "field").bind Json.asStr with
    | none => return none
    | some value => (structuredFilterIdentifier value).map some

def structuredFilterLiteral (encoder : JsonEncoder) : Json → Except String (List Char)
  | .string value => .ok ('"' :: (value.toList.flatMap encoder.escape ++ ['"']))
  | .number value => .ok (encoder.number value)
  | .bool value => .ok (if value then "true" else "false").toList
  | _ => .error "filter values must be scalar"

/-- What `structured_filter_to_text` makes of a value, before it looks at the values that the
filter compares with and at its children. -/
inductive StructuredShape where
  | text (text : String)
  | logical (operator : FilterFunction) (children : List Json)
  | search (field : Option String) (query : Json)
  | jsonKey (field : Option String) (path : Json)
  | jsonKeySearch (field : Option String) (path query : Json)
  | isIn (field : String) (values : List Json)
  | call (function : FilterFunction) (field : String) (value : Json)

def okOr (message : String) : Option α → Except String α
  | some value => .ok value
  | none => .error message

/-- The branch for `json_key`. -/
def structuredJsonKey (fields : JsonFields) : Except String StructuredShape := do
  let path := Json.first fields ["path", "key", "value"]
  let field ← (if path.isSome then structuredPhase6Scope fields
    else structuredExplicitPhase6Scope fields)
  let path ← okOr "json_key filter requires path, key, field, or value"
    (path.or (if field.isNone then fields.lookup "field" else none))
  return .jsonKey field path

/-- The branch for `json_key_search`. -/
def structuredJsonKeySearch (fields : JsonFields) : Except String StructuredShape := do
  let path := Json.first fields ["path", "key"]
  let field ← (if path.isSome then structuredPhase6Scope fields
    else structuredExplicitPhase6Scope fields)
  let path ← okOr "json_key_search filter requires path, key, or field"
    (path.or (if field.isNone then fields.lookup "field" else none))
  let query ← okOr "json_key_search filter requires query or value"
    (Json.first fields ["query", "value"])
  return .jsonKeySearch field path query

/-- The branch for the other operators, which have a field and a value. -/
def structuredCall (fields : JsonFields) (operator : FilterFunction) :
    Except String StructuredShape := do
  let field ← okOr "structured filter requires field"
    ((Json.first fields ["field", "key", "column"]).bind Json.asStr)
  let field ← structuredFilterIdentifier field
  let value ← okOr "structured filter requires value" (Json.first fields ["values", "value"])
  if operator = .isIn then
    return .isIn field (← okOr "in filter requires array values" value.asArray)
  else return .call operator field value

/-- The branches for the normalized operator of an object. -/
def structuredOperator (fields : JsonFields) (operator : FilterFunction) :
    Except String StructuredShape :=
  match operator with
  | .and | .or => do
    return .logical operator (← okOr (operator.name ++ " filter requires children")
      ((Json.first fields ["children", "operands", "filters", "conditions", "args"]).bind
        Json.asArray))
  | .search => do
    let query ← okOr "search filter requires query or value"
      (Json.first fields ["query", "value", "search"])
    return .search (← structuredPhase6Scope fields) query
  | .jsonKey => structuredJsonKey fields
  | .jsonKeySearch => structuredJsonKeySearch fields
  | _ => structuredCall fields operator

def structuredObject (fields : JsonFields) : Except String StructuredShape :=
  match (fields.lookup "and").bind Json.asArray with
  | some children => .ok (.logical .and children)
  | none =>
    match (fields.lookup "or").bind Json.asArray with
    | some children => .ok (.logical .or children)
    | none =>
      match fields.lookup "search" with
      | some query => do return .search (← structuredPhase6Scope fields) query
      | none => do
        let operator := ((Json.first fields
          ["operator", "op", "comparator", "operation"]).bind Json.asStr).getD "eq"
        structuredOperator fields (← normalizeStructuredOperator operator)

def structuredShape : Json → Except String StructuredShape
  | .string text => .ok (.text text)
  | .array children => .ok (.logical .and children)
  | .object fields => structuredObject fields
  | _ => .error "filter must be a string, object, or array"

/-- A function with its arguments, and commas between them. -/
def callText (function : FilterFunction) (arguments : List (List Char)) : List Char :=
  function.name.toList ++ '(' :: ([',', ' '].intercalate arguments ++ [')'])

/-- The text of a function of an optional field and of literals. -/
def scopedText (encoder : JsonEncoder) (function : FilterFunction) (field : Option String)
    (literals : List Json) : Except String (List Char) := do
  let literals ← literals.mapM (structuredFilterLiteral encoder)
  return callText function (field.toList.map String.toList ++ literals)

/-- The end of `compile_structured_logical`, for the results of the children. -/
def compileStructuredLogical (operator : FilterFunction)
    (children : List (Except String (List Char))) : Except String (List Char) :=
  if children = [] then .error (operator.name ++ " filter requires at least one child")
  else do return callText operator (← children.mapM id)

/-- The text of a value that is no combination of others. -/
def StructuredShape.toText (encoder : JsonEncoder) : StructuredShape → Except String (List Char)
  | .text raw => .ok raw.toList
  | .logical operator _ => .error (operator.name ++ " filter requires at least one child")
  | .search field query => scopedText encoder .search field [query]
  | .jsonKey field path => scopedText encoder .jsonKey field [path]
  | .jsonKeySearch field path query => scopedText encoder .jsonKeySearch field [path, query]
  | .isIn field values => do
    let values ← values.mapM (structuredFilterLiteral encoder)
    return callText .isIn [field.toList, '[' :: ([',', ' '].intercalate values ++ [']'])]
  | .call function field value => do
    return callText function [field.toList, ← structuredFilterLiteral encoder value]

variable {fields : JsonFields} {operator function : FilterFunction} {children : List Json}
  {value child query path : Json}

theorem okOr_eq_ok {message : String} {o : Option α} {a : α} :
    okOr message o = .ok a ↔ o = some a := by
  cases o with
  | none => exact ⟨nofun, nofun⟩
  | some b => simp [okOr]

theorem sizeOf_mem_lookup {found : Option Json}
    (hfound : ∀ value, found = some value → sizeOf value < sizeOf (Json.object fields))
    (h : found.bind Json.asArray = some children) (hchild : child ∈ children) :
    sizeOf child < sizeOf (Json.object fields) := by
  obtain ⟨value, hvalue, harray⟩ := Option.bind_eq_some_iff.1 h
  rw [Json.asArray_eq_some] at harray
  subst harray
  exact lt_trans (Json.sizeOf_mem_array hchild) (hfound _ hvalue)

theorem structuredOperator_logical
    (h : structuredOperator fields operator = .ok (.logical function children))
    (hchild : child ∈ children) : sizeOf child < sizeOf (Json.object fields) := by
  have hcall : structuredCall fields operator ≠ .ok (.logical function children) := by
    intro h
    obtain ⟨field, -, h⟩ := bind_eq_ok h
    obtain ⟨identifier, -, h⟩ := bind_eq_ok h
    obtain ⟨value, -, h⟩ := bind_eq_ok h
    split at h
    · obtain ⟨values, -, h⟩ := bind_eq_ok h
      cases h
    · cases h
  cases operator with
  | and | or =>
    obtain ⟨found, hfound, h⟩ := bind_eq_ok h
    cases h
    exact sizeOf_mem_lookup (fun _ => Json.sizeOf_first) (okOr_eq_ok.1 hfound) hchild
  | search =>
    obtain ⟨query, -, h⟩ := bind_eq_ok h
    obtain ⟨scope, -, h⟩ := bind_eq_ok h
    cases h
  | jsonKey =>
    obtain ⟨scope, -, h⟩ := bind_eq_ok h
    obtain ⟨path, -, h⟩ := bind_eq_ok h
    cases h
  | jsonKeySearch =>
    obtain ⟨scope, -, h⟩ := bind_eq_ok h
    obtain ⟨path, -, h⟩ := bind_eq_ok h
    obtain ⟨query, -, h⟩ := bind_eq_ok h
    cases h
  | compare | has | isIn | contains => exact absurd h hcall

/-- The children of a combination are parts of it. -/
theorem structuredShape_logical
    (h : structuredShape value = .ok (.logical function children)) (hchild : child ∈ children) :
    sizeOf child < sizeOf value := by
  cases value with
  | array elements =>
    cases h
    exact Json.sizeOf_mem_array hchild
  | object fields =>
    change structuredObject fields = _ at h
    rw [structuredObject] at h
    split at h
    next found hfound =>
      cases h
      exact sizeOf_mem_lookup (fun _ => Json.sizeOf_lookup) hfound hchild
    split at h
    next found hfound =>
      cases h
      exact sizeOf_mem_lookup (fun _ => Json.sizeOf_lookup) hfound hchild
    split at h
    · obtain ⟨scope, -, h⟩ := bind_eq_ok h
      cases h
    · obtain ⟨operator, -, h⟩ := bind_eq_ok h
      exact structuredOperator_logical h hchild
  | _ => cases h

def structuredFilterToText (encoder : JsonEncoder) (value : Json) : Except String (List Char) :=
  match _hshape : structuredShape value with
  | .error message => .error message
  | .ok (.logical operator children) => compileStructuredLogical operator
      (children.attach.map fun child => structuredFilterToText encoder child.1)
  | .ok shape => shape.toText encoder
termination_by sizeOf value
decreasing_by exact structuredShape_logical _hshape child.2

theorem structuredFilterToText_logical {encoder : JsonEncoder}
    (h : structuredShape value = .ok (.logical operator children)) :
    structuredFilterToText encoder value =
      compileStructuredLogical operator (children.map (structuredFilterToText encoder)) := by
  rw [structuredFilterToText]
  split
  next heq => rw [h] at heq; cases heq
  next heq =>
    rw [h] at heq
    cases heq
    rw [List.map_attach_eq_pmap, List.pmap_eq_map]
  next hne heq =>
    rw [h] at heq
    cases heq
    exact absurd rfl (hne _ _)

theorem structuredFilterToText_shape {encoder : JsonEncoder} {shape : StructuredShape}
    (h : structuredShape value = .ok shape) (hshape : ∀ operator children,
      shape ≠ .logical operator children) :
    structuredFilterToText encoder value = shape.toText encoder := by
  rw [structuredFilterToText]
  split
  next heq => rw [h] at heq; cases heq
  next heq =>
    rw [h] at heq
    cases heq
    exact absurd rfl (hshape _ _)
  next heq =>
    rw [h] at heq
    cases heq
    rfl

end KevinDb
