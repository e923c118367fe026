import KevinDb.Lib.Text
import KevinDb.Query.Filter

namespace KevinDb
set_option autoImplicit true

def maxFilterDepth : Nat := 16

def maxFilterNodes : Nat := 128

inductive Token where
  | ident (value : String)
  | string (value : String)
  | number (value : ℚ)
  | lParen
  | rParen
  | lBracket
  | rBracket
  | comma
deriving DecidableEq

/-- What the parser takes from the standard library: the texts of doubles, and the debug texts that
its errors quote. -/
structure FilterReader where
  formats : FilterFormats
  debugToken : Token → String
  debugChar : Char → String

/-- The other quote of the filter language. -/
def singleQuote : Char := Char.ofNat 39

def isIdentStart (ch : Char) : Bool :=
  ch.isAlpha || ch = '_'

def isIdentChar (ch : Char) : Bool :=
  ch.isAlphanum || ch = '_'

def isNumberChar (ch : Char) : Bool :=
  ch.isDigit || ch = '-' || ch = '.'

/-- `read_string`, after the quote that opens the string. -/
def readString (quote : Char) (value : List Char) :
    List Char → Except FilterError (String × List Char)
  | [] => .error (.parse "unterminated string")
  | ch :: chars =>
    if ch = quote then .ok (String.ofList value, chars)
    else if ch = '\\' then
      match chars with
      | [] => .error (.parse "unterminated escape")
      | escaped :: chars => readString quote (value ++ [escaped]) chars
    else readString quote (value ++ [ch]) chars

def readNumber (reader : FilterReader) (chars : List Char) :
    Except FilterError (Token × List Char) :=
  let (value, chars) := chars.span isNumberChar
  match reader.formats.readF64 (String.ofList value) with
  | some number => .ok (.number number, chars)
  | none => .error (.parse ("invalid number " ++ String.ofList value))

def readIdent (chars : List Char) : String × List Char :=
  let (value, chars) := chars.span isIdentChar
  (String.ofList value, chars)

/-- A turn of the loop of `lex`: the token that the characters start with, if it is not a space. -/
def lexToken (reader : FilterReader) (ch : Char) (chars : List Char) :
    Except FilterError (Option Token × List Char) :=
  if isWhitespace ch then .ok (none, chars)
  else if ch = '(' then .ok (some .lParen, chars)
  else if ch = ')' then .ok (some .rParen, chars)
  else if ch = '[' then .ok (some .lBracket, chars)
  else if ch = ']' then .ok (some .rBracket, chars)
  else if ch = ',' then .ok (some .comma, chars)
  else if ch = '"' ∨ ch = singleQuote then do
    let (value, chars) ← readString ch [] chars
    return (some (.string value), chars)
  else if ch = '-' ∨ ch.isDigit then do
    let (token, chars) ← readNumber reader (ch :: chars)
    return (some token, chars)
  else if isIdentStart ch then
    let (value, chars) := readIdent (ch :: chars)
    .ok (some (.ident value), chars)
  else .error (.parse ("unexpected character " ++ reader.debugChar ch))

/-- The loop of `lex`. Every turn reads a character, so their number bounds the turns. -/
def lexTurns (reader : FilterReader) : Nat → List Char → Except FilterError (List Token)
  | _, [] => .ok []
  | 0, _ :: _ => .ok []
  | turns + 1, ch :: chars => do
    let (token, chars) ← lexToken reader ch chars
    let tokens ← lexTurns reader turns chars
    return token.toList ++ tokens

def lex (reader : FilterReader) (chars : List Char) : Except FilterError (List Token) :=
  lexTurns reader chars.length chars

/-- The tokens from the offset on, and the number of nodes so far. -/
structure Parser where
  tokens : List Token
  nodes : Nat

/-- What is read, and the parser after it. -/
abbrev Parsed (α : Type) := α × Parser

namespace Parser

def expectIdent (reader : FilterReader) (parser : Parser) : Except FilterError (Parsed String) :=
  match parser.tokens with
  | .ident value :: tokens => .ok (value, { parser with tokens })
  | other :: _ => .error (.parse ("expected identifier, found " ++ reader.debugToken other))
  | [] => .error (.parse "expected identifier")

def expect (reader : FilterReader) (expected : Token) (parser : Parser) :
    Except FilterError Parser :=
  match parser.tokens with
  | token :: tokens =>
    if token = expected then .ok { parser with tokens }
    else .error (.parse ("expected " ++ reader.debugToken expected ++ ", found " ++
      reader.debugToken token))
  | [] => .error (.parse ("expected " ++ reader.debugToken expected))

def peekIs (expected : Token) (parser : Parser) : Bool :=
  parser.tokens.head? = some expected

/-- `consume_if`: the parser after the token, if that is the next one. -/
def consumeIf (expected : Token) (parser : Parser) : Option Parser :=
  if parser.peekIs expected then some { parser with tokens := parser.tokens.tail } else none

/-- The loop over elements with commas between them. Every turn but the last one reads a comma, so
the number of tokens bounds the turns. -/
def elements (element : Parser → Except FilterError (Parsed α)) :
    Nat → Parser → Except FilterError (Parsed (List α))
  | 0, _ => .error (.parse "")
  | turns + 1, parser => do
    let (value, parser) ← element parser
    match parser.consumeIf .comma with
    | some parser =>
      let (values, parser) ← elements element turns parser
      return (value :: values, parser)
    | none => return ([value], parser)

/-- The elements up to a closing token, which may come at once. -/
def elementsUntil (closing : Token) (element : Parser → Except FilterError (Parsed α))
    (parser : Parser) : Except FilterError (Parsed (List α)) :=
  if parser.peekIs closing then .ok ([], parser)
  else elements element (parser.tokens.length + 1) parser

end Parser

/-- The value of a token, if it is one. -/
def Token.value? : Token → Option FilterValue
  | .string value => some (.string value)
  | .number value => some (.number value)
  | .ident value =>
    if toAsciiLowercase value = "true" then some (.bool true)
    else if toAsciiLowercase value = "false" then some (.bool false)
    else none
  | _ => none

def parseField (value : String) : Except FilterError FilterField :=
  match value with
  | "id" | "run_id" => .ok .id
  | "name" => .ok .name
  | "project_name" | "session" | "session_name" => .ok .projectName
  | "run_type" => .ok .runType
  | "status" => .ok .status
  | "error" => .ok .error
  | "start_time" => .ok .startTime
  | "end_time" => .ok .endTime
  | "latency" => .ok .latency
  | "tags" => .ok .tags
  | "metadata_key" => .ok .metadataKey
  | "metadata_value" => .ok .metadataValue
  | "feedback_key" => .ok .feedbackKey
  | "feedback_score" => .ok .feedbackScore
  | "feedback_value" => .ok .feedbackValue
  | "is_root" => .ok .isRoot
  | "trace_id" | "trace" => .ok .traceId
  | "root_run_id" => .ok .rootRunId
  | "root_span_id" => .ok .rootSpanId
  | "model" | "model_name" | "ls_model_name" => .ok .modelName
  | "provider" | "provider_name" | "ls_provider" => .ok .providerName
  | "prompt_tokens" => .ok .promptTokens
  | "completion_tokens" => .ok .completionTokens
  | "total_tokens" => .ok .totalTokens
  | "total_cost" => .ok .totalCost
  | "inputs" => .ok .inputs
  | "outputs" => .ok .outputs
  | "extra" => .ok .extra
  | "attributes_json" => .ok .attributesJson
  | other => .error (.unsupported ("field " ++ other ++ " is not indexed"))

/-- The arms of the match on the name of an operator in `parse_expr`. -/
inductive FilterFunction where
  | and
  | or
  | compare (op : CompareOp)
  | has
  | isIn
  | contains (negated : Bool)
  | search
  | jsonKey
  | jsonKeySearch
deriving DecidableEq

def filterFunction (name : String) : Except FilterError FilterFunction :=
  match name with
  | "and" => .ok .and
  | "or" => .ok .or
  | "eq" => .ok (.compare .eq)
  | "neq" => .ok (.compare .neq)
  | "gt" => .ok (.compare .gt)
  | "gte" => .ok (.compare .gte)
  | "lt" => .ok (.compare .lt)
  | "lte" => .ok (.compare .lte)
  | "has" => .ok .has
  | "in" => .ok .isIn
  | "contains" => .ok (.contains false)
  | "does_not_contain" => .ok (.contains true)
  | "not_contains" => .ok (.contains true)
  | "search" => .ok .search
  | "json_key" => .ok .jsonKey
  | "json_key_search" => .ok .jsonKeySearch
  | name => .error (.unsupported ("operator " ++ name ++ " is not supported"))

namespace Parser

def parseValue (reader : FilterReader) (parser : Parser) :
    Except FilterError (Parsed FilterValue) :=
  match parser.tokens with
  | token :: tokens =>
    match token.value? with
    | some value => .ok (value, { parser with tokens })
    | none => .error (.parse ("expected value, found " ++ reader.debugToken token))
  | [] => .error (.parse "expected value")

def parseText (reader : FilterReader) (parser : Parser) : Except FilterError (Parsed String) := do
  let (value, parser) ← parser.parseValue reader
  return (value.asString reader.formats, parser)

def parseList (reader : FilterReader) (parser : Parser) :
    Except FilterError (Parsed (List FilterValue)) := do
  let parser ← parser.expect reader .lBracket
  let (values, parser) ← parser.elementsUntil .rBracket (parseValue reader)
  let parser ← parser.expect reader .rBracket
  return (values, parser)

def parseFieldName (reader : FilterReader) (parser : Parser) :
    Except FilterError (Parsed FilterField) := do
  let (name, parser) ← parser.expectIdent reader
  let field ← parseField name
  return (field, parser)

def parseOptionalFieldPrefix (parser : Parser) : Except FilterError (Parsed (Option FilterField)) :=
  match parser.tokens with
  | .ident field :: .comma :: tokens => do
    let field ← parseField field
    return (some field, { parser with tokens })
  | _ => .ok (none, parser)

/-- The arguments of an operator, up to the closing parenthesis. -/
def parseArguments (reader : FilterReader)
    (child : Parser → Except FilterError (Parsed FilterExpr)) (function : FilterFunction)
    (parser : Parser) : Except FilterError (Parsed FilterExpr) :=
  match function with
  | .and => do
    let (children, parser) ← parser.elementsUntil .rParen child
    return (.and children, parser)
  | .or => do
    let (children, parser) ← parser.elementsUntil .rParen child
    return (.or children, parser)
  | .compare op => do
    let (field, parser) ← parser.parseFieldName reader
    let parser ← parser.expect reader .comma
    let (value, parser) ← parser.parseValue reader
    return (.compare op field value, parser)
  | .has => do
    let (field, parser) ← parser.parseFieldName reader
    let parser ← parser.expect reader .comma
    let (value, parser) ← parser.parseValue reader
    return (.has field value, parser)
  | .isIn => do
    let (field, parser) ← parser.parseFieldName reader
    let parser ← parser.expect reader .comma
    let (values, parser) ← parser.parseList reader
    return (.isIn field values, parser)
  | .contains negated => do
    let (field, parser) ← parser.parseFieldName reader
    let parser ← parser.expect reader .comma
    let (value, parser) ← parser.parseValue reader
    return (.contains field value negated, parser)
  | .search => do
    let (field, parser) ← parser.parseOptionalFieldPrefix
    let (query, parser) ← parser.parseText reader
    return (.search field query, parser)
  | .jsonKey => do
    let (field, parser) ← parser.parseOptionalFieldPrefix
    let (pattern, parser) ← parser.parseText reader
    return (.jsonKey field pattern, parser)
  | .jsonKeySearch => do
    let (field, parser) ← parser.parseOptionalFieldPrefix
    let (path, parser) ← parser.parseText reader
    let parser ← parser.expect reader .comma
    let (query, parser) ← parser.parseText reader
    return (.jsonKeySearch field path query, parser)

/-- `parse_expr` at a depth, by the levels that are left to it: one more than
`MAX_FILTER_DEPTH` for the root. -/
def parseExpr (reader : FilterReader) : Nat → Parser → Except FilterError (Parsed FilterExpr)
  | 0, _ => .error (.parse "filter nesting is too deep")
  | levels + 1, parser =>
    if maxFilterNodes < parser.nodes + 1 then .error (.parse "filter is too large")
    else do
      let (name, parser) ← expectIdent reader { parser with nodes := parser.nodes + 1 }
      let parser ← parser.expect reader .lParen
      let function ← filterFunction (toAsciiLowercase name)
      let (expr, parser) ← parser.parseArguments reader (parseExpr reader levels) function
      let parser ← parser.expect reader .rParen
      return (expr, parser)

end Parser

/-- `parse_filter_expr`, which is `FilterExpr::parse`. -/
def parseFilterExpr (reader : FilterReader) (input : String) : Except FilterError FilterExpr := do
  let tokens ← lex reader input.toList
  let (expr, parser) ← Parser.parseExpr reader (maxFilterDepth + 1) ⟨tokens, 0⟩
  if parser.tokens = [] then return expr
  else throw (.parse "trailing tokens")

/-- A reader of whole numbers. -/
def wholeReader : FilterReader where
  formats :=
    { showF64 := fun value => toString value.num
      readF64 := fun text => text.toInt?.map fun value : Int => (value : ℚ)
      readI64 := String.toInt?
      nanosOfSeconds := fun seconds => ⌊seconds * 1000000000⌋
      nanosOfTime := fun _ => none }
  debugToken := fun _ => "token"
  debugChar := Char.toString

example : (lex wholeReader "Has(tags, \"a\\\"b\")".toList).toOption =
    some [.ident "Has", .lParen, .ident "tags", .comma, .string "a\"b", .rParen] := by
  decide +kernel

end KevinDb
