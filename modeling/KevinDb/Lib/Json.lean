import Mathlib.Data.Rat.Defs
import Mathlib.Data.List.Basic
import Mathlib.Tactic.Common

namespace KevinDb

/-- A number of JSON, which an encoder writes as an integer or as a double. -/
inductive JsonNumber where
  | integer (value : Int)
  | float (value : ℚ)
deriving DecidableEq

def JsonNumber.value : JsonNumber → ℚ
  | .integer value => value
  | .float value => value

inductive Json where
  | null
  | bool (value : Bool)
  | number (value : JsonNumber)
  | string (value : String)
  | array (elements : List Json)
  | object (fields : List (String × Json))

abbrev JsonFields := List (String × Json)

namespace Json

def asStr : Json → Option String
  | .string value => some value
  | _ => none

def asArray : Json → Option (List Json)
  | .array elements => some elements
  | _ => none

/-- The first of the keys that the object has. -/
def first (fields : JsonFields) (keys : List String) : Option Json :=
  keys.findSome? fun key => fields.lookup key

variable {fields : JsonFields} {key : String} {keys : List String} {value : Json}

theorem sizeOf_lookup (h : fields.lookup key = some value) :
    sizeOf value < sizeOf (Json.object fields) := by
  induction fields with
  | nil => cases h
  | cons field fields ih =>
    obtain ⟨name, found⟩ := field
    rw [List.lookup_cons] at h
    simp only [Json.object.sizeOf_spec, List.cons.sizeOf_spec, Prod.mk.sizeOf_spec] at ih ⊢
    split at h
    · cases h
      omega
    · have := ih h
      omega

theorem sizeOf_first (h : first fields keys = some value) :
    sizeOf value < sizeOf (Json.object fields) := by
  obtain ⟨key, -, hkey⟩ := List.exists_of_findSome?_eq_some h
  exact sizeOf_lookup hkey

theorem sizeOf_mem_array {elements : List Json} (h : value ∈ elements) :
    sizeOf value < sizeOf (Json.array elements) := by
  have := List.sizeOf_lt_of_mem h
  rw [Json.array.sizeOf_spec]
  omega

theorem asArray_eq_some {elements : List Json} : value.asArray = some elements ↔
    value = .array elements := by
  cases value with
  | array found => simp [asArray]
  | _ => exact ⟨nofun, nofun⟩

end Json

/-- An encoder of JSON: how it writes a character of a string, and a number. -/
structure JsonEncoder where
  escape : Char → List Char
  number : JsonNumber → List Char

/-- The characters of a number of JSON. -/
def isJsonNumberChar (ch : Char) : Bool :=
  ch.isDigit || ch ∈ ['-', '+', '.', 'e', 'E']

/-- What JSON asks of an encoder, and no more escapes than it asks for: the quote and the backslash
get a backslash, control characters an escape, and other characters stand for themselves. -/
structure JsonEncoder.Conforms (encoder : JsonEncoder) : Prop where
  quoted (ch : Char) (h : ch = '"' ∨ ch = '\\') : encoder.escape ch = ['\\', ch]
  plain (ch : Char) (h : ¬ (ch = '"' ∨ ch = '\\')) (hplain : ' ' ≤ ch) : encoder.escape ch = [ch]
  control (ch : Char) (h : ch < ' ') : ∃ kind digits, encoder.escape ch = '\\' :: kind :: digits ∧
    ' ' ≤ kind ∧ ∀ digit ∈ digits, ' ' ≤ digit ∧ digit ≠ '"' ∧ digit ≠ '\\'
  number (value : JsonNumber) : ∃ start chars, encoder.number value = start :: chars ∧
    (start = '-' ∨ start.isDigit) ∧ ∀ ch ∈ chars, isJsonNumberChar ch

end KevinDb
