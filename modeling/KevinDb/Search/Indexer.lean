import KevinDb.Lib.Json
import KevinDb.Lib.Utf8
import KevinDb.Record
import KevinDb.Search.Matching

namespace KevinDb
set_option autoImplicit true
open Std

def maxJsonKeysPerRun : Nat := 256

def maxIndexedValueBytes : Nat := 4096

/-- The reader of JSON: what a text stands for, if it is read to its end, and how `to_string` writes
a number. -/
structure JsonReader where
  parse : String → Option Json
  numberText : JsonNumber → String

/-! The tape. -/

structure JsonLeaf where
  path : Nat × Nat
  value : Option (Nat × Nat)

structure JsonTape where
  bytes : List UInt8
  leaves : List JsonLeaf

structure JsonLeafRef where
  path : String
  value : Option String
deriving DecidableEq

def joinPath (parent key : String) : String :=
  if parent.isEmpty then key else parent ++ "." ++ key

namespace JsonTape

def empty : JsonTape := ⟨[], []⟩

def pushBytes (tape : JsonTape) (value : String) : (Nat × Nat) × JsonTape :=
  let start := tape.bytes.length
  let bytes := tape.bytes ++ value.toUTF8.toList
  ((start, bytes.length), { tape with bytes })

def pushLeaf (tape : JsonTape) (path : String) (value : Option String) : JsonTape :=
  if path.isEmpty then tape
  else
    let (path, tape) := tape.pushBytes path
    match value with
    | none => { tape with leaves := tape.leaves ++ [⟨path, none⟩] }
    | some value =>
      let (value, tape) := tape.pushBytes value
      { tape with leaves := tape.leaves ++ [⟨path, some value⟩] }

variable (reader : JsonReader)

mutual

def visit (tape : JsonTape) (path : String) : Json → JsonTape
  | .null => tape.pushLeaf path none
  | .bool value => tape.pushLeaf path (some (if value then "true" else "false"))
  | .number value => tape.pushLeaf path (some (reader.numberText value))
  | .string value => tape.pushLeaf path (some value)
  | .array elements =>
    if elements.isEmpty then tape.pushLeaf path none else visitSeq tape path elements
  | .object fields =>
    if fields.isEmpty then tape.pushLeaf path none else visitMap tape path fields

def visitSeq (tape : JsonTape) (path : String) : List Json → JsonTape
  | [] => tape
  | element :: elements => visitSeq (visit tape path element) path elements

def visitMap (tape : JsonTape) (path : String) : List (String × Json) → JsonTape
  | [] => tape
  | (key, value) :: fields => visitMap (visit tape (joinPath path key) value) path fields

end

def parse (input : String) : Option JsonTape :=
  (reader.parse input).map (visit reader empty "")

/-- The text in a range of the bytes. -/
def text (tape : JsonTape) (range : Nat × Nat) : String :=
  (fromUtf8 ((tape.bytes.drop range.1).take (range.2 - range.1))).getD ""

/-- The leaves, as `leaves` gives them. -/
def leafRefs (tape : JsonTape) : List JsonLeafRef :=
  tape.leaves.map fun leaf => ⟨tape.text leaf.path, leaf.value.map tape.text⟩

end JsonTape

/-! The builder. -/

/-- The loop that goes back to the end of a character. -/
def boundaryBelow (text : List Char) : Nat → Nat
  | 0 => 0
  | stop + 1 => if IsBoundary (stop + 1) text then stop + 1 else boundaryBelow text stop

def boundedValue (value : String) : String :=
  if byteLength value.toList ≤ maxIndexedValueBytes then value
  else
    match splitAtByte (boundaryBelow value.toList maxIndexedValueBytes) value.toList with
    | some (front, _) => String.ofList front
    | none => ""

structure SearchIndexBuilder where
  index : MutableSearchIndex
  nextPositions : Table RowPath UInt32

namespace SearchIndexBuilder

def new (rowCount : Nat) : SearchIndexBuilder := ⟨.new rowCount, ∅⟩

/-- `saturating_add(1)`. -/
def positionAfter (position : UInt32) : UInt32 :=
  if position = 2 ^ 32 - 1 then position else position + 1

def nextPosition (builder : SearchIndexBuilder) (row : UInt32) (path : String) :
    UInt32 × SearchIndexBuilder :=
  let current := builder.nextPositions[(row, path)]?.getD 0
  (current, { builder with
    nextPositions := builder.nextPositions.insert (row, path) (positionAfter current) })

def addLeafPositionGap (builder : SearchIndexBuilder) (row : UInt32) (path : String) :
    SearchIndexBuilder :=
  let position := builder.nextPositions[(row, path)]?.getD 0
  { builder with
    nextPositions := builder.nextPositions.insert (row, path) (positionAfter position) }

def addPath (builder : SearchIndexBuilder) (row : UInt32) (path : String) : SearchIndexBuilder :=
  { builder with index := builder.index.addPath row path }

/-- One turn of the loop of `add_text`. -/
def addToken (row : UInt32) (path : String) (builder : SearchIndexBuilder) (token : String) :
    SearchIndexBuilder :=
  let (position, builder) := builder.nextPosition row path
  { builder with index := builder.index.addValuePosition row path token position }

def addText (builder : SearchIndexBuilder) (row : UInt32) (path value : String) :
    SearchIndexBuilder :=
  (tokensForText value).foldl (addToken row path) (builder.addPath row path)

def addExactValue (builder : SearchIndexBuilder) (row : UInt32) (path value : String) :
    SearchIndexBuilder :=
  { builder with
    index := builder.index.addValuePosition row path (exactValueToken value) 0 }

def addJsonValue (builder : SearchIndexBuilder) (row : UInt32) (path value : String) :
    SearchIndexBuilder :=
  let builder :=
    if byteLength value.toList ≤ maxIndexedValueBytes then builder.addExactValue row path value
    else builder
  (builder.addText row path (boundedValue value)).addLeafPositionGap row path

/-- One turn of the loop of `add_json`. -/
def addLeaf (row : UInt32) (builder : SearchIndexBuilder) (leaf : JsonLeafRef) :
    SearchIndexBuilder :=
  match leaf.value with
  | some value => builder.addJsonValue row leaf.path value
  | none => builder.addPath row leaf.path

def addJson (reader : JsonReader) (builder : SearchIndexBuilder) (row : UInt32)
    (attributesJson : String) : SearchIndexBuilder :=
  match JsonTape.parse reader attributesJson with
  | none => builder
  | some tape => (tape.leafRefs.take maxJsonKeysPerRun).foldl (addLeaf row) builder

/-- One turn of the loop of `build_search_index`. -/
def addRecord (reader : JsonReader) (builder : SearchIndexBuilder) (entry : SpanRecord × Nat) :
    SearchIndexBuilder :=
  let (record, rowIndex) := entry
  let row := UInt32.ofNat (min rowIndex (2 ^ 32 - 1))
  let builder := builder.addText row "name" record.name
  let builder := builder.addText row "run_type" record.runType
  let builder := builder.addText row "status" (statusFromRecord record).asStr
  builder.addJson reader row record.attributesJson

/-- The builder behind the loop of `build_search_index`. -/
def ofRecords (reader : JsonReader) (records : List SpanRecord) : SearchIndexBuilder :=
  records.zipIdx.foldl (addRecord reader) (new records.length)

def finish (fst : FstLib) (builder : SearchIndexBuilder) : Outcome SearchIndex :=
  builder.index.finish fst

end SearchIndexBuilder

def buildSearchIndex (fst : FstLib) (reader : JsonReader) (records : List SpanRecord) :
    Outcome SearchIndex :=
  (SearchIndexBuilder.ofRecords reader records).finish fst

/-! What the tape holds. -/

section leaves

variable (reader : JsonReader)

/-- A leaf without a path is left out. -/
def leafAt (path : String) (value : Option String) : List JsonLeafRef :=
  if path.isEmpty then [] else [⟨path, value⟩]

mutual

/-- The leaves of a document below a path, in their order. -/
def leavesAt (path : String) : Json → List JsonLeafRef
  | .null => leafAt path none
  | .bool value => leafAt path (some (if value then "true" else "false"))
  | .number value => leafAt path (some (reader.numberText value))
  | .string value => leafAt path (some value)
  | .array elements => if elements.isEmpty then leafAt path none else leavesOfSeq path elements
  | .object fields => if fields.isEmpty then leafAt path none else leavesOfMap path fields

def leavesOfSeq (path : String) : List Json → List JsonLeafRef
  | [] => []
  | element :: elements => leavesAt path element ++ leavesOfSeq path elements

def leavesOfMap (path : String) : List (String × Json) → List JsonLeafRef
  | [] => []
  | (key, value) :: fields => leavesAt (joinPath path key) value ++ leavesOfMap path fields

end

/-- The leaves of a payload that are indexed. -/
def indexedLeaves (attributesJson : String) : List JsonLeafRef :=
  match reader.parse attributesJson with
  | none => []
  | some json => (leavesAt reader "" json).take maxJsonKeysPerRun

end leaves

/-- A range of the bytes holds a text. -/
def JsonTape.HasText (tape : JsonTape) (range : Nat × Nat) (value : String) : Prop :=
  ∃ front back, tape.bytes = front ++ utf8Bytes value.toList ++ back ∧ range.1 = front.length ∧
    range.2 = front.length + (utf8Bytes value.toList).length

/-- The leaves of the tape are these. -/
def JsonTape.Holds (tape : JsonTape) (leaves : List JsonLeafRef) : Prop :=
  List.Forall₂ (fun leaf ref => tape.HasText leaf.path ref.path ∧
    Option.Rel tape.HasText leaf.value ref.value) tape.leaves leaves

namespace JsonTape

variable {tape : JsonTape} {leaves : List JsonLeafRef}

theorem HasText.text {range : Nat × Nat} {value : String} (h : tape.HasText range value) :
    tape.text range = value := by
  obtain ⟨front, back, hbytes, hstart, hstop⟩ := h
  rw [JsonTape.text, hbytes, hstart, hstop, Nat.add_sub_cancel_left, List.append_assoc,
    List.drop_left, List.take_left, fromUtf8_utf8Bytes, Option.getD_some, String.ofList_toList]

theorem Holds.leafRefs (h : tape.Holds leaves) : tape.leafRefs = leaves := by
  rw [JsonTape.leafRefs]
  rw [Holds] at h
  generalize tape.leaves = found at h
  induction h with
  | nil => rfl
  | @cons leaf ref found leaves hfirst _ ih =>
    obtain ⟨path, value⟩ := leaf
    obtain ⟨path', value'⟩ := ref
    obtain ⟨hpath, hvalue⟩ := hfirst
    have hmap : value.map tape.text = value' := by
      cases hvalue with
      | none => rfl
      | some htext => exact congrArg some htext.text
    rw [List.map_cons, ih, hpath.text, hmap]

theorem HasText.pushBytes {range : Nat × Nat} {value : String} (h : tape.HasText range value)
    (other : String) : (tape.pushBytes other).2.HasText range value := by
  obtain ⟨front, back, hbytes, hrange⟩ := h
  refine ⟨front, back ++ other.toUTF8.toList, ?_, hrange⟩
  rw [← List.append_assoc, ← hbytes]
  rfl

theorem hasText_pushBytes (tape : JsonTape) (value : String) :
    (tape.pushBytes value).2.HasText (tape.pushBytes value).1 value := by
  refine ⟨tape.bytes, [], ?_, rfl, ?_⟩
  · rw [JsonTape.pushBytes, toList_toUTF8, List.append_nil]
  · rw [JsonTape.pushBytes, toList_toUTF8, List.length_append]

theorem Holds.pushBytes (h : tape.Holds leaves) (other : String) :
    (tape.pushBytes other).2.Holds leaves := by
  apply List.Forall₂.imp _ h
  rintro ⟨path, value⟩ ⟨path', value'⟩ ⟨hpath, hvalue⟩
  refine ⟨hpath.pushBytes other, ?_⟩
  cases hvalue with
  | none => exact .none
  | some htext => exact .some (htext.pushBytes other)

theorem Holds.pushLeaf (h : tape.Holds leaves) (path : String) (value : Option String) :
    (tape.pushLeaf path value).Holds (leaves ++ leafAt path value) := by
  rw [JsonTape.pushLeaf, leafAt]
  split
  · rwa [List.append_nil]
  · have hpath := hasText_pushBytes tape path
    have hheld := h.pushBytes path
    cases value with
    | none =>
      exact List.rel_append hheld (.cons ⟨hpath, .none⟩ .nil)
    | some value =>
      exact List.rel_append (hheld.pushBytes value) (.cons ⟨hpath.pushBytes value,
        .some (hasText_pushBytes _ value)⟩ .nil)

mutual

theorem Holds.visit {tape : JsonTape} {leaves : List JsonLeafRef} {reader : JsonReader}
    (h : tape.Holds leaves) (path : String) :
    ∀ json, (tape.visit reader path json).Holds (leaves ++ leavesAt reader path json)
  | .null => by
    rw [JsonTape.visit, leavesAt]
    exact h.pushLeaf path none
  | .bool value => by
    rw [JsonTape.visit, leavesAt]
    exact h.pushLeaf path _
  | .number value => by
    rw [JsonTape.visit, leavesAt]
    exact h.pushLeaf path _
  | .string value => by
    rw [JsonTape.visit, leavesAt]
    exact h.pushLeaf path _
  | .array elements => by
    rw [JsonTape.visit, leavesAt]
    split
    · exact h.pushLeaf path none
    · exact h.visitSeq path elements
  | .object fields => by
    rw [JsonTape.visit, leavesAt]
    split
    · exact h.pushLeaf path none
    · exact h.visitMap path fields

theorem Holds.visitSeq {tape : JsonTape} {leaves : List JsonLeafRef} {reader : JsonReader}
    (h : tape.Holds leaves) (path : String) :
    ∀ elements, (tape.visitSeq reader path elements).Holds
      (leaves ++ leavesOfSeq reader path elements)
  | [] => by
    rw [JsonTape.visitSeq, leavesOfSeq, List.append_nil]
    exact h
  | element :: elements => by
    rw [JsonTape.visitSeq, leavesOfSeq, ← List.append_assoc]
    exact (h.visit path element).visitSeq path elements

theorem Holds.visitMap {tape : JsonTape} {leaves : List JsonLeafRef} {reader : JsonReader}
    (h : tape.Holds leaves) (path : String) :
    ∀ fields, (tape.visitMap reader path fields).Holds
      (leaves ++ leavesOfMap reader path fields)
  | [] => by
    rw [JsonTape.visitMap, leavesOfMap, List.append_nil]
    exact h
  | (key, value) :: fields => by
    rw [JsonTape.visitMap, leavesOfMap, ← List.append_assoc]
    exact (h.visit (joinPath path key) value).visitMap path fields

end

/-- The tape of a text has the leaves of its document. -/
theorem leafRefs_visit (reader : JsonReader) (json : Json) :
    (visit reader empty "" json).leafRefs = leavesAt reader "" json := by
  have hempty : empty.Holds [] := List.Forall₂.nil
  exact (hempty.visit "" json).leafRefs

end JsonTape

end KevinDb
