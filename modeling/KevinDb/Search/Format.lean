import KevinDb.Search.Builder

namespace KevinDb
set_option autoImplicit true

def putU32 (value : UInt32) : List UInt8 := leBytes 4 value.toNat

def putU64 (value : UInt64) : List UInt8 := leBytes 8 value.toNat

def putBytes (bytes : List UInt8) : Outcome (List UInt8) := do
  return putU32 (← checkedU32 bytes.length "byte slice len") ++ bytes

def putRange (range : SearchIndexRange) : List UInt8 := putU64 range.offset ++ putU64 range.len

/-- The range that a group has before it is placed. -/
def defaultRange : SearchIndexRange := ⟨0, 0⟩

structure EncodedGroup where
  directory : SearchIndexGroupDirectory
  fstBytes : List UInt8
  termInfos : List UInt8
  postings : List UInt8
  positions : List UInt8

def encodeSearchTermInfos (termInfos : List TermInfo) : List UInt8 :=
  termInfos.flatMap fun info =>
    putU32 info.docCount ++ putU32 info.postingsOffset ++ putU32 info.postingsLen ++
      putU32 info.positionsOffset ++ putU32 info.positionsLen

def EncodedGroup.new (group : SearchRowGroup) : Outcome EncodedGroup := do
  let termInfoCount ← checkedU32 group.termInfos.length "term info count"
  return {
    directory := {
      minTerm := group.minTerm
      maxTerm := group.maxTerm
      termInfoCount
      fst := defaultRange
      termInfos := defaultRange
      postings := defaultRange
      positions := defaultRange }
    fstBytes := group.fstBytes
    termInfos := encodeSearchTermInfos group.termInfos
    postings := group.postings
    positions := group.positions }

def prepareGroups (groups : List SearchRowGroup) : Outcome (List EncodedGroup) :=
  groups.mapM EncodedGroup.new

/-- The bytes of a group in the directory. -/
def SearchIndexGroupDirectory.encodedLen (directory : SearchIndexGroupDirectory) : Nat :=
  4 + directory.minTerm.length + 4 + directory.maxTerm.length + 4 + 64

def encodedDirectoryLen (keyGroups valueGroups : List EncodedGroup) : Outcome Nat :=
  (keyGroups ++ valueGroups).foldlM
    (fun len group => addBelow (2 ^ 64) len group.directory.encodedLen) 0

/-- The range at an offset, and the offset behind it. -/
def nextRange (offset len : Nat) : Outcome (SearchIndexRange × Nat) := do
  let range := ⟨UInt64.ofNat offset, UInt64.ofNat len⟩
  return (range, ← checkedAdd offset len "search range offset overflow")

/-- The turn of the loop of `encode_search_index` that gives a group its ranges. -/
def EncodedGroup.place (offset : Nat) (group : EncodedGroup) : Outcome (EncodedGroup × Nat) := do
  let (fst, offset) ← nextRange offset group.fstBytes.length
  let (termInfos, offset) ← nextRange offset group.termInfos.length
  let (postings, offset) ← nextRange offset group.postings.length
  let (positions, offset) ← nextRange offset group.positions.length
  let directory := { group.directory with fst, termInfos, postings, positions }
  return ({ group with directory }, offset)

def placeGroups (offset : Nat) : List EncodedGroup → Outcome (List EncodedGroup × Nat)
  | [] => return ([], offset)
  | group :: groups => do
    let (group, offset) ← group.place offset
    let (groups, offset) ← placeGroups offset groups
    return (group :: groups, offset)

def encodeGroupDirectory (directory : SearchIndexGroupDirectory) : Outcome (List UInt8) := do
  let minTerm ← putBytes directory.minTerm
  let maxTerm ← putBytes directory.maxTerm
  return minTerm ++ maxTerm ++ putU32 directory.termInfoCount ++ putRange directory.fst ++
    putRange directory.termInfos ++ putRange directory.postings ++ putRange directory.positions

def encodeDirectory (keyGroups valueGroups : List EncodedGroup) : Outcome (List UInt8) := do
  let encoded ← (keyGroups ++ valueGroups).mapM fun group => encodeGroupDirectory group.directory
  return encoded.flatten

def encodeSearchIndex (index : SearchIndex) : Outcome (List UInt8) := do
  let keyGroups ← prepareGroups index.termKeyGroups
  let valueGroups ← prepareGroups index.termValueGroups
  let directoryLen ←
    checkedU32 (← encodedDirectoryLen keyGroups valueGroups) "search directory len"
  let offset := searchIndexHeaderLen + directoryLen.toNat
  let (keyGroups, offset) ← placeGroups offset keyGroups
  let (valueGroups, _) ← placeGroups offset valueGroups
  let keyGroupCount ← checkedU32 keyGroups.length "term_key group count"
  let valueGroupCount ← checkedU32 valueGroups.length "term_value group count"
  let directory ← encodeDirectory keyGroups valueGroups
  return magic ++ putU32 index.rowCount ++ putU32 keyGroupCount ++ putU32 valueGroupCount ++
    putU32 directoryLen ++ directory ++ (keyGroups ++ valueGroups).flatMap fun group =>
      group.fstBytes ++ group.termInfos ++ group.postings ++ group.positions

/-! Decoding. -/

namespace ByteReader

def readRange : Read SearchIndexRange := do
  let offset ← readU64
  let len ← readU64
  return { offset, len }

def readGroupDirectory : Read SearchIndexGroupDirectory := do
  let minTerm ← readVec
  let maxTerm ← readVec
  let termInfoCount ← readU32
  let fst ← readRange
  let termInfos ← readRange
  let postings ← readRange
  let positions ← readRange
  return { minTerm, maxTerm, termInfoCount, fst, termInfos, postings, positions }

/-- `map` over a count, with the values collected. -/
def readTimes (read : Read α) : Nat → Read (List α)
  | 0 => return []
  | count + 1 => do
    let value ← read
    return value :: (← readTimes read count)

def readGroupDirectories (groupCount : Nat) : Read (List SearchIndexGroupDirectory) :=
  readTimes readGroupDirectory groupCount

def readTermInfo : Read TermInfo := do
  let docCount ← readU32
  let postingsOffset ← readU32
  let postingsLen ← readU32
  let positionsOffset ← readU32
  let positionsLen ← readU32
  return { docCount, postingsOffset, postingsLen, positionsOffset, positionsLen }

def readHeader : Read SearchIndexHeader := do
  expectBytes magic
  let rowCount ← readU32
  let termKeyGroupCount ← readU32
  let termValueGroupCount ← readU32
  let directoryLen ← readU32
  return { rowCount, termKeyGroupCount, termValueGroupCount, directoryLen }

end ByteReader

def decodeSearchIndexHeader (bytes : List UInt8) : Outcome SearchIndexHeader :=
  readFrom bytes ByteReader.readHeader

def decodeSearchIndexDirectory (header : SearchIndexHeader) (bytes : List UInt8) :
    Outcome SearchIndexDirectory :=
  if bytes.length ≠ header.directoryLen.toNat then .error "search directory len mismatch"
  else readFrom bytes do
    let termKeyGroups ← ByteReader.readGroupDirectories header.termKeyGroupCount.toNat
    let termValueGroups ← ByteReader.readGroupDirectories header.termValueGroupCount.toNat
    ByteReader.expectDone
    return { rowCount := header.rowCount, termKeyGroups, termValueGroups }

/-- `checked_mul` of sizes. -/
def checkedMul (a b : Nat) (message : String) : Outcome Nat :=
  if a * b < 2 ^ 64 then .ok (a * b) else .error message

def decodeSearchTermInfos (bytes : List UInt8) (expectedCount : Nat) :
    Outcome (List TermInfo) := do
  let expectedLen ← checkedMul expectedCount 20 "term_info len overflow"
  if bytes.length ≠ expectedLen then .error "term_info len mismatch"
  else readFrom bytes do
    let termInfos ← ByteReader.readTimes ByteReader.readTermInfo expectedCount
    ByteReader.expectDone
    return termInfos

def decodeLoadedGroup (fst : FstLib) (directory : SearchIndexGroupDirectory)
    (fstBytes termInfoBytes postings positions : List UInt8) : Outcome SearchRowGroup :=
  if !fst.validate fstBytes then .error "validate search FST"
  else do
    let termInfos ← decodeSearchTermInfos termInfoBytes directory.termInfoCount.toNat
    return {
      minTerm := directory.minTerm
      maxTerm := directory.maxTerm
      fstBytes, termInfos, postings, positions }

def sliceRange (bytes : List UInt8) (range : SearchIndexRange) : Outcome (List UInt8) := do
  let start := range.offset.toNat
  let stop ← checkedAdd start range.len.toNat "search range offset overflow"
  if stop > bytes.length then .error "truncated search index range"
  else sliceOf bytes start stop

/-- The closure of `decode_full_groups`. -/
def decodeFullGroup (fst : FstLib) (bytes : List UInt8) (group : SearchIndexGroupDirectory) :
    Outcome SearchRowGroup := do
  let fstBytes ← sliceRange bytes group.fst
  let termInfos ← sliceRange bytes group.termInfos
  let postings ← sliceRange bytes group.postings
  let positions ← sliceRange bytes group.positions
  decodeLoadedGroup fst group fstBytes termInfos postings positions

def decodeFullGroups (fst : FstLib) (bytes : List UInt8)
    (groups : List SearchIndexGroupDirectory) : Outcome (List SearchRowGroup) :=
  groups.mapM (decodeFullGroup fst bytes)

def decodeSearchIndex (fst : FstLib) (bytes : List UInt8) : Outcome SearchIndex := do
  let header ← decodeSearchIndexHeader bytes
  let directoryEnd ← checkedAdd searchIndexHeaderLen header.directoryLen.toNat
    "search directory offset overflow"
  if directoryEnd > bytes.length then .error "truncated search index directory"
  else do
    let directoryBytes ← sliceOf bytes searchIndexHeaderLen directoryEnd
    let directory ← decodeSearchIndexDirectory header directoryBytes
    let termKeyGroups ← decodeFullGroups fst bytes directory.termKeyGroups
    let termValueGroups ← decodeFullGroups fst bytes directory.termValueGroups
    return { rowCount := directory.rowCount, termKeyGroups, termValueGroups }

end KevinDb
