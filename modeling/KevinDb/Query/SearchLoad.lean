import KevinDb.Query.CoalescedReads
import KevinDb.Search.Selection

namespace KevinDb
set_option autoImplicit true
open Std

def searchIndexSchemaVersion : Int := 3

/-- What a segment says of its search index. -/
structure IndexedSegment where
  uri : String
  searchIndexUri : Option String
  searchIndexSchemaVersion : Int

/-! Reads that are counted. -/

/-- A computation that reads objects. What it has read is counted where it fails, too. -/
def Load (α : Type) : Type := ObjectStoreReadSnapshot → Outcome α × ObjectStoreReadSnapshot

namespace Load

def bind (load : Load α) (f : α → Load β) : Load β := fun stats =>
  match load stats with
  | (.ok value, stats) => f value stats
  | (.error message, stats) => (.error message, stats)
  | (.panic, stats) => (.panic, stats)

instance : Monad Load where
  pure value := fun stats => (.ok value, stats)
  bind := Load.bind

/-- A computation that reads nothing. -/
def ofOutcome (outcome : Outcome α) : Load α := fun stats => (outcome, stats)

end Load

/-- `context`: an error gets another text. -/
def Outcome.withContext (context : String) : Outcome α → Outcome α
  | .ok value => .ok value
  | .error _ => .error context
  | .panic => .panic

def Load.withContext (context : String) (load : Load α) : Load α := fun stats =>
  ((load stats).1.withContext context, (load stats).2)

def ReadFailure.toOutcome : ReadFailure → Outcome α
  | .error message => .error message
  | .outOfBounds => .panic

def outcomeOfRead : Except ReadFailure α → Outcome α
  | .ok value => .ok value
  | .error failure => failure.toOutcome

/-! Plans. -/

structure DictionaryRangePlan where
  groupIndex : Nat
  fst : Nat
  termInfos : Nat

structure TermDataPlan where
  ordinal : Nat
  info : TermInfo
  postings : Nat
  positions : Option Nat

structure TermDataGroupPlan where
  groupIndex : Nat
  fstBytes : List UInt8
  termInfoCount : UInt32
  terms : List TermDataPlan

structure SearchIndexDictionaries where
  termKeyGroups : List SearchIndexGroupDictionary
  termValueGroups : List SearchIndexGroupDictionary

structure SearchIndexGroupBytes where
  groupIndex : Nat
  fstBytes : List UInt8
  termInfoBytes : List UInt8
  postings : List UInt8
  positions : List UInt8

structure SearchIndexChunks where
  termKeyGroups : List SearchIndexGroupBytes
  termValueGroups : List SearchIndexGroupBytes

def SearchIndexRange.asRange (range : SearchIndexRange) : ByteRange where
  start := range.offset.toNat
  stop := saturatingAdd range.offset.toNat range.len.toNat
  start_lt := range.offset.toNat_lt
  stop_lt := (min_le_right _ _).trans_lt (by decide)

def pushRange (ranges : List ByteRange) (range : SearchIndexRange) : Nat × List ByteRange :=
  (ranges.length, ranges ++ [range.asRange])

/-- The plans for the groups, and the ranges with those of the plans behind them. -/
def planDictionaryRanges (directories : List SearchIndexGroupDirectory) (ranges : List ByteRange) :
    List Nat → List DictionaryRangePlan × List ByteRange
  | [] => ([], ranges)
  | groupIndex :: groupIndexes =>
    match directories[groupIndex]? with
    | none => planDictionaryRanges directories ranges groupIndexes
    | some directory =>
      let (fst, ranges) := pushRange ranges directory.fst
      let (termInfos, ranges) := pushRange ranges directory.termInfos
      let (plans, ranges) := planDictionaryRanges directories ranges groupIndexes
      ({ groupIndex, fst, termInfos } :: plans, ranges)

/-- `chunks[index]`, which panics out of bounds. -/
def chunkAt (chunks : List (List UInt8)) (index : Nat) : Outcome (List UInt8) :=
  match chunks[index]? with
  | some chunk => .ok chunk
  | none => .panic

/-- `context` on an option. -/
def someOr (message : String) : Option α → Outcome α
  | some value => .ok value
  | none => .error message

/-- The closure of `materialize_dictionaries`. -/
def materializeDictionary (fst : FstMaps) (chunks : List (List UInt8))
    (directories : List SearchIndexGroupDirectory) (plan : DictionaryRangePlan) :
    Outcome SearchIndexGroupDictionary := do
  let directory ← someOr "search dictionary plan group out of bounds" directories[plan.groupIndex]?
  let fstBytes ← chunkAt chunks plan.fst
  let termInfoBytes ← chunkAt chunks plan.termInfos
  decodeSearchGroupDictionary fst plan.groupIndex fstBytes termInfoBytes directory.termInfoCount

def materializeDictionaries (fst : FstMaps) (chunks : List (List UInt8))
    (directories : List SearchIndexGroupDirectory) (plans : List DictionaryRangePlan) :
    Outcome (List SearchIndexGroupDictionary) :=
  plans.mapM (materializeDictionary fst chunks directories)

def subrange (base : SearchIndexRange) (offset len : UInt32) : Outcome SearchIndexRange := do
  let start ← checkedAdd base.offset.toNat offset.toNat "search term range offset overflow"
  let stop ← checkedAdd start len.toNat "search term range end overflow"
  let baseEnd ← checkedAdd base.offset.toNat base.len.toNat "search group range end overflow"
  if stop > baseEnd then .error "search term range exceeds row group range"
  else return { offset := UInt64.ofNat start, len := UInt64.ofNat len.toNat }

/-- The closure of `plan_term_data_ranges` for a term. -/
def planTerm (directory : SearchIndexGroupDirectory) (allowPositions : Bool)
    (ranges : List ByteRange) (term : SearchIndexTermSlice) :
    Outcome (TermDataPlan × List ByteRange) := do
  let range ← subrange directory.postings term.info.postingsOffset term.info.postingsLen
  let (postings, ranges) := pushRange ranges range
  if allowPositions && term.includePositions && term.info.positionsLen > 0 then
    let range ← subrange directory.positions term.info.positionsOffset term.info.positionsLen
    let (positions, ranges) := pushRange ranges range
    return ({ ordinal := term.ordinal, info := term.info, postings, positions := some positions },
      ranges)
  else return ({ ordinal := term.ordinal, info := term.info, postings, positions := none }, ranges)

def planTerms (directory : SearchIndexGroupDirectory) (allowPositions : Bool)
    (ranges : List ByteRange) :
    List SearchIndexTermSlice → Outcome (List TermDataPlan × List ByteRange)
  | [] => return ([], ranges)
  | term :: terms => do
    let (plan, ranges) ← planTerm directory allowPositions ranges term
    let (plans, ranges) ← planTerms directory allowPositions ranges terms
    return (plan :: plans, ranges)

/-- The closure of `plan_term_data_ranges` for a group. -/
def planTermDataGroup (directories : List SearchIndexGroupDirectory) (allowPositions : Bool)
    (ranges : List ByteRange) (group : SearchIndexGroupTermSlices) :
    Outcome (TermDataGroupPlan × List ByteRange) := do
  let directory ← someOr "term data plan group out of bounds" directories[group.groupIndex]?
  let (terms, ranges) ← planTerms directory allowPositions ranges group.terms
  return ({
    groupIndex := group.groupIndex
    fstBytes := group.fstBytes
    termInfoCount := group.termInfoCount
    terms }, ranges)

def planTermDataRanges (directories : List SearchIndexGroupDirectory) (allowPositions : Bool)
    (ranges : List ByteRange) :
    List SearchIndexGroupTermSlices → Outcome (List TermDataGroupPlan × List ByteRange)
  | [] => return ([], ranges)
  | group :: groups => do
    let (plan, ranges) ← planTermDataGroup directories allowPositions ranges group
    let (plans, ranges) ← planTermDataRanges directories allowPositions ranges groups
    return (plan :: plans, ranges)

/-! Groups that are put together. -/

/-- The variables of the loop of `materialize_term_data_groups`. -/
structure TermData where
  infos : List TermInfo
  postings : List UInt8
  positions : List UInt8

def defaultTermInfo : TermInfo := ⟨0, 0, 0, 0, 0⟩

def TermData.addPositions (chunks : List (List UInt8)) (positions : List UInt8) :
    Option Nat → Outcome (List UInt8 × UInt32)
  | none => return (positions, 0)
  | some index => do
    let chunk ← someOr "missing positions chunk for selected term" chunks[index]?
    return (positions ++ chunk, ← checkedU32 chunk.length "local positions len")

def TermData.add (chunks : List (List UInt8)) (data : TermData) (term : TermDataPlan) :
    Outcome TermData := do
  let postingsOffset ← checkedU32 data.postings.length "local postings offset"
  let chunk ← someOr "missing postings chunk for selected term" chunks[term.postings]?
  let positionsOffset ← checkedU32 data.positions.length "local positions offset"
  let (positions, positionsLen) ← TermData.addPositions chunks data.positions term.positions
  if term.ordinal < data.infos.length then
    let postingsLen ← checkedU32 chunk.length "local postings len"
    let info := {
      docCount := term.info.docCount
      postingsOffset
      postingsLen
      positionsOffset
      positionsLen }
    return ⟨data.infos.set term.ordinal info, data.postings ++ chunk, positions⟩
  else return ⟨data.infos, data.postings ++ chunk, positions⟩

/-- The closure of `materialize_term_data_groups`. -/
def materializeTermDataGroup (chunks : List (List UInt8)) (plan : TermDataGroupPlan) :
    Outcome SearchIndexGroupBytes := do
  let data ← plan.terms.foldlM (TermData.add chunks)
    ⟨List.replicate plan.termInfoCount.toNat defaultTermInfo, [], []⟩
  return {
    groupIndex := plan.groupIndex
    fstBytes := plan.fstBytes
    termInfoBytes := encodeSearchTermInfos data.infos
    postings := data.postings
    positions := data.positions }

def materializeTermDataGroups (chunks : List (List UInt8)) (plans : List TermDataGroupPlan) :
    Outcome (List SearchIndexGroupBytes) :=
  plans.mapM (materializeTermDataGroup chunks)

/-- The closure of `decode_group_chunks`. -/
def decodeGroupChunk (fst : FstMaps) (directories : List SearchIndexGroupDirectory)
    (chunk : SearchIndexGroupBytes) : Outcome SearchRowGroup := do
  let directory ← someOr "search index group chunk index out of bounds" directories[chunk.groupIndex]?
  decodeLoadedGroup fst.toFstLib directory chunk.fstBytes chunk.termInfoBytes chunk.postings
    chunk.positions

def decodeSearchIndexChunks (fst : FstMaps) (directory : SearchIndexDirectory)
    (chunks : SearchIndexChunks) : Outcome SearchIndex := do
  let termKeyGroups ← chunks.termKeyGroups.mapM (decodeGroupChunk fst directory.termKeyGroups)
  let termValueGroups ← chunks.termValueGroups.mapM (decodeGroupChunk fst directory.termValueGroups)
  return { rowCount := directory.rowCount, termKeyGroups, termValueGroups }

/-! Loading. -/

section loading

-- `get_ranges` of the object store at the path of an index.
variable (getRanges : List ByteRange → Except String (List (List UInt8)))

def loadRanges (ranges : List ByteRange) : Load (List (List UInt8)) := fun stats =>
  let (read, stats) := readRanges getRanges ranges stats
  (outcomeOfRead read, stats)

/-- The last chunk of a read of one range. -/
def loadOneRange (range : ByteRange) : Load (List UInt8) := do
  let chunks ← loadRanges getRanges [range]
  .ofOutcome (someOr "object store returned no bytes for requested search index range"
    chunks.getLast?)

def headerRange : ByteRange := ⟨0, searchIndexHeaderLen, by decide, by decide⟩

def directoryRange (header : SearchIndexHeader) : ByteRange :=
  ⟨searchIndexHeaderLen, saturatingAdd searchIndexHeaderLen header.directoryLen.toNat, by decide,
    (min_le_right _ _).trans_lt (by decide)⟩

def loadSearchIndexDirectory : Load SearchIndexDirectory := do
  let headerBytes ← loadOneRange getRanges headerRange
  let header ← Load.ofOutcome (decodeSearchIndexHeader headerBytes)
  let directoryBytes ← (
    if header.directoryLen = 0 then pure [] else loadOneRange getRanges (directoryRange header))
  .ofOutcome (decodeSearchIndexDirectory header directoryBytes)

variable (fst : FstMaps)

def loadSelectedDictionaries (directory : SearchIndexDirectory)
    (selection : SearchIndexGroupSelection) : Load SearchIndexDictionaries := do
  let (keyPlans, ranges) :=
    planDictionaryRanges directory.termKeyGroups [] selection.termKeyGroups.toList
  let (valuePlans, ranges) :=
    planDictionaryRanges directory.termValueGroups ranges selection.termValueGroups.toList
  let chunks ← loadRanges getRanges ranges
  let termKeyGroups ←
    Load.ofOutcome (materializeDictionaries fst chunks directory.termKeyGroups keyPlans)
  let termValueGroups ←
    Load.ofOutcome (materializeDictionaries fst chunks directory.termValueGroups valuePlans)
  return { termKeyGroups, termValueGroups }

def loadTermSlices (directory : SearchIndexDirectory) (slices : SearchIndexTermSlices) :
    Load SearchIndexChunks := do
  let (keyPlans, ranges) ←
    Load.ofOutcome (planTermDataRanges directory.termKeyGroups false [] slices.termKeyGroups)
  let (valuePlans, ranges) ← Load.ofOutcome
    (planTermDataRanges directory.termValueGroups true ranges slices.termValueGroups)
  let chunks ← loadRanges getRanges ranges
  let termKeyGroups ← Load.ofOutcome (materializeTermDataGroups chunks keyPlans)
  let termValueGroups ← Load.ofOutcome (materializeTermDataGroups chunks valuePlans)
  return { termKeyGroups, termValueGroups }

def loadSelectedChunks (directory : SearchIndexDirectory) (selection : SearchIndexGroupSelection)
    (predicate : SearchPredicate) : Load SearchIndexChunks := do
  let dictionaries ← (loadSelectedDictionaries getRanges fst directory selection).withContext
    "load selected search dictionaries"
  loadTermSlices getRanges directory (selectSearchIndexTerms fst predicate
    dictionaries.termKeyGroups dictionaries.termValueGroups)

end loading

/-- `load_matching_rows`, with the object store's `get_ranges` for the text of a path. -/
def loadMatchingRows (getRanges : String → List ByteRange → Except String (List (List UInt8)))
    (fst : FstMaps) (segment : IndexedSegment) (predicate : SearchPredicate) :
    Load (Finset UInt32) :=
  match segment.searchIndexUri with
  | none => .ofOutcome <| .error <| "query rejected: segment " ++ segment.uri ++
      " is missing its Phase 6 search index; unsafe payload scan disabled"
  | some searchIndexUri =>
    if segment.searchIndexSchemaVersion ≠ searchIndexSchemaVersion then
      .ofOutcome <| .error <| "query rejected: segment " ++ segment.uri ++
        " has unsupported search index schema version " ++
        toString segment.searchIndexSchemaVersion
    else do
      let directory ← loadSearchIndexDirectory (getRanges searchIndexUri)
      let selection := selectSearchIndexGroups directory predicate
      let chunks ← loadSelectedChunks (getRanges searchIndexUri) fst directory selection predicate
      let index ← Load.ofOutcome (decodeSearchIndexChunks fst directory chunks)
      return index.matchingRows fst predicate

end KevinDb
