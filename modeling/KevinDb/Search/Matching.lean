import KevinDb.Lib.Utf8Bytes
import KevinDb.Search.Format
import KevinDb.Search.Paths
import KevinDb.Search.Predicate

namespace KevinDb
set_option autoImplicit true
open Std

/-- The library with what `Map` reads: the value of a key, all keys with their values in order, and
those that begin with a text. -/
structure FstMaps extends FstLib where
  get : List UInt8 → List UInt8 → Option Nat
  stream : List UInt8 → List (List UInt8 × Nat)
  startsWith : List UInt8 → String → List (List UInt8 × Nat)

structure DecodedTerm where
  path : String
  rows : Finset UInt32
  positionsByRow : Table UInt32 (List UInt32)

/-- Rows of terms, together. -/
def rowsOfTerms (terms : List DecodedTerm) : Finset UInt32 :=
  terms.foldr (fun term rows => term.rows ∪ rows) ∅

/-! Keys. -/

def termValuePrefix (token : String) : List UInt8 := token.toUTF8.toList ++ [keyValueSeparator]

def termValueKey (token path : String) : List UInt8 := termValuePrefix token ++ path.toUTF8.toList

/-- `hex::encode`. -/
def hexEncode (bytes : List UInt8) : String :=
  String.ofList (bytes.flatMap fun byte =>
    [Nat.digitChar (byte.toNat / 16), Nat.digitChar (byte.toNat % 16)])

def exactValueToken (value : String) : String := "=" ++ hexEncode value.toUTF8.toList

/-- What comes behind the first separator, or all if there is none. -/
def termPath (term : List UInt8) : String :=
  fromUtf8Lossy <|
    if keyValueSeparator ∈ term then (term.dropWhile (· ≠ keyValueSeparator)).tail else term

def minMaxMayContainExact (minTerm maxTerm key : List UInt8) : Bool :=
  (compare minTerm key).isLE && (compare key maxTerm).isLE

/-- The loop of `next_prefix`, from the last byte on. -/
def nextPrefixRev : List UInt8 → Option (List UInt8)
  | [] => none
  | last :: upper => if last ≠ 255 then some ((last + 1) :: upper) else nextPrefixRev upper

def nextPrefix (front : List UInt8) : Option (List UInt8) :=
  (nextPrefixRev front.reverse).map List.reverse

def minMaxOverlapsPrefix (minTerm maxTerm front : List UInt8) : Bool :=
  if (compare maxTerm front).isLT then false
  else
    match nextPrefix front with
    | some upper => (compare minTerm upper).isLT
    | none => true

/-! Groups. -/

def groupMayContainExact (group : SearchRowGroup) (key : List UInt8) : Bool :=
  minMaxMayContainExact group.minTerm group.maxTerm key

def groupOverlapsPrefix (group : SearchRowGroup) (front : List UInt8) : Bool :=
  minMaxOverlapsPrefix group.minTerm group.maxTerm front

/-- `checked_range`, and the bytes there. -/
def checkedRange (offset len : UInt32) (bytes : List UInt8) : Option (List UInt8) :=
  let stop := offset.toNat + len.toNat
  if stop ≤ bytes.length then some (bytes.extract offset.toNat stop) else none

section groups

variable (fst : FstMaps)

/-- `Map::new` and what is done with the map. -/
def FstMaps.open? (bytes : List UInt8) (read : List UInt8 → α) : Option α :=
  if fst.validate bytes then some (read bytes) else none

def termByOrdinal (group : SearchRowGroup) (ordinal : Nat) : Option (List UInt8) := do
  let stream ← fst.open? group.fstBytes fst.stream
  let (key, _) ← stream.find? fun entry => entry.2 = ordinal
  return key

/-- The positions of a term, when they are asked for and there are any. The decoders do not panic. -/
def groupTermPositions (group : SearchRowGroup) (info : TermInfo) (rows : List UInt32)
    (includePositions : Bool) : Option (Table UInt32 (List UInt32)) :=
  if includePositions && 0 < info.positionsLen then do
    let positions ← checkedRange info.positionsOffset info.positionsLen group.positions
    (decodePositions positions rows).toOption
  else some ∅

def groupTermByOrdinal (group : SearchRowGroup) (ordinal : Nat) (includePositions : Bool) :
    Option DecodedTerm := do
  let info ← group.termInfos[ordinal]?
  let term ← termByOrdinal fst group ordinal
  let path := termPath term
  let postings ← checkedRange info.postingsOffset info.postingsLen group.postings
  let rows ← (decodeU32List postings info.docCount.toNat).toOption
  let positionsByRow ← groupTermPositions group info rows includePositions
  return { path, rows := rows.toFinset, positionsByRow }

def groupExactTermRows (group : SearchRowGroup) (key : List UInt8) (includePositions : Bool) :
    Option DecodedTerm := do
  let ordinal ← (← fst.open? group.fstBytes fst.get) key
  groupTermByOrdinal fst group ordinal includePositions

def groupPrefixTerms (group : SearchRowGroup) (front : List UInt8) (includePositions : Bool) :
    List DecodedTerm :=
  match fst.open? group.fstBytes fst.startsWith, fromUtf8 front with
  | some startsWith, some front =>
    (startsWith front).filterMap fun entry => groupTermByOrdinal fst group entry.2 includePositions
  | _, _ => []

def groupPathPatternRows (group : SearchRowGroup) (pattern : String) : Finset UInt32 :=
  match fst.open? group.fstBytes fst.stream with
  | none => ∅
  | some stream =>
    rowsOfTerms <| stream.filterMap fun entry => do
      let path ← fromUtf8 entry.1
      if pathMatchesPattern path pattern then groupTermByOrdinal fst group entry.2 false else none

end groups

abbrev RowPath := UInt32 × String

instance : Ord RowPath := lexOrd

/-- The positions of a token at the paths of the rows. -/
def positionsByRowPath (terms : List DecodedTerm) : Table RowPath (Finset UInt32) :=
  terms.foldl (fun positions term =>
    term.positionsByRow.foldl (fun positions row rowPositions =>
      positions.insert (row, term.path)
        ((positions[(row, term.path)]?.getD ∅) ∪ rowPositions.toFinset)) positions) ∅

/-- The tokens that come after the first one are at the places after its position. The sum wraps, as in
a release build. -/
def phraseFollows (others : List (Table RowPath (Finset UInt32))) (rowPath : RowPath)
    (position : UInt32) : Bool :=
  (others.zipIdx 1).all fun (termPositions, offset) =>
    match termPositions[rowPath]? with
    | some positions => position + UInt32.ofNat offset ∈ positions
    | none => false

namespace SearchIndex

variable (fst : FstMaps) (index : SearchIndex)

def allRows : Finset UInt32 := (Finset.range index.rowCount.toNat).image UInt32.ofNat

def valueTermsForToken (field : SearchField) (token : String) (includePositions : Bool) :
    List DecodedTerm :=
  match field with
  | .exactPath path =>
    let key := termValueKey token path
    (index.termValueGroups.filter (groupMayContainExact · key)).filterMap fun group =>
      groupExactTermRows fst group key includePositions
  | .all | .pathPrefix _ =>
    let front := termValuePrefix token
    ((index.termValueGroups.filter (groupOverlapsPrefix · front)).flatMap fun group =>
      groupPrefixTerms fst group front includePositions).filter fun term =>
        field.matchesPath term.path

def rowsForTerm (field : SearchField) (term : String) : Finset UInt32 :=
  rowsOfTerms (index.valueTermsForToken fst field term false)

/-- The rows of `rows_for_phrase` for two tokens or more. -/
def rowsForTokens (perTerm : List (List DecodedTerm)) : Finset UInt32 :=
  if perTerm.any List.isEmpty then ∅
  else
    match perTerm.map positionsByRowPath with
    | [] => ∅
    | first :: others =>
      ((first.toList.filter fun (rowPath, positions) =>
        ∃ position ∈ positions, phraseFollows others rowPath position).map
          fun entry => entry.1.1).toFinset

def rowsForPhrase (field : SearchField) (phrase : List String) : Finset UInt32 :=
  match phrase with
  | [] => ∅
  | [token] => index.rowsForTerm fst field token
  | phrase => rowsForTokens <| phrase.map fun token => index.valueTermsForToken fst field token true

def rowsForExactValue (field : SearchField) (value : String) : Finset UInt32 :=
  rowsOfTerms (index.valueTermsForToken fst field (exactValueToken value) false)

def rowsForQuery (field : SearchField) (query : SearchQuery) : Finset UInt32 :=
  if query.isEmpty then ∅
  else
    match query.terms.map (index.rowsForTerm fst field) ++
      query.phrases.map (index.rowsForPhrase fst field) with
    | [] => ∅
    | rows :: required => required.foldl (· ∩ ·) rows

def rowsForExactKey (key : String) : Finset UInt32 :=
  rowsOfTerms <| (index.termKeyGroups.filter
    (groupMayContainExact · key.toUTF8.toList)).filterMap fun group =>
      groupExactTermRows fst group key.toUTF8.toList false

def rowsForKeyPrefix (front : String) : Finset UInt32 :=
  rowsOfTerms <| (index.termKeyGroups.filter
    (groupOverlapsPrefix · front.toUTF8.toList)).flatMap fun group =>
      groupPrefixTerms fst group front.toUTF8.toList false

def rowsForPathPattern (pattern : String) : Finset UInt32 :=
  let pattern := normalizeLikePattern pattern
  if '*' ∉ pattern.toList then index.rowsForExactKey fst pattern
  else
    match simpleTrailingWildcardPrefix pattern with
    | some front => index.rowsForKeyPrefix fst front
    | none =>
      index.termKeyGroups.foldr (fun group rows => groupPathPatternRows fst group pattern ∪ rows) ∅

mutual

def matchingRows : SearchPredicate → Finset UInt32
  | .and children => matchingAll children
  | .or children => matchingAny children
  | .not child => index.allRows \ matchingRows child
  | .text field query => index.rowsForQuery fst field query
  | .exactValue field value => index.rowsForExactValue fst field value
  | .jsonKey pattern => index.rowsForPathPattern fst pattern

/-- The rows of all children; all rows if there are none. -/
def matchingAll : List SearchPredicate → Finset UInt32
  | [] => index.allRows
  | child :: children => matchingRest (matchingRows child) children

/-- The loop over the children behind the first. -/
def matchingRest (rows : Finset UInt32) : List SearchPredicate → Finset UInt32
  | [] => rows
  | child :: children => matchingRest (rows ∩ matchingRows child) children

def matchingAny : List SearchPredicate → Finset UInt32
  | [] => ∅
  | child :: children => matchingRows child ∪ matchingAny children

end

end SearchIndex

end KevinDb
