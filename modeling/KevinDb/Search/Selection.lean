import KevinDb.Search.Matching

namespace KevinDb
set_option autoImplicit true
open Std

structure SearchIndexGroupSelection where
  termKeyGroups : TreeSet Nat
  termValueGroups : TreeSet Nat
  includePositions : Bool

structure SearchIndexGroupDictionary where
  groupIndex : Nat
  fstBytes : List UInt8
  termInfos : List TermInfo

structure SearchIndexTermSlice where
  ordinal : Nat
  info : TermInfo
  includePositions : Bool

structure SearchIndexGroupTermSlices where
  groupIndex : Nat
  fstBytes : List UInt8
  termInfoCount : UInt32
  terms : List SearchIndexTermSlice

structure SearchIndexTermSlices where
  termKeyGroups : List SearchIndexGroupTermSlices
  termValueGroups : List SearchIndexGroupTermSlices

/-- The ordinals that are selected in the groups. The flag tells whether positions are wanted. -/
abbrev SelectedTerms := Table Nat (Table Nat Bool)

/-! Groups. -/

/-- The loop that selects the groups of a directory that may have what is looked for. -/
def selectGroups (may : SearchIndexGroupDirectory → Bool)
    (groups : List SearchIndexGroupDirectory) (selected : TreeSet Nat) : TreeSet Nat :=
  groups.zipIdx.foldl (fun selected entry =>
    if may entry.1 then selected.insert entry.2 else selected) selected

def directoryMayContainExact (key : List UInt8) (group : SearchIndexGroupDirectory) : Bool :=
  minMaxMayContainExact group.minTerm group.maxTerm key

def directoryOverlapsPrefix (front : List UInt8) (group : SearchIndexGroupDirectory) : Bool :=
  minMaxOverlapsPrefix group.minTerm group.maxTerm front

def selectValueGroupsForToken (directory : SearchIndexDirectory) (field : SearchField)
    (token : String) (includePositions : Bool) (selection : SearchIndexGroupSelection) :
    SearchIndexGroupSelection :=
  let may :=
    match field with
    | .exactPath path => directoryMayContainExact (termValueKey token path)
    | .all | .pathPrefix _ => directoryOverlapsPrefix (termValuePrefix token)
  { selection with
    termValueGroups := selectGroups may directory.termValueGroups selection.termValueGroups
    includePositions := selection.includePositions || includePositions }

def selectValueGroupsForQuery (directory : SearchIndexDirectory) (field : SearchField)
    (query : SearchQuery) (selection : SearchIndexGroupSelection) : SearchIndexGroupSelection :=
  let selection := query.terms.foldl (fun selection term =>
    selectValueGroupsForToken directory field term false selection) selection
  query.phrases.foldl (fun selection phrase =>
    let needsPositions := decide (1 < phrase.length)
    phrase.foldl (fun selection term =>
      selectValueGroupsForToken directory field term needsPositions selection) selection) selection

def selectKeyGroupsForPattern (directory : SearchIndexDirectory) (pattern : String)
    (selection : SearchIndexGroupSelection) : SearchIndexGroupSelection :=
  let pattern := normalizeLikePattern pattern
  let may :=
    if '*' ∉ pattern.toList then directoryMayContainExact pattern.toUTF8.toList
    else
      match simpleTrailingWildcardPrefix pattern with
      | some front => directoryOverlapsPrefix front.toUTF8.toList
      | none => fun _ => true
  { selection with
    termKeyGroups := selectGroups may directory.termKeyGroups selection.termKeyGroups }

mutual

def selectGroupsForPredicate (directory : SearchIndexDirectory)
    (selection : SearchIndexGroupSelection) : SearchPredicate → SearchIndexGroupSelection
  | .and children | .or children => selectGroupsForChildren directory selection children
  | .not child => selectGroupsForPredicate directory selection child
  | .text field query => selectValueGroupsForQuery directory field query selection
  | .exactValue field value =>
    selectValueGroupsForToken directory field (exactValueToken value) false selection
  | .jsonKey pattern => selectKeyGroupsForPattern directory pattern selection

def selectGroupsForChildren (directory : SearchIndexDirectory)
    (selection : SearchIndexGroupSelection) : List SearchPredicate → SearchIndexGroupSelection
  | [] => selection
  | child :: children =>
    selectGroupsForChildren directory (selectGroupsForPredicate directory selection child) children

end

def selectSearchIndexGroups (directory : SearchIndexDirectory) (predicate : SearchPredicate) :
    SearchIndexGroupSelection :=
  selectGroupsForPredicate directory ⟨∅, ∅, false⟩ predicate

/-! Terms. -/

def mergeSelectedTerm (selected : SelectedTerms) (groupIndex ordinal : Nat)
    (includePositions : Bool) : SelectedTerms :=
  let ordinals := selected[groupIndex]?.getD ∅
  selected.insert groupIndex
    (ordinals.insert ordinal (ordinals[ordinal]?.getD false || includePositions))

section terms

variable (fst : FstMaps)

def decodeSearchGroupDictionary (groupIndex : Nat) (fstBytes termInfoBytes : List UInt8)
    (termInfoCount : UInt32) : Outcome SearchIndexGroupDictionary :=
  if !fst.validate fstBytes then .error "validate search FST"
  else do
    let termInfos ← decodeSearchTermInfos termInfoBytes termInfoCount.toNat
    return { groupIndex, fstBytes, termInfos }

/-- The loop that selects terms of a group. -/
def selectTerms (includePositions : Bool) (group : SearchIndexGroupDictionary)
    (ordinals : List Nat) (selected : SelectedTerms) : SelectedTerms :=
  ordinals.foldl (fun selected ordinal =>
    mergeSelectedTerm selected group.groupIndex ordinal includePositions) selected

def selectExactTerms (groups : List SearchIndexGroupDictionary) (key : List UInt8)
    (includePositions : Bool) (selected : SelectedTerms) : SelectedTerms :=
  groups.foldl (fun selected group =>
    match fst.open? group.fstBytes fst.get with
    | none => selected
    | some get => selectTerms includePositions group (get key).toList selected) selected

def selectPrefixTerms (groups : List SearchIndexGroupDictionary) (front : List UInt8)
    (field : SearchField) (includePositions : Bool) (selected : SelectedTerms) : SelectedTerms :=
  match fromUtf8 front with
  | none => selected
  | some front =>
    groups.foldl (fun selected group =>
      match fst.open? group.fstBytes fst.startsWith with
      | none => selected
      | some startsWith =>
        let found := (startsWith front).filter fun entry => field.matchesPath (termPath entry.1)
        selectTerms includePositions group (found.map Prod.snd) selected) selected

def selectKeyTermsForPattern (groups : List SearchIndexGroupDictionary) (pattern : String)
    (selected : SelectedTerms) : SelectedTerms :=
  let pattern := normalizeLikePattern pattern
  if '*' ∉ pattern.toList then selectExactTerms fst groups pattern.toUTF8.toList false selected
  else
    match simpleTrailingWildcardPrefix pattern with
    | some front => selectPrefixTerms fst groups front.toUTF8.toList .all false selected
    | none =>
      groups.foldl (fun selected group =>
        match fst.open? group.fstBytes fst.stream with
        | none => selected
        | some stream =>
          let found := stream.filter fun entry =>
            (fromUtf8 entry.1).any (pathMatchesPattern · pattern)
          selectTerms false group (found.map Prod.snd) selected) selected

def selectValueTermsForToken (groups : List SearchIndexGroupDictionary) (field : SearchField)
    (token : String) (includePositions : Bool) (selected : SelectedTerms) : SelectedTerms :=
  match field with
  | .exactPath path => selectExactTerms fst groups (termValueKey token path) includePositions selected
  | .all | .pathPrefix _ =>
    selectPrefixTerms fst groups (termValuePrefix token) field includePositions selected

def selectValueTermsForQuery (groups : List SearchIndexGroupDictionary) (field : SearchField)
    (query : SearchQuery) (selected : SelectedTerms) : SelectedTerms :=
  let selected := query.terms.foldl (fun selected term =>
    selectValueTermsForToken fst groups field term false selected) selected
  query.phrases.foldl (fun selected phrase =>
    let includePositions := decide (1 < phrase.length)
    phrase.foldl (fun selected term =>
      selectValueTermsForToken fst groups field term includePositions selected) selected) selected

mutual

/-- The terms that are selected among the keys and among the values. -/
def selectTermsForPredicate (keyGroups valueGroups : List SearchIndexGroupDictionary)
    (selected : SelectedTerms × SelectedTerms) : SearchPredicate → SelectedTerms × SelectedTerms
  | .and children | .or children =>
    selectTermsForChildren keyGroups valueGroups selected children
  | .not child => selectTermsForPredicate keyGroups valueGroups selected child
  | .text field query =>
    (selected.1, selectValueTermsForQuery fst valueGroups field query selected.2)
  | .exactValue field value =>
    (selected.1,
      selectValueTermsForToken fst valueGroups field (exactValueToken value) false selected.2)
  | .jsonKey pattern => (selectKeyTermsForPattern fst keyGroups pattern selected.1, selected.2)

def selectTermsForChildren (keyGroups valueGroups : List SearchIndexGroupDictionary)
    (selected : SelectedTerms × SelectedTerms) :
    List SearchPredicate → SelectedTerms × SelectedTerms
  | [] => selected
  | child :: children =>
    selectTermsForChildren keyGroups valueGroups
      (selectTermsForPredicate keyGroups valueGroups selected child) children

end

end terms

/-- The closure of `materialize_term_slices`. -/
def groupTermSlices (groups : List SearchIndexGroupDictionary) (entry : Nat × Table Nat Bool) :
    Option SearchIndexGroupTermSlices := do
  let group ← groups.find? (·.groupIndex = entry.1)
  let terms := entry.2.toList.filterMap fun (ordinal, includePositions) =>
    group.termInfos[ordinal]?.map fun info => { ordinal, info, includePositions }
  if terms.isEmpty then none
  else some {
    groupIndex := entry.1
    fstBytes := group.fstBytes
    termInfoCount := UInt32.ofNat group.termInfos.length
    terms }

def materializeTermSlices (groups : List SearchIndexGroupDictionary) (selected : SelectedTerms) :
    List SearchIndexGroupTermSlices :=
  selected.toList.filterMap (groupTermSlices groups)

def selectSearchIndexTerms (fst : FstMaps) (predicate : SearchPredicate)
    (keyGroups valueGroups : List SearchIndexGroupDictionary) : SearchIndexTermSlices :=
  let selected := selectTermsForPredicate fst keyGroups valueGroups (∅, ∅) predicate
  { termKeyGroups := materializeTermSlices keyGroups selected.1
    termValueGroups := materializeTermSlices valueGroups selected.2 }

end KevinDb
