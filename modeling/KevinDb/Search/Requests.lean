import KevinDb.Search.Selection
import KevinDb.Search.StoredTerms

namespace KevinDb
set_option autoImplicit true
open Std

/-! What a predicate looks up in an index. -/

/-- A token that is looked up in a field, with its positions or without them. -/
structure TokenRequest where
  field : SearchField
  token : String
  includePositions : Bool

def SearchQuery.requests (field : SearchField) (query : SearchQuery) : List TokenRequest :=
  query.terms.map (⟨field, ·, false⟩) ++
    query.phrases.flatMap fun phrase => phrase.map (⟨field, ·, decide (1 < phrase.length)⟩)

namespace SearchPredicate

mutual

def requests : SearchPredicate → List TokenRequest
  | .and children | .or children => requestsOf children
  | .not child => requests child
  | .text field query => query.requests field
  | .exactValue field value => [⟨field, exactValueToken value, false⟩]
  | .jsonKey _ => []

def requestsOf : List SearchPredicate → List TokenRequest
  | [] => []
  | child :: children => requests child ++ requestsOf children

end

mutual

def patterns : SearchPredicate → List String
  | .and children | .or children => patternsOf children
  | .not child => patterns child
  | .text _ _ | .exactValue _ _ => []
  | .jsonKey pattern => [normalizeLikePattern pattern]

def patternsOf : List SearchPredicate → List String
  | [] => []
  | child :: children => patterns child ++ patternsOf children

end

end SearchPredicate

/-! Groups. -/

theorem mem_selectGroups {may : SearchIndexGroupDirectory → Bool}
    {groups : List SearchIndexGroupDirectory} {selected : TreeSet Nat} {index : Nat} :
    index ∈ selectGroups may groups selected ↔
      index ∈ selected ∨ ∃ group, groups[index]? = some group ∧ may group := by
  have hloop (entries : List (SearchIndexGroupDirectory × Nat)) (selected : TreeSet Nat) :
      index ∈ entries.foldl (fun selected entry =>
        if may entry.1 then selected.insert entry.2 else selected) selected ↔
          index ∈ selected ∨ ∃ entry ∈ entries, may entry.1 ∧ entry.2 = index := by
    induction entries generalizing selected with
    | nil => simp
    | cons entry entries ih =>
      rw [List.foldl_cons, ih, List.exists_mem_cons_iff, ← or_assoc]
      apply or_congr_left
      split
      next hmay => simp [TreeSet.mem_insert, LawfulEqCmp.compare_eq_iff_eq, hmay, or_comm]
      next hmay => simp [hmay]
  rw [selectGroups, hloop]
  apply or_congr_right
  constructor
  · rintro ⟨⟨group, place⟩, hin, hmay, rfl⟩
    exact ⟨group, List.mem_zipIdx_iff_getElem?.1 hin, hmay⟩
  · rintro ⟨group, hget, hmay⟩
    exact ⟨(group, index), List.mem_zipIdx_iff_getElem?.2 hget, hmay, rfl⟩

/-- The group may have the terms of a request. -/
def TokenRequest.mayBeIn (request : TokenRequest) (minTerm maxTerm : List UInt8) : Bool :=
  match request.field with
  | .exactPath path => minMaxMayContainExact minTerm maxTerm (termValueKey request.token path)
  | .all | .pathPrefix _ => minMaxOverlapsPrefix minTerm maxTerm (termValuePrefix request.token)

/-- The group may have the keys of a pattern. -/
def patternMayBeIn (pattern : String) (minTerm maxTerm : List UInt8) : Bool :=
  if '*' ∉ pattern.toList then minMaxMayContainExact minTerm maxTerm pattern.toUTF8.toList
  else
    match simpleTrailingWildcardPrefix pattern with
    | some front => minMaxOverlapsPrefix minTerm maxTerm front.toUTF8.toList
    | none => true

section groups

variable {directory : SearchIndexDirectory} {selection : SearchIndexGroupSelection} {index : Nat}

/-- One of the requests is for what the group may have. -/
def Requested (directory : SearchIndexDirectory) (requests : List TokenRequest) (index : Nat) :
    Prop :=
  ∃ request ∈ requests, ∃ group, directory.termValueGroups[index]? = some group ∧
    request.mayBeIn group.minTerm group.maxTerm

theorem mem_selectValueGroupsForToken (request : TokenRequest) :
    index ∈ (selectValueGroupsForToken directory request.field request.token
      request.includePositions selection).termValueGroups ↔
        index ∈ selection.termValueGroups ∨ Requested directory [request] index := by
  obtain ⟨field, token, includePositions⟩ := request
  simp only [Requested, List.mem_singleton, exists_eq_left]
  cases field with
  | all => exact mem_selectGroups
  | exactPath path => exact mem_selectGroups
  | pathPrefix front => exact mem_selectGroups

theorem mem_foldl_selectValueGroups (requests : List TokenRequest) :
    index ∈ (requests.foldl (fun selection request =>
      selectValueGroupsForToken directory request.field request.token request.includePositions
        selection) selection).termValueGroups ↔
          index ∈ selection.termValueGroups ∨ Requested directory requests index := by
  induction requests generalizing selection with
  | nil => simp [Requested]
  | cons request requests ih =>
    rw [List.foldl_cons, ih, mem_selectValueGroupsForToken, or_assoc]
    simp only [Requested, List.mem_singleton, exists_eq_left, List.exists_mem_cons_iff]

theorem selectValueGroupsForQuery_eq (field : SearchField) (query : SearchQuery) :
    selectValueGroupsForQuery directory field query selection =
      (query.requests field).foldl (fun selection request =>
        selectValueGroupsForToken directory request.field request.token request.includePositions
          selection) selection := by
  rw [selectValueGroupsForQuery, SearchQuery.requests, List.foldl_append, List.foldl_map,
    List.foldl_flatMap]
  simp only [List.foldl_map]

theorem termKeyGroups_foldl (requests : List TokenRequest) :
    (requests.foldl (fun selection request =>
      selectValueGroupsForToken directory request.field request.token request.includePositions
        selection) selection).termKeyGroups = selection.termKeyGroups := by
  induction requests generalizing selection with
  | nil => rfl
  | cons request requests ih => exact ih

theorem mem_selectKeyGroupsForPattern (pattern : String) :
    index ∈ (selectKeyGroupsForPattern directory pattern selection).termKeyGroups ↔
      index ∈ selection.termKeyGroups ∨ ∃ group, directory.termKeyGroups[index]? = some group ∧
        patternMayBeIn (normalizeLikePattern pattern) group.minTerm group.maxTerm := by
  rw [selectKeyGroupsForPattern]
  dsimp only
  rw [mem_selectGroups]
  simp only [patternMayBeIn]
  split
  · rfl
  · cases simpleTrailingWildcardPrefix (normalizeLikePattern pattern) with
    | none => rfl
    | some front => rfl

mutual

/-- The groups that may have what a predicate looks up are selected. -/
theorem mem_selectGroupsForPredicate (selection : SearchIndexGroupSelection) :
    ∀ predicate : SearchPredicate,
      (index ∈ (selectGroupsForPredicate directory selection predicate).termValueGroups ↔
        index ∈ selection.termValueGroups ∨ Requested directory predicate.requests index) ∧
      (index ∈ (selectGroupsForPredicate directory selection predicate).termKeyGroups ↔
        index ∈ selection.termKeyGroups ∨ ∃ pattern ∈ predicate.patterns, ∃ group,
          directory.termKeyGroups[index]? = some group ∧
            patternMayBeIn pattern group.minTerm group.maxTerm)
  | .and children => mem_selectGroupsForChildren selection children
  | .or children => mem_selectGroupsForChildren selection children
  | .not child => mem_selectGroupsForPredicate selection child
  | .text field query => by
    rw [selectGroupsForPredicate, selectValueGroupsForQuery_eq, mem_foldl_selectValueGroups,
      termKeyGroups_foldl, SearchPredicate.requests, SearchPredicate.patterns]
    simp
  | .exactValue field value => by
    constructor
    · exact mem_selectValueGroupsForToken ⟨field, exactValueToken value, false⟩
    · rw [SearchPredicate.patterns]
      simp [selectGroupsForPredicate, selectValueGroupsForToken]
  | .jsonKey pattern => by
    constructor
    · rw [SearchPredicate.requests]
      simp [selectGroupsForPredicate, selectKeyGroupsForPattern, Requested]
    · rw [selectGroupsForPredicate, mem_selectKeyGroupsForPattern, SearchPredicate.patterns]
      simp only [List.mem_singleton, exists_eq_left]

theorem mem_selectGroupsForChildren (selection : SearchIndexGroupSelection) :
    ∀ children : List SearchPredicate,
      (index ∈ (selectGroupsForChildren directory selection children).termValueGroups ↔
        index ∈ selection.termValueGroups ∨
          Requested directory (SearchPredicate.requestsOf children) index) ∧
      (index ∈ (selectGroupsForChildren directory selection children).termKeyGroups ↔
        index ∈ selection.termKeyGroups ∨ ∃ pattern ∈ SearchPredicate.patternsOf children,
          ∃ group, directory.termKeyGroups[index]? = some group ∧
            patternMayBeIn pattern group.minTerm group.maxTerm)
  | [] => by
    rw [selectGroupsForChildren, SearchPredicate.requestsOf, SearchPredicate.patternsOf]
    simp [Requested]
  | child :: children => by
    obtain ⟨hvalues, hkeys⟩ :=
      mem_selectGroupsForChildren (selectGroupsForPredicate directory selection child) children
    obtain ⟨hvalue, hkey⟩ := mem_selectGroupsForPredicate selection child
    rw [selectGroupsForChildren, SearchPredicate.requestsOf, SearchPredicate.patternsOf, hvalues,
      hvalue, hkeys, hkey, or_assoc, or_assoc]
    simp only [Requested, List.mem_append, or_and_right, exists_or, and_self]

end

end groups

/-! Terms. -/

/-- The ordinal is selected, and with its positions if they are wanted. -/
def Selects (selected : SelectedTerms) (groupIndex ordinal : Nat) (includePositions : Bool) : Prop :=
  ∃ flag, (selected[groupIndex]?.getD ∅)[ordinal]? = some flag ∧ (includePositions → flag)

theorem not_selects_empty {groupIndex ordinal : Nat} {includePositions : Bool} :
    ¬ Selects ∅ groupIndex ordinal includePositions := by
  rintro ⟨flag, hget, -⟩
  simp at hget

theorem selects_mergeSelectedTerm {selected : SelectedTerms} {groupIndex ordinal groupIndex'
    ordinal' : Nat} {includePositions includePositions' : Bool} :
    Selects (mergeSelectedTerm selected groupIndex ordinal includePositions) groupIndex' ordinal'
        includePositions' ↔
      Selects selected groupIndex' ordinal' includePositions' ∨
        (groupIndex = groupIndex' ∧ ordinal = ordinal' ∧
          (includePositions' → includePositions)) := by
  rw [Selects, mergeSelectedTerm, Table.get_insert]
  by_cases hgroup : groupIndex = groupIndex'
  · subst hgroup
    rw [if_pos rfl, Option.getD_some, Table.get_insert, Selects]
    by_cases hordinal : ordinal = ordinal'
    · subst hordinal
      rw [if_pos rfl]
      simp only [Option.some.injEq, exists_eq_left', true_and]
      cases (selected[groupIndex]?.getD ∅)[ordinal]? with
      | none => simp
      | some flag =>
        simp only [Option.getD_some, Option.some.injEq, exists_eq_left', Bool.or_eq_true]
        tauto
    · rw [if_neg hordinal]
      simp [hordinal]
  · rw [if_neg hgroup, Selects]
    simp [hgroup]

theorem selects_selectTerms {selected : SelectedTerms} {group : SearchIndexGroupDictionary}
    {ordinals : List Nat} {groupIndex ordinal : Nat} {includePositions includePositions' : Bool} :
    Selects (selectTerms includePositions group ordinals selected) groupIndex ordinal
        includePositions' ↔
      Selects selected groupIndex ordinal includePositions' ∨
        (group.groupIndex = groupIndex ∧ ordinal ∈ ordinals ∧
          (includePositions' → includePositions)) := by
  rw [selectTerms]
  induction ordinals generalizing selected with
  | nil => simp
  | cons other ordinals ih =>
    rw [List.foldl_cons, ih, selects_mergeSelectedTerm, List.mem_cons]
    constructor
    · rintro ((h | ⟨rfl, rfl, himp⟩) | ⟨rfl, hin, himp⟩)
      · exact .inl h
      · exact .inr ⟨rfl, .inl rfl, himp⟩
      · exact .inr ⟨rfl, .inr hin, himp⟩
    · rintro (h | ⟨rfl, rfl | hin, himp⟩)
      · exact .inl (.inl h)
      · exact .inl (.inr ⟨rfl, rfl, himp⟩)
      · exact .inr ⟨rfl, hin, himp⟩

/-- One of the groups has the ordinal among those that are found in it. -/
def FoundIn (groups : List SearchIndexGroupDictionary) (find : List UInt8 → List Nat)
    (groupIndex ordinal : Nat) : Prop :=
  ∃ group ∈ groups, group.groupIndex = groupIndex ∧ ordinal ∈ find group.fstBytes

/-- The loop over the groups, each with the ordinals that are found in it. -/
theorem selects_foldl {find : List UInt8 → List Nat}
    {step : SelectedTerms → SearchIndexGroupDictionary → SelectedTerms} {includePositions : Bool}
    (hstep : ∀ selected group,
      step selected group = selectTerms includePositions group (find group.fstBytes) selected)
    (groups : List SearchIndexGroupDictionary) {selected : SelectedTerms} {groupIndex ordinal : Nat}
    {includePositions' : Bool} :
    Selects (groups.foldl step selected) groupIndex ordinal includePositions' ↔
      Selects selected groupIndex ordinal includePositions' ∨
        (FoundIn groups find groupIndex ordinal ∧ (includePositions' → includePositions)) := by
  induction groups generalizing selected with
  | nil => simp [FoundIn]
  | cons group groups ih =>
    rw [List.foldl_cons, ih, hstep, selects_selectTerms, or_assoc, FoundIn, FoundIn,
      List.exists_mem_cons_iff, or_and_right, and_assoc]

section terms

variable (fst : FstMaps)

/-- The ordinal of a key. -/
def exactOrdinals (key : List UInt8) (fstBytes : List UInt8) : List Nat :=
  match fst.open? fstBytes fst.get with
  | none => []
  | some get => (get key).toList

/-- The ordinals of what begins with a text and is at a path of the field. -/
def prefixOrdinals (front : List UInt8) (field : SearchField) (fstBytes : List UInt8) : List Nat :=
  match fromUtf8 front, fst.open? fstBytes fst.startsWith with
  | some front, some startsWith =>
    ((startsWith front).filter fun entry => field.matchesPath (termPath entry.1)).map Prod.snd
  | _, _ => []

/-- The ordinals of the paths that match. -/
def matchingOrdinals (pattern : String) (fstBytes : List UInt8) : List Nat :=
  match fst.open? fstBytes fst.stream with
  | none => []
  | some stream =>
    (stream.filter fun entry => (fromUtf8 entry.1).any (pathMatchesPattern · pattern)).map Prod.snd

def TokenRequest.ordinals (request : TokenRequest) : List UInt8 → List Nat :=
  match request.field with
  | .exactPath path => exactOrdinals fst (termValueKey request.token path)
  | .all | .pathPrefix _ => prefixOrdinals fst (termValuePrefix request.token) request.field

def patternOrdinals (pattern : String) : List UInt8 → List Nat :=
  if '*' ∉ pattern.toList then exactOrdinals fst pattern.toUTF8.toList
  else
    match simpleTrailingWildcardPrefix pattern with
    | some front => prefixOrdinals fst front.toUTF8.toList .all
    | none => matchingOrdinals fst pattern

variable {fst} {groups keyGroups valueGroups : List SearchIndexGroupDictionary}
  {selected : SelectedTerms} {groupIndex ordinal : Nat} {includePositions includePositions' : Bool}

theorem selects_selectExactTerms (key : List UInt8) :
    Selects (selectExactTerms fst groups key includePositions selected) groupIndex ordinal
        includePositions' ↔
      Selects selected groupIndex ordinal includePositions' ∨
        (FoundIn groups (exactOrdinals fst key) groupIndex ordinal ∧
          (includePositions' → includePositions)) := by
  apply selects_foldl
  intro selected group
  rw [exactOrdinals]
  cases fst.open? group.fstBytes fst.get with
  | none => rfl
  | some get => rfl

theorem selects_selectPrefixTerms (front : List UInt8) (field : SearchField) :
    Selects (selectPrefixTerms fst groups front field includePositions selected) groupIndex ordinal
        includePositions' ↔
      Selects selected groupIndex ordinal includePositions' ∨
        (FoundIn groups (prefixOrdinals fst front field) groupIndex ordinal ∧
          (includePositions' → includePositions)) := by
  rw [selectPrefixTerms]
  cases hfront : fromUtf8 front with
  | none =>
    have hfound : ¬ FoundIn groups (prefixOrdinals fst front field) groupIndex ordinal := by
      rintro ⟨group, -, -, hin⟩
      rw [prefixOrdinals, hfront] at hin
      cases hin
    exact (or_iff_left fun h => hfound h.1).symm
  | some text =>
    apply selects_foldl
    intro selected group
    rw [prefixOrdinals, hfront]
    cases fst.open? group.fstBytes fst.startsWith with
    | none => rfl
    | some startsWith => rfl

theorem selects_selectKeyTermsForPattern (pattern : String) :
    Selects (selectKeyTermsForPattern fst groups pattern selected) groupIndex ordinal
        includePositions' ↔
      Selects selected groupIndex ordinal includePositions' ∨
        (FoundIn groups (patternOrdinals fst (normalizeLikePattern pattern)) groupIndex ordinal ∧
          includePositions' = false) := by
  have hfalse : (includePositions' → (false : Bool)) ↔ includePositions' = false := by
    cases includePositions' with
    | false => exact iff_of_true nofun rfl
    | true => exact iff_of_false (fun h => Bool.false_ne_true (h rfl)) nofun
  rw [selectKeyTermsForPattern, patternOrdinals, ← hfalse]
  dsimp only
  split
  · exact selects_selectExactTerms _
  · cases simpleTrailingWildcardPrefix (normalizeLikePattern pattern) with
    | some front => exact selects_selectPrefixTerms _ _
    | none =>
      refine selects_foldl (fun selected group => ?_) groups
      dsimp only
      rw [matchingOrdinals]
      cases fst.open? group.fstBytes fst.stream with
      | none => rfl
      | some stream => rfl

theorem selects_selectValueTermsForToken (request : TokenRequest) :
    Selects (selectValueTermsForToken fst groups request.field request.token
        request.includePositions selected) groupIndex ordinal includePositions' ↔
      Selects selected groupIndex ordinal includePositions' ∨
        (FoundIn groups (request.ordinals fst) groupIndex ordinal ∧
          (includePositions' → request.includePositions)) := by
  obtain ⟨field, token, includePositions⟩ := request
  cases field with
  | all => exact selects_selectPrefixTerms _ _
  | exactPath path => exact selects_selectExactTerms _
  | pathPrefix front => exact selects_selectPrefixTerms _ _

/-- One of the requests finds the ordinal. -/
def FoundByRequests (fst : FstMaps) (groups : List SearchIndexGroupDictionary)
    (requests : List TokenRequest) (groupIndex ordinal : Nat) (includePositions : Bool) : Prop :=
  ∃ request ∈ requests, FoundIn groups (request.ordinals fst) groupIndex ordinal ∧
    (includePositions → request.includePositions)

theorem selects_foldl_requests (requests : List TokenRequest) :
    Selects (requests.foldl (fun selected request =>
        selectValueTermsForToken fst groups request.field request.token request.includePositions
          selected) selected) groupIndex ordinal includePositions' ↔
      Selects selected groupIndex ordinal includePositions' ∨
        FoundByRequests fst groups requests groupIndex ordinal includePositions' := by
  induction requests generalizing selected with
  | nil => simp [FoundByRequests]
  | cons request requests ih =>
    rw [List.foldl_cons, ih, selects_selectValueTermsForToken, or_assoc]
    simp only [FoundByRequests, List.exists_mem_cons_iff]

theorem selectValueTermsForQuery_eq (field : SearchField) (query : SearchQuery) :
    selectValueTermsForQuery fst groups field query selected =
      (query.requests field).foldl (fun selected request =>
        selectValueTermsForToken fst groups request.field request.token request.includePositions
          selected) selected := by
  rw [selectValueTermsForQuery, SearchQuery.requests, List.foldl_append, List.foldl_map,
    List.foldl_flatMap]
  simp only [List.foldl_map]

/-- One of the patterns finds the ordinal. -/
def FoundByPatterns (fst : FstMaps) (groups : List SearchIndexGroupDictionary)
    (patterns : List String) (groupIndex ordinal : Nat) : Prop :=
  ∃ pattern ∈ patterns, FoundIn groups (patternOrdinals fst pattern) groupIndex ordinal

mutual

/-- The terms that a predicate looks up in the groups are selected. -/
theorem selects_selectTermsForPredicate (selected : SelectedTerms × SelectedTerms) :
    ∀ predicate : SearchPredicate,
      (Selects (selectTermsForPredicate fst keyGroups valueGroups selected predicate).1 groupIndex
          ordinal false ↔
        Selects selected.1 groupIndex ordinal false ∨
          FoundByPatterns fst keyGroups predicate.patterns groupIndex ordinal) ∧
      (Selects (selectTermsForPredicate fst keyGroups valueGroups selected predicate).2 groupIndex
          ordinal includePositions ↔
        Selects selected.2 groupIndex ordinal includePositions ∨
          FoundByRequests fst valueGroups predicate.requests groupIndex ordinal includePositions)
  | .and children => selects_selectTermsForChildren selected children
  | .or children => selects_selectTermsForChildren selected children
  | .not child => selects_selectTermsForPredicate selected child
  | .text field query => by
    rw [selectTermsForPredicate, selectValueTermsForQuery_eq, selects_foldl_requests,
      SearchPredicate.requests, SearchPredicate.patterns]
    simp [FoundByPatterns]
  | .exactValue field value => by
    constructor
    · rw [SearchPredicate.patterns]
      simp [selectTermsForPredicate, FoundByPatterns]
    · rw [selectTermsForPredicate, SearchPredicate.requests]
      exact selects_foldl_requests [⟨field, exactValueToken value, false⟩]
  | .jsonKey pattern => by
    rw [selectTermsForPredicate, selects_selectKeyTermsForPattern, SearchPredicate.requests,
      SearchPredicate.patterns]
    simp [FoundByPatterns, FoundByRequests]

theorem selects_selectTermsForChildren (selected : SelectedTerms × SelectedTerms) :
    ∀ children : List SearchPredicate,
      (Selects (selectTermsForChildren fst keyGroups valueGroups selected children).1 groupIndex
          ordinal false ↔
        Selects selected.1 groupIndex ordinal false ∨ FoundByPatterns fst keyGroups
          (SearchPredicate.patternsOf children) groupIndex ordinal) ∧
      (Selects (selectTermsForChildren fst keyGroups valueGroups selected children).2 groupIndex
          ordinal includePositions ↔
        Selects selected.2 groupIndex ordinal includePositions ∨ FoundByRequests fst valueGroups
          (SearchPredicate.requestsOf children) groupIndex ordinal includePositions)
  | [] => by
    rw [selectTermsForChildren, SearchPredicate.requestsOf, SearchPredicate.patternsOf]
    simp [FoundByRequests, FoundByPatterns]
  | child :: children => by
    obtain ⟨hkeys, hvalues⟩ := selects_selectTermsForChildren
      (selectTermsForPredicate fst keyGroups valueGroups selected child) children
    obtain ⟨hkey, hvalue⟩ := selects_selectTermsForPredicate selected child
    rw [selectTermsForChildren, SearchPredicate.requestsOf, SearchPredicate.patternsOf, hkeys, hkey,
      hvalues, hvalue, or_assoc, or_assoc]
    simp only [FoundByPatterns, FoundByRequests, List.mem_append, or_and_right, exists_or, and_self]

end

end terms

end KevinDb
