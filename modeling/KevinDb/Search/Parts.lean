import KevinDb.Search.Evaluation
import KevinDb.Search.Requests

namespace KevinDb
set_option autoImplicit true
open Std

/-! What is looked up in a group. -/

/-- The terms of a group that a request finds. -/
def TokenRequest.terms (fst : FstMaps) (request : TokenRequest) (group : SearchRowGroup) :
    List DecodedTerm :=
  if request.mayBeIn group.minTerm group.maxTerm then
    (request.ordinals fst group.fstBytes).filterMap fun ordinal =>
      groupTermByOrdinal fst group ordinal request.includePositions
  else []

/-- The keys of a group that a pattern finds. -/
def patternTerms (fst : FstMaps) (pattern : String) (group : SearchRowGroup) : List DecodedTerm :=
  if patternMayBeIn pattern group.minTerm group.maxTerm then
    (patternOrdinals fst pattern group.fstBytes).filterMap fun ordinal =>
      groupTermByOrdinal fst group ordinal false
  else []

/-- A term that is read at the ordinal of a key has the path of the key. -/
def SearchRowGroup.PathsAgree (fst : FstMaps) (built : Bool) (group : SearchRowGroup) : Prop :=
  ∀ front, ∀ entry ∈ fst.startsWith group.fstBytes front, ∀ includePositions : Bool,
    (includePositions → built) → ∀ term,
      groupTermByOrdinal fst group entry.2 includePositions = some term →
        term.path = termPath entry.1

theorem flatMap_filter {p : α → Bool} {f : α → List β} (values : List α) :
    (values.filter p).flatMap f = values.flatMap fun value => if p value then f value else [] := by
  induction values with
  | nil => rfl
  | cons value values ih =>
    rw [List.filter_cons, List.flatMap_cons]
    split
    · rw [List.flatMap_cons, ih]
    · rw [ih, List.nil_append]

theorem filter_flatMap {p : β → Bool} {f : α → List β} (values : List α) :
    (values.flatMap f).filter p = values.flatMap fun value => (f value).filter p := by
  induction values with
  | nil => rfl
  | cons value values ih => rw [List.flatMap_cons, List.filter_append, ih, List.flatMap_cons]

theorem filter_filterMap {f : α → Option β} {p : β → Bool} {q : α → Bool} {values : List α}
    (h : ∀ value ∈ values, ∀ found, f value = some found → p found = q value) :
    (values.filterMap f).filter p = (values.filter q).filterMap f := by
  induction values with
  | nil => rfl
  | cons value values ih =>
    rw [List.forall_mem_cons] at h
    have hrest := ih h.2
    rw [List.filter_cons]
    cases hvalue : f value with
    | none =>
      rw [List.filterMap_cons_none hvalue, hrest]
      split
      · rw [List.filterMap_cons_none hvalue]
      · rfl
    | some found =>
      rw [List.filterMap_cons_some hvalue, List.filter_cons, h.1 found hvalue, hrest]
      split
      · rw [List.filterMap_cons_some hvalue]
      · rfl

section lookups

variable {fst : FstMaps} {index : SearchIndex} {group : SearchRowGroup} {built : Bool}
  {includePositions : Bool}

theorem groupExactTermRows_toList (key : List UInt8) :
    (groupExactTermRows fst group key includePositions).toList =
      (exactOrdinals fst key group.fstBytes).filterMap fun ordinal =>
        groupTermByOrdinal fst group ordinal includePositions := by
  rw [groupExactTermRows, exactOrdinals]
  cases fst.open? group.fstBytes fst.get with
  | none => rfl
  | some get =>
    rw [Option.bind_eq_bind, Option.bind_some]
    dsimp only
    cases get key with
    | none => rfl
    | some ordinal =>
      rw [Option.bind_eq_bind, Option.bind_some, Option.toList_some,
        List.filterMap_eq_flatMap_toList, List.flatMap_singleton]

/-- The field may be asked before the terms are read. -/
theorem filter_groupPrefixTerms (hpaths : group.PathsAgree fst built)
    (hbuilt : includePositions → built) (field : SearchField) (front : List UInt8) :
    (groupPrefixTerms fst group front includePositions).filter (field.matchesPath ·.path) =
      (prefixOrdinals fst front field group.fstBytes).filterMap fun ordinal =>
        groupTermByOrdinal fst group ordinal includePositions := by
  rw [groupPrefixTerms, prefixOrdinals]
  cases hopen : fst.open? group.fstBytes fst.startsWith with
  | none =>
    cases fromUtf8 front with
    | none => rfl
    | some text => rfl
  | some startsWith =>
    cases fromUtf8 front with
    | none => rfl
    | some text =>
      have hstarts : startsWith = fst.startsWith group.fstBytes := by
        rw [FstMaps.open?] at hopen
        split at hopen
        · exact (Option.some.inj hopen).symm
        · cases hopen
      subst hstarts
      dsimp only
      rw [List.filterMap_map]
      apply filter_filterMap
      intro entry hentry term hterm
      rw [hpaths text entry hentry includePositions hbuilt term hterm]

/-- The terms of a token, group by group. -/
theorem valueTermsForToken_eq (hpaths : ∀ group ∈ index.termValueGroups, group.PathsAgree fst true)
    (request : TokenRequest) :
    index.valueTermsForToken fst request.field request.token request.includePositions =
      index.termValueGroups.flatMap (request.terms fst) := by
  obtain ⟨field, token, includePositions⟩ := request
  have hprefix (hfield : TokenRequest.terms fst ⟨field, token, includePositions⟩ = fun group =>
      if groupOverlapsPrefix group (termValuePrefix token) then
        (prefixOrdinals fst (termValuePrefix token) field group.fstBytes).filterMap fun ordinal =>
          groupTermByOrdinal fst group ordinal includePositions
      else []) :
      ((index.termValueGroups.filter (groupOverlapsPrefix · (termValuePrefix token))).flatMap
        fun group => groupPrefixTerms fst group (termValuePrefix token) includePositions).filter
          (fun term => field.matchesPath term.path) =
        index.termValueGroups.flatMap (TokenRequest.terms fst ⟨field, token, includePositions⟩) := by
    rw [hfield, flatMap_filter, filter_flatMap]
    apply List.flatMap_congr
    intro group hgroup
    split
    · exact filter_groupPrefixTerms (hpaths group hgroup) (fun _ => rfl) field _
    · rfl
  cases field with
  | all => exact hprefix rfl
  | pathPrefix front => exact hprefix rfl
  | exactPath path =>
    change ((index.termValueGroups.filter
      (groupMayContainExact · (termValueKey token path))).filterMap fun group =>
        groupExactTermRows fst group (termValueKey token path) includePositions) = _
    rw [List.filterMap_eq_flatMap_toList, flatMap_filter]
    apply List.flatMap_congr
    intro group _
    rw [groupExactTermRows_toList]
    rfl

theorem rowsOfTerms_flatMap (groups : List α) (f : α → List DecodedTerm) :
    groups.foldr (fun group rows => rowsOfTerms (f group) ∪ rows) ∅ =
      rowsOfTerms (groups.flatMap f) := by
  induction groups with
  | nil => rfl
  | cons group groups ih =>
    ext row
    rw [List.foldr_cons, ih, List.flatMap_cons, Finset.mem_union, mem_rowsOfTerms, mem_rowsOfTerms,
      mem_rowsOfTerms]
    simp only [List.mem_append, or_and_right, exists_or]

/-- The rows of a pattern, group by group. -/
theorem rowsForPathPattern_eq (hpaths : ∀ group ∈ index.termKeyGroups, group.PathsAgree fst false)
    (pattern : String) :
    index.rowsForPathPattern fst pattern =
      rowsOfTerms (index.termKeyGroups.flatMap (patternTerms fst (normalizeLikePattern pattern))) := by
  rw [SearchIndex.rowsForPathPattern]
  generalize normalizeLikePattern pattern = pattern
  split
  next hstar =>
    rw [SearchIndex.rowsForExactKey, List.filterMap_eq_flatMap_toList, flatMap_filter]
    congr 1
    apply List.flatMap_congr
    intro group _
    rw [groupExactTermRows_toList, patternTerms, patternMayBeIn, patternOrdinals, if_pos hstar,
      if_pos hstar]
    rfl
  next hstar =>
    cases hfront : simpleTrailingWildcardPrefix pattern with
    | some front =>
      dsimp only
      rw [SearchIndex.rowsForKeyPrefix, flatMap_filter]
      congr 1
      apply List.flatMap_congr
      intro group hgroup
      rw [patternTerms, patternMayBeIn, patternOrdinals, if_neg hstar, if_neg hstar, hfront]
      have hterms := filter_groupPrefixTerms (hpaths group hgroup)
        (fun h => absurd h Bool.false_ne_true) .all front.toUTF8.toList
      have hall : (groupPrefixTerms fst group front.toUTF8.toList false).filter
          (SearchField.all.matchesPath ·.path) =
            groupPrefixTerms fst group front.toUTF8.toList false :=
        List.filter_eq_self.2 fun _ _ => rfl
      rw [← hall, hterms]
      rfl
    | none =>
      dsimp only
      rw [← rowsOfTerms_flatMap]
      congr 1
      funext group rows
      rw [patternTerms, patternMayBeIn, patternOrdinals, if_neg hstar, if_neg hstar, hfront]
      dsimp only
      rw [if_pos rfl, groupPathPatternRows, matchingOrdinals]
      cases fst.open? group.fstBytes fst.stream with
      | none => rfl
      | some stream =>
        dsimp only
        rw [List.filterMap_map, List.filterMap_filter]
        congr 2
        apply List.filterMap_congr
        intro entry _
        cases fromUtf8 entry.1 with
        | none => rfl
        | some path => rfl

end lookups

/-! Parts of groups. -/

/-- A part of a group has its dictionary. What is covered is read as in the group, and the rest has
the paths of the group. -/
structure SearchRowGroup.IsPart (fst : FstMaps) (built : Bool) (group part : SearchRowGroup)
    (covered : Nat → Bool → Prop) : Prop where
  minTerm : part.minTerm = group.minTerm
  maxTerm : part.maxTerm = group.maxTerm
  fstBytes : part.fstBytes = group.fstBytes
  term (ordinal : Nat) (includePositions : Bool) (hbuilt : includePositions → built)
    (h : covered ordinal includePositions) :
    groupTermByOrdinal fst part ordinal includePositions =
      groupTermByOrdinal fst group ordinal includePositions
  path (ordinal : Nat) (includePositions : Bool) (hbuilt : includePositions → built) :
    (groupTermByOrdinal fst part ordinal includePositions).map DecodedTerm.path =
      (groupTermByOrdinal fst group ordinal includePositions).map DecodedTerm.path

/-- The groups of which there is a part, in their order. Of the others nothing is covered that is
there. -/
def PartsOf (fst : FstMaps) (built : Bool) (covered : Nat → Nat → Bool → Prop)
    (groups parts : List SearchRowGroup) : Prop :=
  ∃ partOf : Nat → Option SearchRowGroup, parts = groups.zipIdx.filterMap (fun entry => partOf entry.2) ∧
    ∀ index group, groups[index]? = some group →
      (partOf index = none → ∀ ordinal (includePositions : Bool), (includePositions → built) →
        covered index ordinal includePositions →
          groupTermByOrdinal fst group ordinal includePositions = none) ∧
      ∀ part, partOf index = some part → group.IsPart fst built part (covered index)

section parts

variable {fst : FstMaps} {built : Bool} {covered : Nat → Nat → Bool → Prop}
  {groups parts : List SearchRowGroup}

theorem SearchRowGroup.IsPart.pathsAgree {group part : SearchRowGroup} {covered : Nat → Bool → Prop}
    (h : group.IsPart fst built part covered) (hpaths : group.PathsAgree fst built) :
    part.PathsAgree fst built := by
  intro front entry hentry includePositions hbuilt term hterm
  have hpath := h.path entry.2 includePositions hbuilt
  rw [hterm, Option.map_some, eq_comm, Option.map_eq_some_iff] at hpath
  obtain ⟨term', hterm', heq⟩ := hpath
  rw [h.fstBytes] at hentry
  rw [← heq, hpaths front entry hentry includePositions hbuilt term' hterm']

theorem PartsOf.pathsAgree (h : PartsOf fst built covered groups parts)
    (hpaths : ∀ group ∈ groups, group.PathsAgree fst built) :
    ∀ part ∈ parts, part.PathsAgree fst built := by
  obtain ⟨partOf, rfl, hparts⟩ := h
  intro part hpart
  obtain ⟨⟨group, index⟩, hentry, heq⟩ := List.mem_filterMap.1 hpart
  have hget := List.mem_zipIdx_iff_getElem?.1 hentry
  exact ((hparts index group hget).2 part heq).pathsAgree (hpaths group (List.mem_of_getElem? hget))

/-- What is read group by group is read of the parts, if a part has it all and a group without one
has nothing of it. -/
theorem PartsOf.flatMap_eq {read : SearchRowGroup → List β}
    (h : PartsOf fst built covered groups parts)
    (hread : ∀ index group, groups[index]? = some group →
      ((∀ ordinal (includePositions : Bool), (includePositions → built) →
        covered index ordinal includePositions →
          groupTermByOrdinal fst group ordinal includePositions = none) → read group = []) ∧
      ∀ part, group.IsPart fst built part (covered index) → read part = read group) :
    parts.flatMap read = groups.flatMap read := by
  obtain ⟨partOf, rfl, hparts⟩ := h
  have hfst : groups.zipIdx.map Prod.fst = groups := List.zipIdx_map_fst 0 groups
  conv_rhs => rw [← hfst, List.flatMap_map]
  rw [List.filterMap_eq_flatMap_toList, List.flatMap_assoc]
  apply List.flatMap_congr
  rintro ⟨group, index⟩ hentry
  have hget := List.mem_zipIdx_iff_getElem?.1 hentry
  dsimp only at hget ⊢
  cases hpart : partOf index with
  | none => exact ((hread index group hget).1 ((hparts index group hget).1 hpart)).symm
  | some part =>
    rw [Option.toList_some, List.flatMap_singleton]
    exact (hread index group hget).2 part ((hparts index group hget).2 part hpart)

/-- All that a request finds is covered. -/
def CoversRequest (fst : FstMaps) (covered : Nat → Nat → Bool → Prop) (groups : List SearchRowGroup)
    (request : TokenRequest) : Prop :=
  ∀ index group, groups[index]? = some group → request.mayBeIn group.minTerm group.maxTerm →
    ∀ ordinal ∈ request.ordinals fst group.fstBytes, covered index ordinal request.includePositions

def CoversPattern (fst : FstMaps) (covered : Nat → Nat → Bool → Prop) (groups : List SearchRowGroup)
    (pattern : String) : Prop :=
  ∀ index group, groups[index]? = some group → patternMayBeIn pattern group.minTerm group.maxTerm →
    ∀ ordinal ∈ patternOrdinals fst pattern group.fstBytes, covered index ordinal false

theorem PartsOf.requestTerms_eq (h : PartsOf fst true covered groups parts) {request : TokenRequest}
    (hcovers : CoversRequest fst covered groups request) :
    parts.flatMap (request.terms fst) = groups.flatMap (request.terms fst) := by
  apply h.flatMap_eq
  intro index group hget
  constructor
  · intro hnone
    rw [TokenRequest.terms]
    split
    next hmay =>
      rw [List.filterMap_eq_nil_iff]
      exact fun ordinal hordinal =>
        hnone ordinal _ (fun _ => rfl) (hcovers index group hget hmay ordinal hordinal)
    · rfl
  · intro part hpart
    rw [TokenRequest.terms, TokenRequest.terms, hpart.minTerm, hpart.maxTerm, hpart.fstBytes]
    split
    next hmay =>
      apply List.filterMap_congr
      exact fun ordinal hordinal =>
        hpart.term ordinal _ (fun _ => rfl) (hcovers index group hget hmay ordinal hordinal)
    · rfl

theorem PartsOf.patternTerms_eq (h : PartsOf fst built covered groups parts) {pattern : String}
    (hcovers : CoversPattern fst covered groups pattern) :
    parts.flatMap (patternTerms fst pattern) = groups.flatMap (patternTerms fst pattern) := by
  have hfalse : false = true → built = true := fun h => absurd h Bool.false_ne_true
  apply h.flatMap_eq
  intro index group hget
  constructor
  · intro hnone
    rw [patternTerms]
    split
    next hmay =>
      rw [List.filterMap_eq_nil_iff]
      exact fun ordinal hordinal =>
        hnone ordinal _ hfalse (hcovers index group hget hmay ordinal hordinal)
    · rfl
  · intro part hpart
    rw [patternTerms, patternTerms, hpart.minTerm, hpart.maxTerm, hpart.fstBytes]
    split
    next hmay =>
      apply List.filterMap_congr
      exact fun ordinal hordinal =>
        hpart.term ordinal _ hfalse (hcovers index group hget hmay ordinal hordinal)
    · rfl

end parts

/-! Answers of parts. -/

section answers

variable {fst : FstMaps} {index part : SearchIndex}

/-- The part finds what the index finds. -/
structure SearchIndex.AnswersAlike (fst : FstMaps) (index part : SearchIndex)
    (requests : List TokenRequest) (patterns : List String) : Prop where
  rowCount : part.rowCount = index.rowCount
  request : ∀ request ∈ requests,
    part.valueTermsForToken fst request.field request.token request.includePositions =
      index.valueTermsForToken fst request.field request.token request.includePositions
  pattern : ∀ pattern ∈ patterns, ∀ text, normalizeLikePattern text = pattern →
    part.rowsForPathPattern fst text = index.rowsForPathPattern fst text

theorem rowsForQuery_alike {field : SearchField} {query : SearchQuery}
    (h : ∀ request ∈ query.requests field,
      part.valueTermsForToken fst request.field request.token request.includePositions =
        index.valueTermsForToken fst request.field request.token request.includePositions) :
    part.rowsForQuery fst field query = index.rowsForQuery fst field query := by
  rw [SearchQuery.requests, List.forall_mem_append, List.forall_mem_map, List.forall_mem_flatMap] at h
  obtain ⟨hterms, hphrases⟩ := h
  have hterm : query.terms.map (part.rowsForTerm fst field) =
      query.terms.map (index.rowsForTerm fst field) := by
    apply List.map_congr_left
    exact fun term hterm => congrArg rowsOfTerms (hterms term hterm)
  have hphrase : query.phrases.map (part.rowsForPhrase fst field) =
      query.phrases.map (index.rowsForPhrase fst field) := by
    apply List.map_congr_left
    intro phrase hphrase
    have hrequests := List.forall_mem_map.1 (hphrases phrase hphrase)
    cases phrase with
    | nil => rfl
    | cons first rest =>
      cases rest with
      | nil => exact congrArg rowsOfTerms (hrequests first List.mem_cons_self)
      | cons second rest =>
        have hpositions : decide (1 < (first :: second :: rest).length) = true := by simp
        rw [hpositions] at hrequests
        exact congrArg SearchIndex.rowsForTokens (List.map_congr_left hrequests)
  rw [SearchIndex.rowsForQuery, SearchIndex.rowsForQuery, hterm, hphrase]

theorem SearchIndex.AnswersAlike.allRows {requests : List TokenRequest} {patterns : List String}
    (h : index.AnswersAlike fst part requests patterns) : part.allRows = index.allRows := by
  rw [SearchIndex.allRows, SearchIndex.allRows, h.rowCount]

theorem SearchIndex.AnswersAlike.cons {child : SearchPredicate} {children : List SearchPredicate}
    (h : index.AnswersAlike fst part (SearchPredicate.requestsOf (child :: children))
      (SearchPredicate.patternsOf (child :: children))) :
    index.AnswersAlike fst part child.requests child.patterns ∧
      index.AnswersAlike fst part (SearchPredicate.requestsOf children)
        (SearchPredicate.patternsOf children) := by
  obtain ⟨hrowCount, hrequest, hpattern⟩ := h
  rw [SearchPredicate.requestsOf, List.forall_mem_append] at hrequest
  rw [SearchPredicate.patternsOf, List.forall_mem_append] at hpattern
  exact ⟨⟨hrowCount, hrequest.1, hpattern.1⟩, hrowCount, hrequest.2, hpattern.2⟩

mutual

/-- The part finds the rows of a predicate if it finds all that the predicate looks up. -/
theorem matchingRows_alike :
    ∀ predicate : SearchPredicate,
      index.AnswersAlike fst part predicate.requests predicate.patterns →
        part.matchingRows fst predicate = index.matchingRows fst predicate
  | .and children, h => by
    rw [SearchIndex.matchingRows, SearchIndex.matchingRows]
    exact matchingAll_alike children h
  | .or children, h => by
    rw [SearchIndex.matchingRows, SearchIndex.matchingRows]
    exact matchingAny_alike children h
  | .not child, h => by
    rw [SearchIndex.matchingRows, SearchIndex.matchingRows, matchingRows_alike child h, h.allRows]
  | .text field query, h => by
    rw [SearchIndex.matchingRows, SearchIndex.matchingRows]
    exact rowsForQuery_alike h.request
  | .exactValue field value, h => by
    rw [SearchIndex.matchingRows, SearchIndex.matchingRows]
    exact congrArg rowsOfTerms
      (h.request ⟨field, exactValueToken value, false⟩ (List.mem_singleton_self _))
  | .jsonKey pattern, h => by
    rw [SearchIndex.matchingRows, SearchIndex.matchingRows]
    exact h.pattern _ (List.mem_singleton_self _) pattern rfl

theorem matchingAll_alike :
    ∀ children : List SearchPredicate,
      index.AnswersAlike fst part (SearchPredicate.requestsOf children)
        (SearchPredicate.patternsOf children) →
          part.matchingAll fst children = index.matchingAll fst children
  | [], h => by rw [SearchIndex.matchingAll, SearchIndex.matchingAll, h.allRows]
  | child :: children, h => by
    rw [SearchIndex.matchingAll, SearchIndex.matchingAll, matchingRows_alike child h.cons.1]
    exact matchingRest_alike children _ h.cons.2

theorem matchingRest_alike :
    ∀ (children : List SearchPredicate) (rows : Finset UInt32),
      index.AnswersAlike fst part (SearchPredicate.requestsOf children)
        (SearchPredicate.patternsOf children) →
          part.matchingRest fst rows children = index.matchingRest fst rows children
  | [], _, _ => by rw [SearchIndex.matchingRest, SearchIndex.matchingRest]
  | child :: children, _, h => by
    rw [SearchIndex.matchingRest, SearchIndex.matchingRest, matchingRows_alike child h.cons.1]
    exact matchingRest_alike children _ h.cons.2

theorem matchingAny_alike :
    ∀ children : List SearchPredicate,
      index.AnswersAlike fst part (SearchPredicate.requestsOf children)
        (SearchPredicate.patternsOf children) →
          part.matchingAny fst children = index.matchingAny fst children
  | [], _ => by rw [SearchIndex.matchingAny, SearchIndex.matchingAny]
  | child :: children, h => by
    rw [SearchIndex.matchingAny, SearchIndex.matchingAny, matchingRows_alike child h.cons.1,
      matchingAny_alike children h.cons.2]

end

/-- Parts of an index that cover what a predicate looks up find its rows. -/
theorem matchingRows_parts {coveredKeys coveredValues : Nat → Nat → Bool → Prop}
    (hkeyPaths : ∀ group ∈ index.termKeyGroups, group.PathsAgree fst false)
    (hvaluePaths : ∀ group ∈ index.termValueGroups, group.PathsAgree fst true)
    (hrowCount : part.rowCount = index.rowCount)
    (hkeys : PartsOf fst false coveredKeys index.termKeyGroups part.termKeyGroups)
    (hvalues : PartsOf fst true coveredValues index.termValueGroups part.termValueGroups)
    (predicate : SearchPredicate)
    (hpatterns : ∀ pattern ∈ predicate.patterns,
      CoversPattern fst coveredKeys index.termKeyGroups pattern)
    (hrequests : ∀ request ∈ predicate.requests,
      CoversRequest fst coveredValues index.termValueGroups request) :
    part.matchingRows fst predicate = index.matchingRows fst predicate := by
  apply matchingRows_alike predicate
  refine ⟨hrowCount, ?_, ?_⟩
  · intro request hrequest
    rw [valueTermsForToken_eq hvaluePaths, valueTermsForToken_eq (hvalues.pathsAgree hvaluePaths),
      hvalues.requestTerms_eq (hrequests request hrequest)]
  · rintro _ hpattern text rfl
    rw [rowsForPathPattern_eq hkeyPaths, rowsForPathPattern_eq (hkeys.pathsAgree hkeyPaths),
      hkeys.patternTerms_eq (hpatterns _ hpattern)]

end answers

end KevinDb
