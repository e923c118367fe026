import KevinDb.Search.Occurrences
import KevinDb.Search.Tokens

namespace KevinDb
set_option autoImplicit true
open Std

/-! Terms of values. -/

theorem termValuePrefix_eq (token : String) :
    termValuePrefix token = utf8Bytes (token.toList ++ [Char.ofNat 0]) := by
  rw [termValuePrefix, toList_toUTF8, utf8Bytes_append]
  rfl

theorem termValueKey_eq (token path : String) :
    termValueKey token path = utf8Bytes token.toList ++ keyValueSeparator :: utf8Bytes path.toList := by
  rw [termValueKey, termValuePrefix, toList_toUTF8, toList_toUTF8, List.append_assoc,
    List.singleton_append]

theorem PlainToken.not_mem {token : String} (h : PlainToken token) :
    keyValueSeparator ∉ utf8Bytes token.toList := zero_mem_utf8Bytes.not.2 h

theorem termValueKey_inj {token token' path path' : String} (h : PlainToken token)
    (h' : PlainToken token') :
    termValueKey token path = termValueKey token' path' ↔ token = token' ∧ path = path' := by
  rw [termValueKey_eq, termValueKey_eq]
  constructor
  · intro heq
    obtain ⟨htoken, hpath⟩ := append_cons_inj_left h.not_mem h'.not_mem heq
    exact ⟨String.toList_inj.1 (utf8Bytes_injective htoken),
      String.toList_inj.1 (utf8Bytes_injective hpath)⟩
  · rintro ⟨rfl, rfl⟩
    rfl

theorem termPath_termValueKey {token : String} (h : PlainToken token) (path : String) :
    termPath (termValueKey token path) = path := by
  have hmem : keyValueSeparator ∈ termValueKey token path := by
    rw [termValueKey_eq]
    exact List.mem_append_right _ List.mem_cons_self
  have hdrop : (termValueKey token path).dropWhile (· ≠ keyValueSeparator) =
      keyValueSeparator :: utf8Bytes path.toList := by
    rw [termValueKey_eq, List.dropWhile_append_of_pos]
    · simp
    · intro byte hbyte
      have hne : byte ≠ keyValueSeparator := by
        rintro rfl
        exact h.not_mem hbyte
      exact decide_eq_true hne
  rw [termPath, if_pos hmem, hdrop, List.tail_cons, fromUtf8Lossy_utf8Bytes, String.ofList_toList]

theorem termValuePrefix_prefix {token token' : String} (h : PlainToken token)
    (h' : PlainToken token') (path : String) :
    termValuePrefix token <+: termValueKey token' path ↔ token = token' := by
  constructor
  · rintro ⟨back, hback⟩
    rw [termValuePrefix, toList_toUTF8, termValueKey_eq, List.append_assoc,
      List.singleton_append] at hback
    obtain ⟨htoken, -⟩ := append_cons_inj_left h.not_mem h'.not_mem hback
    exact String.toList_inj.1 (utf8Bytes_injective htoken)
  · rintro rfl
    exact List.prefix_append _ _

/-! What additions say of a row. -/

/-- No token of an addition has a separator. -/
def PlainAdditions (additions : List SearchAddition) : Prop :=
  ∀ row path token position, .valuePosition row path token position ∈ additions → PlainToken token

def HasToken (additions : List SearchAddition) (row : UInt32) (field : SearchField)
    (token : String) : Prop :=
  ∃ path position, .valuePosition row path token position ∈ additions ∧ field.matchesPath path

/-- The tokens come one behind the other at a path. -/
def HasTokens (additions : List SearchAddition) (row : UInt32) (field : SearchField)
    (phrase : List String) : Prop :=
  ∃ path, field.matchesPath path ∧ ∃ position, ∀ entry ∈ phrase.zipIdx,
    .valuePosition row path entry.1 (position + UInt32.ofNat entry.2) ∈ additions

def HasPhrase (additions : List SearchAddition) (row : UInt32) (field : SearchField)
    (phrase : List String) : Prop :=
  phrase ≠ [] ∧ HasTokens additions row field phrase

def HasPath (additions : List SearchAddition) (row : UInt32) (pattern : String) : Prop :=
  ∃ path, .path row path ∈ additions ∧
    pathMatchesPattern path (normalizeLikePattern pattern)

section values

variable {fst : FstMaps} {pairs : fst.Builder → List (List UInt8 × Nat)} {index : SearchIndex}
  {additions : List SearchAddition} {entries : List TermEntry} {includePositions : Bool}

theorem mem_additionValues (hplain : PlainAdditions additions) {token : String}
    (htoken : PlainToken token) {path : String} {row position : UInt32} :
    (termValueKey token path, row, position) ∈ additions.filterMap additionValue? ↔
      .valuePosition row path token position ∈ additions := by
  rw [List.mem_filterMap]
  constructor
  · rintro ⟨addition, haddition, hvalue⟩
    cases addition with
    | path row path => cases hvalue
    | valuePosition row' path' token' position' =>
      rw [additionValue?, Option.some.injEq, Prod.mk.injEq, Prod.mk.injEq,
        termValueKey_inj (hplain _ _ _ _ haddition) htoken] at hvalue
      obtain ⟨⟨rfl, rfl⟩, rfl, rfl⟩ := hvalue
      exact haddition
  · intro h
    exact ⟨_, h, rfl⟩

/-- What the groups of the values hold. -/
structure HoldsValues (fst : FstMaps) (index : SearchIndex) (additions : List SearchAddition)
    (entries : List TermEntry) : Prop where
  holds : GroupsHold fst true index.termValueGroups entries
  mem_iff : ∀ term row position, (∃ entry ∈ entries, entry.term = term ∧ row ∈ entry.rows ∧
    position ∈ positionsOf entry.positionsByRow row) ↔
      (term, row, position) ∈ additions.filterMap additionValue?
  nonempty : ∀ entry ∈ entries, entry.rows ≠ [] ∧
    ∀ row ∈ entry.rows, positionsOf entry.positionsByRow row ≠ []

/-- The term of an entry is that of an addition. -/
theorem HoldsValues.exists_key (h : HoldsValues fst index additions entries) {entry : TermEntry}
    (hentry : entry ∈ entries) :
    ∃ row path token position, .valuePosition row path token position ∈ additions ∧
      entry.term = termValueKey token path := by
  obtain ⟨hrows, hpositions⟩ := h.nonempty entry hentry
  obtain ⟨row, hrow⟩ := List.exists_mem_of_ne_nil _ hrows
  obtain ⟨position, hposition⟩ := List.exists_mem_of_ne_nil _ (hpositions row hrow)
  obtain ⟨addition, haddition, hvalue⟩ := List.mem_filterMap.1
    ((h.mem_iff entry.term row position).1 ⟨entry, hentry, rfl, hrow, hposition⟩)
  cases addition with
  | path row path => cases hvalue
  | valuePosition row path token position =>
    rw [additionValue?, Option.some.injEq, Prod.mk.injEq] at hvalue
    exact ⟨row, path, token, position, haddition, hvalue.1.symm⟩

/-- The terms of a token at the paths of a field. -/
theorem mem_valueTermsForToken (hfst : fst.Keeps pairs) (hplain : PlainAdditions additions)
    (h : HoldsValues fst index additions entries) (field : SearchField) {token : String}
    (htoken : PlainToken token) {term : DecodedTerm} :
    term ∈ index.valueTermsForToken fst field token includePositions ↔
      ∃ entry ∈ entries, ∃ path, entry.term = termValueKey token path ∧ field.matchesPath path ∧
        term = entry.decoded includePositions := by
  -- Where a prefix is looked for, the terms that begin with the token are those of the token.
  have hprefix (hfield : index.valueTermsForToken fst field token includePositions =
      ((index.termValueGroups.filter (groupOverlapsPrefix · (termValuePrefix token))).flatMap
        fun group => groupPrefixTerms fst group (termValuePrefix token) includePositions).filter
          fun term => field.matchesPath term.path) :
      term ∈ index.valueTermsForToken fst field token includePositions ↔
        ∃ entry ∈ entries, ∃ path, entry.term = termValueKey token path ∧
          field.matchesPath path ∧ term = entry.decoded includePositions := by
    rw [hfield, termValuePrefix_eq, prefixTerms_eq hfst h.holds (fun _ => rfl),
      ← termValuePrefix_eq]
    simp only [List.mem_filter, List.mem_map, List.isPrefixOf_iff_prefix]
    constructor
    · rintro ⟨⟨entry, ⟨hentry, hfront⟩, rfl⟩, hmatches⟩
      obtain ⟨_, path, token', _, haddition, hterm⟩ := h.exists_key hentry
      have htoken' := hplain _ _ _ _ haddition
      rw [hterm, termValuePrefix_prefix htoken htoken'] at hfront
      subst hfront
      have hpath : (entry.decoded includePositions).path = path := by
        rw [TermEntry.decoded, hterm, termPath_termValueKey htoken]
      exact ⟨entry, hentry, path, hterm, hpath ▸ hmatches, rfl⟩
    · rintro ⟨entry, hentry, path, hterm, hmatches, rfl⟩
      have hpath : (entry.decoded includePositions).path = path := by
        rw [TermEntry.decoded, hterm, termPath_termValueKey htoken]
      exact ⟨⟨entry, ⟨hentry, hterm ▸ ( termValuePrefix_prefix htoken htoken path).2 rfl⟩, rfl⟩,
        hpath ▸ hmatches⟩
  cases field with
  | all => exact hprefix rfl
  | pathPrefix front => exact hprefix rfl
  | exactPath expected =>
    rw [SearchIndex.valueTermsForToken, exactTerms_eq hfst h.holds (fun _ => rfl)]
    simp only [List.mem_map, List.mem_filter, decide_eq_true_eq, SearchField.matchesPath]
    constructor
    · rintro ⟨entry, ⟨hentry, hterm⟩, rfl⟩
      exact ⟨entry, hentry, expected, hterm, rfl, rfl⟩
    · rintro ⟨entry, hentry, _, hterm, rfl, rfl⟩
      exact ⟨entry, ⟨hentry, hterm⟩, rfl⟩

/-- The rows of the terms of a token. -/
theorem mem_rowsOfTerms_token (hfst : fst.Keeps pairs) (hplain : PlainAdditions additions)
    (h : HoldsValues fst index additions entries) (field : SearchField) {token : String}
    (htoken : PlainToken token) (row : UInt32) :
    row ∈ rowsOfTerms (index.valueTermsForToken fst field token false) ↔
      HasToken additions row field token := by
  simp only [mem_rowsOfTerms, mem_valueTermsForToken hfst hplain h field htoken]
  constructor
  · rintro ⟨_, ⟨entry, hentry, path, hterm, hmatches, rfl⟩, hrow⟩
    have hrow : row ∈ entry.rows := List.mem_toFinset.1 hrow
    obtain ⟨position, hposition⟩ := List.exists_mem_of_ne_nil _ ((h.nonempty entry hentry).2 row hrow)
    exact ⟨path, position, (mem_additionValues hplain htoken).1
      ((h.mem_iff _ _ _).1 ⟨entry, hentry, hterm, hrow, hposition⟩), hmatches⟩
  · rintro ⟨path, position, haddition, hmatches⟩
    obtain ⟨entry, hentry, hterm, hrow, -⟩ :=
      (h.mem_iff _ _ _).2 ((mem_additionValues hplain htoken).2 haddition)
    exact ⟨_, ⟨entry, hentry, path, hterm, hmatches, rfl⟩, List.mem_toFinset.2 hrow⟩

/-! Phrases. -/

/-- The positions of terms at a path of a row. -/
theorem mem_positionsByRowPath (terms : List DecodedTerm) (rowPath : RowPath) (position : UInt32) :
    position ∈ (positionsByRowPath terms)[rowPath]?.getD ∅ ↔ ∃ term ∈ terms, term.path = rowPath.2 ∧
      ∃ positions, term.positionsByRow[rowPath.1]? = some positions ∧ position ∈ positions := by
  obtain ⟨row, path⟩ := rowPath
  -- The inner loop, over the rows of one term.
  have hrows (path' : String) (rows : List (UInt32 × List UInt32))
      (table : Table RowPath (Finset UInt32)) :
      position ∈ (rows.foldl (fun positions entry => positions.insert (entry.1, path')
        ((positions[(entry.1, path')]?.getD ∅) ∪ entry.2.toFinset)) table)[(row, path)]?.getD ∅ ↔
          position ∈ table[(row, path)]?.getD ∅ ∨
            (path' = path ∧ ∃ positions, (row, positions) ∈ rows ∧ position ∈ positions) := by
    induction rows generalizing table with
    | nil => simp
    | cons entry rows ih =>
      obtain ⟨row', positions'⟩ := entry
      rw [List.foldl_cons, ih, Table.get_insert]
      by_cases hsame : (row', path') = (row, path)
      · obtain ⟨rfl, rfl⟩ := Prod.mk.inj hsame
        rw [if_pos rfl, Option.getD_some, Finset.mem_union, List.mem_toFinset]
        simp only [List.mem_cons, Prod.mk.injEq, true_and]
        constructor
        · rintro ((hold | hnew) | ⟨positions, hpositions, hposition⟩)
          · exact Or.inl hold
          · exact Or.inr ⟨positions', Or.inl rfl, hnew⟩
          · exact Or.inr ⟨positions, Or.inr hpositions, hposition⟩
        · rintro (hold | ⟨positions, rfl | hpositions, hposition⟩)
          · exact Or.inl (Or.inl hold)
          · exact Or.inl (Or.inr hposition)
          · exact Or.inr ⟨positions, hpositions, hposition⟩
      · rw [if_neg hsame]
        apply or_congr_right
        apply and_congr_right
        intro hpath
        have hrow : row ≠ row' := fun hrow => hsame (Prod.ext hrow.symm hpath)
        simp only [List.mem_cons, Prod.mk.injEq, hrow, false_and, false_or]
  have hterms (table : Table RowPath (Finset UInt32)) :
      position ∈ (terms.foldl (fun positions term => term.positionsByRow.foldl
        (fun positions row rowPositions => positions.insert (row, term.path)
          ((positions[(row, term.path)]?.getD ∅) ∪ rowPositions.toFinset)) positions)
            table)[(row, path)]?.getD ∅ ↔ position ∈ table[(row, path)]?.getD ∅ ∨
              ∃ term ∈ terms, term.path = path ∧ ∃ positions,
                term.positionsByRow[row]? = some positions ∧ position ∈ positions := by
    induction terms generalizing table with
    | nil => simp
    | cons term terms ih =>
      rw [List.foldl_cons, ih, TreeMap.foldl_eq_foldl_toList, hrows, List.exists_mem_cons_iff,
        or_assoc]
      simp only [TreeMap.mem_toList_iff_getElem?_eq_some]
  rw [positionsByRowPath, hterms]
  simp

theorem phraseFollows_iff {others : List (List DecodedTerm)} {rowPath : RowPath}
    {position : UInt32} : phraseFollows (others.map positionsByRowPath) rowPath position ↔
      ∀ entry ∈ others.zipIdx 1,
        position + UInt32.ofNat entry.2 ∈ (positionsByRowPath entry.1)[rowPath]?.getD ∅ := by
  rw [phraseFollows, List.zipIdx_map, List.all_eq_true, List.forall_mem_map]
  apply forall₂_congr
  rintro ⟨terms, offset⟩ _
  dsimp only [Prod.map_apply, id]
  cases (positionsByRowPath terms)[rowPath]? with
  | none => simp
  | some positions => exact decide_eq_true_iff

/-- The rows where the terms come one behind the other. -/
theorem mem_rowsForTokens {perTerm : List (List DecodedTerm)} {row : UInt32} :
    row ∈ SearchIndex.rowsForTokens perTerm ↔ perTerm ≠ [] ∧ ∃ path position,
      ∀ entry ∈ perTerm.zipIdx, position + UInt32.ofNat entry.2 ∈
        (positionsByRowPath entry.1)[((row, path) : RowPath)]?.getD ∅ := by
  have hempty : perTerm.any List.isEmpty → ¬ ∃ path position, ∀ entry ∈ perTerm.zipIdx,
      position + UInt32.ofNat entry.2 ∈
        (positionsByRowPath entry.1)[((row, path) : RowPath)]?.getD ∅ := by
    intro hany
    obtain ⟨terms, hterms, hnil⟩ := List.any_eq_true.1 hany
    obtain ⟨i, hget⟩ := List.getElem?_of_mem hterms
    rintro ⟨path, position, hall⟩
    have hmem := hall (terms, i) (List.mem_zipIdx_iff_getElem?.2 hget)
    rw [List.isEmpty_iff.1 hnil] at hmem
    exact absurd hmem (by simp [positionsByRowPath])
  rw [SearchIndex.rowsForTokens]
  split
  next hany => exact iff_of_false (Finset.notMem_empty _) fun h => hempty hany h.2
  next =>
    cases perTerm with
    | nil => simp
    | cons first others =>
      simp only [List.map_cons, List.mem_toFinset, List.mem_map, List.mem_filter,
        decide_eq_true_eq, List.zipIdx_cons, List.forall_mem_cons, Nat.zero_add, ne_eq,
        reduceCtorEq, not_false_eq_true, true_and, phraseFollows_iff]
      constructor
      · rintro ⟨⟨⟨row, path⟩, positions⟩, ⟨hget, position, hposition, hfollows⟩, rfl⟩
        have hget := TreeMap.mem_toList_iff_getElem?_eq_some.1 hget
        refine ⟨path, position, ?_, hfollows⟩
        rw [hget, Option.getD_some]
        change position + 0 ∈ positions
        rwa [UInt32.add_zero]
      · rintro ⟨path, position, hfirst, hfollows⟩
        change position + 0 ∈ _ at hfirst
        rw [UInt32.add_zero] at hfirst
        cases hget : (positionsByRowPath first)[((row, path) : RowPath)]? with
        | none =>
          rw [hget] at hfirst
          cases hfirst
        | some positions =>
          rw [hget] at hfirst
          exact ⟨((row, path), positions), ⟨TreeMap.mem_toList_iff_getElem?_eq_some.2 hget,
            position, hfirst, hfollows⟩, rfl⟩

/-- The positions of a token at a path of a row. -/
theorem mem_tokenPositions (hfst : fst.Keeps pairs) (hplain : PlainAdditions additions)
    (h : HoldsValues fst index additions entries) (field : SearchField) {token : String}
    (htoken : PlainToken token) (row : UInt32) (path : String) (position : UInt32) :
    position ∈ (positionsByRowPath (index.valueTermsForToken fst field token true))[
      ((row, path) : RowPath)]?.getD ∅ ↔
        field.matchesPath path ∧ .valuePosition row path token position ∈ additions := by
  rw [mem_positionsByRowPath]
  simp only [mem_valueTermsForToken hfst hplain h field htoken]
  constructor
  · rintro ⟨_, ⟨entry, hentry, path', hterm, hmatches, rfl⟩, hpath, positions, hget, hposition⟩
    have hpath : path' = path := by
      rwa [TermEntry.decoded, hterm, termPath_termValueKey htoken] at hpath
    subst hpath
    rw [TermEntry.decoded, if_pos rfl, get_insertPositions] at hget
    split at hget
    next hrow =>
      cases hget
      exact ⟨hmatches, (mem_additionValues hplain htoken).1
        ((h.mem_iff _ _ _).1 ⟨entry, hentry, hterm, hrow, hposition⟩)⟩
    · simp at hget
  · rintro ⟨hmatches, haddition⟩
    obtain ⟨entry, hentry, hterm, hrow, hposition⟩ :=
      (h.mem_iff _ _ _).2 ((mem_additionValues hplain htoken).2 haddition)
    refine ⟨_, ⟨entry, hentry, path, hterm, hmatches, rfl⟩, ?_, _, ?_, hposition⟩
    · rw [TermEntry.decoded, hterm, termPath_termValueKey htoken]
    · rw [TermEntry.decoded, if_pos rfl, get_insertPositions, if_pos hrow]

theorem mem_rowsForPhrase (hfst : fst.Keeps pairs) (hplain : PlainAdditions additions)
    (h : HoldsValues fst index additions entries) (field : SearchField) {phrase : List String}
    (hphrase : ∀ token ∈ phrase, PlainToken token) (row : UInt32) :
    row ∈ index.rowsForPhrase fst field phrase ↔ HasPhrase additions row field phrase := by
  have htokens : row ∈ SearchIndex.rowsForTokens
      (phrase.map fun token => index.valueTermsForToken fst field token true) ↔
        HasPhrase additions row field phrase := by
    have hzip : (phrase.map fun token => index.valueTermsForToken fst field token true).zipIdx =
        phrase.zipIdx.map (Prod.map (fun token => index.valueTermsForToken fst field token true)
          id) := List.zipIdx_map
    rw [mem_rowsForTokens, hzip, HasPhrase, HasTokens]
    simp only [ne_eq, List.map_eq_nil_iff, List.forall_mem_map, Prod.map_fst, Prod.map_snd, id]
    apply and_congr_right
    intro hne
    have hentry (path : String) (position : UInt32) (entry : String × Nat)
        (hin : entry ∈ phrase.zipIdx) := mem_tokenPositions hfst hplain h field
      (hphrase entry.1 (List.mem_of_getElem? (List.mem_zipIdx_iff_getElem?.1 hin))) row path
        (position + UInt32.ofNat entry.2)
    constructor
    · rintro ⟨path, position, hall⟩
      have hadditions (entry) (hin : entry ∈ phrase.zipIdx) :=
        (hentry path position entry hin).1 (hall entry hin)
      obtain ⟨first, rest, rfl⟩ := List.exists_cons_of_ne_nil hne
      exact ⟨path, (hadditions (first, 0) List.mem_cons_self).1, position,
        fun entry hin => (hadditions entry hin).2⟩
    · rintro ⟨path, hmatches, position, hall⟩
      exact ⟨path, position, fun entry hin =>
        (hentry path position entry hin).2 ⟨hmatches, hall entry hin⟩⟩
  match phrase with
  | [] => simp [SearchIndex.rowsForPhrase, HasPhrase]
  | [token] =>
    have htoken := hphrase token (List.mem_singleton_self _)
    have hzero (position : UInt32) : position + UInt32.ofNat 0 = position :=
      UInt32.add_zero position
    rw [SearchIndex.rowsForPhrase, SearchIndex.rowsForTerm,
      mem_rowsOfTerms_token hfst hplain h field htoken, HasToken, HasPhrase, HasTokens]
    simp only [List.zipIdx_cons, List.zipIdx_nil, List.forall_mem_singleton, ne_eq,
      List.cons_ne_nil, not_false_eq_true, true_and]
    constructor
    · rintro ⟨path, position, haddition, hmatches⟩
      refine ⟨path, hmatches, position, ?_⟩
      rwa [hzero]
    · rintro ⟨path, hmatches, position, haddition⟩
      rw [hzero] at haddition
      exact ⟨path, position, haddition, hmatches⟩
  | first :: second :: rest => exact htokens

/-! Queries. -/

/-- The terms and the phrases of a query have no separator. -/
def SearchQuery.Plain (query : SearchQuery) : Prop :=
  (∀ term ∈ query.terms, PlainToken term) ∧ ∀ phrase ∈ query.phrases, ∀ token ∈ phrase,
    PlainToken token

theorem SearchQuery.Words.plain {query : SearchQuery} (h : query.Words) : query.Plain :=
  ⟨fun term hterm => (h.terms term hterm).plain,
    fun phrase hphrase token htoken => ((h.phrases phrase hphrase).2 token htoken).plain⟩

/-- A query that is not empty asks for all its terms and all its phrases. -/
def HasQuery (additions : List SearchAddition) (row : UInt32) (field : SearchField)
    (query : SearchQuery) : Prop :=
  query.isEmpty = false ∧ (∀ term ∈ query.terms, HasToken additions row field term) ∧
    ∀ phrase ∈ query.phrases, HasPhrase additions row field phrase

theorem mem_foldl_inter {rows : Finset UInt32} {required : List (Finset UInt32)} {row : UInt32} :
    row ∈ required.foldl (· ∩ ·) rows ↔ row ∈ rows ∧ ∀ other ∈ required, row ∈ other := by
  induction required generalizing rows with
  | nil => simp
  | cons first required ih =>
    rw [List.foldl_cons, ih, Finset.mem_inter, List.forall_mem_cons, and_assoc]

theorem mem_rowsForQuery (hfst : fst.Keeps pairs) (hplain : PlainAdditions additions)
    (h : HoldsValues fst index additions entries) (field : SearchField) {query : SearchQuery}
    (hquery : query.Plain) (row : UInt32) :
    row ∈ index.rowsForQuery fst field query ↔ HasQuery additions row field query := by
  have hall : (∀ rows ∈ query.terms.map (index.rowsForTerm fst field) ++
      query.phrases.map (index.rowsForPhrase fst field), row ∈ rows) ↔
        (∀ term ∈ query.terms, HasToken additions row field term) ∧
          ∀ phrase ∈ query.phrases, HasPhrase additions row field phrase := by
    rw [List.forall_mem_append, List.forall_mem_map, List.forall_mem_map]
    apply and_congr
    · apply forall₂_congr
      intro term hterm
      exact mem_rowsOfTerms_token hfst hplain h field (hquery.1 term hterm) row
    · apply forall₂_congr
      intro phrase hphrase
      exact mem_rowsForPhrase hfst hplain h field (hquery.2 phrase hphrase) row
  rw [SearchIndex.rowsForQuery, HasQuery, ← hall]
  cases hempty : query.isEmpty with
  | true => simp
  | false =>
    rw [if_neg Bool.false_ne_true, and_iff_right rfl]
    cases hrows : query.terms.map (index.rowsForTerm fst field) ++
        query.phrases.map (index.rowsForPhrase fst field) with
    | nil =>
      rw [List.append_eq_nil_iff, List.map_eq_nil_iff, List.map_eq_nil_iff] at hrows
      rw [SearchQuery.isEmpty, hrows.1, hrows.2] at hempty
      cases hempty
    | cons rows required => rw [mem_foldl_inter, List.forall_mem_cons]

end values

/-! Paths. -/

theorem pathMatchesPattern_exact {path pattern : String} (h : '*' ∉ pattern.toList) :
    pathMatchesPattern path pattern ↔ path = pattern := by
  rw [pathMatchesPattern, if_pos h, decide_eq_true_iff]

/-- A star at the end only takes what begins with the text before it. -/
theorem pathMatchesPattern_trailing {path pattern front : String}
    (h : simpleTrailingWildcardPrefix pattern = some front) :
    pathMatchesPattern path pattern ↔ front.toList <+: path.toList := by
  obtain ⟨hpattern, hfront⟩ := simpleTrailingWildcardPrefix_eq_some.1 h
  have hmem : '*' ∈ pattern.toList := by simp [hpattern]
  have hsplit : pattern.toList.splitOn '*' = front.toList :: [[]] := by
    rw [hpattern, List.splitOn_append_cons_self_of_not_mem hfront]
    rfl
  rw [pathMatchesPattern, if_neg (not_not_intro hmem), remainingBehind_splitOn hsplit hmem]
  have hlast : pattern.toList.getLast? = some '*' := by rw [hpattern, List.getLast?_concat]
  have hnone : behindAll ([[]].filter fun part : List Char => decide (part ≠ [])) = some := rfl
  rw [hnone, Option.bind_fun_some]
  cases hstrip : stripPrefix front.toList path.toList with
  | none =>
    refine iff_of_false Bool.false_ne_true ?_
    rintro ⟨back, hback⟩
    rw [stripPrefix_eq_some.2 hback.symm] at hstrip
    cases hstrip
  | some back => exact iff_of_true (by simp [hlast]) ⟨back, (stripPrefix_eq_some.1 hstrip).symm⟩

section paths

variable {fst : FstMaps} {pairs : fst.Builder → List (List UInt8 × Nat)} {index : SearchIndex}
  {additions : List SearchAddition}

theorem mem_rowsOfTerms_decoded {entries : List TermEntry} {p : TermEntry → Bool}
    {includePositions : Bool} {row : UInt32} :
    row ∈ rowsOfTerms ((entries.filter p).map (TermEntry.decoded includePositions)) ↔
      ∃ entry ∈ entries, p entry ∧ row ∈ entry.rows := by
  rw [mem_rowsOfTerms]
  constructor
  · rintro ⟨_, hterm, hrow⟩
    obtain ⟨entry, hentry, rfl⟩ := List.mem_map.1 hterm
    obtain ⟨hin, hp⟩ := List.mem_filter.1 hentry
    exact ⟨entry, hin, hp, List.mem_toFinset.1 hrow⟩
  · rintro ⟨entry, hentry, hp, hrow⟩
    exact ⟨_, List.mem_map_of_mem (List.mem_filter.2 ⟨hentry, hp⟩), List.mem_toFinset.2 hrow⟩

/-- Whichever way the keys are looked up, the rows are those with a path that matches. -/
theorem mem_rowsForPathPattern (hfst : fst.Keeps pairs) (h : index.Indexes fst additions)
    (pattern : String) (row : UInt32) :
    row ∈ index.rowsForPathPattern fst pattern ↔ HasPath additions row pattern := by
  obtain ⟨entries, hgroups, hmem⟩ := h.keys
  have hkey (term : List UInt8) : (term, row) ∈ additions.filterMap additionKey? ↔
      ∃ path, .path row path ∈ additions ∧ utf8Bytes path.toList = term := by
    rw [List.mem_filterMap]
    constructor
    · rintro ⟨addition, haddition, hkey⟩
      cases addition with
      | path row path =>
        rw [additionKey?, Option.some.injEq, Prod.mk.injEq, toList_toUTF8] at hkey
        obtain ⟨rfl, rfl⟩ := hkey
        exact ⟨path, haddition, rfl⟩
      | valuePosition => cases hkey
    · rintro ⟨path, haddition, rfl⟩
      exact ⟨_, haddition, by rw [additionKey?, toList_toUTF8]⟩
  -- The entries with a property of their term, as paths with it.
  have hpaths (P : List UInt8 → Prop) : (∃ entry ∈ entries, P entry.term ∧ row ∈ entry.rows) ↔
      ∃ path, .path row path ∈ additions ∧ P (utf8Bytes path.toList) := by
    constructor
    · rintro ⟨entry, hentry, hP, hrow⟩
      obtain ⟨path, haddition, hterm⟩ := (hkey _).1 ((hmem _ _).1 ⟨entry, hentry, rfl, hrow⟩)
      exact ⟨path, haddition, hterm ▸ hP⟩
    · rintro ⟨path, haddition, hP⟩
      obtain ⟨entry, hentry, hterm, hrow⟩ := (hmem _ _).2 ((hkey _).2 ⟨path, haddition, rfl⟩)
      exact ⟨entry, hentry, hterm ▸ hP, hrow⟩
  rw [SearchIndex.rowsForPathPattern, HasPath]
  generalize normalizeLikePattern pattern = pattern
  split
  next hnone =>
    have hrows : row ∈ index.rowsForExactKey fst pattern ↔
        ∃ entry ∈ entries, entry.term = utf8Bytes pattern.toList ∧ row ∈ entry.rows := by
      rw [SearchIndex.rowsForExactKey, toList_toUTF8,
        exactTerms_eq hfst hgroups (fun h => absurd h Bool.false_ne_true), mem_rowsOfTerms_decoded]
      simp only [decide_eq_true_eq]
    rw [hrows, hpaths fun term => term = utf8Bytes pattern.toList]
    simp only [pathMatchesPattern_exact hnone, utf8Bytes_injective.eq_iff, String.toList_inj]
  next hstar =>
    split
    next front hfront =>
      have hrows : row ∈ index.rowsForKeyPrefix fst front ↔ ∃ entry ∈ entries,
          (utf8Bytes front.toList).isPrefixOf entry.term ∧ row ∈ entry.rows := by
        rw [SearchIndex.rowsForKeyPrefix, toList_toUTF8,
          prefixTerms_eq hfst hgroups (fun h => absurd h Bool.false_ne_true),
          mem_rowsOfTerms_decoded]
      rw [hrows, hpaths fun term => (utf8Bytes front.toList).isPrefixOf term]
      simp only [pathMatchesPattern_trailing hfront, List.isPrefixOf_iff_prefix, utf8Bytes_prefix]
    next =>
      have hentries := hpaths fun term =>
        ∃ path, fromUtf8 term = some path ∧ pathMatchesPattern path pattern
      simp only [fromUtf8_utf8Bytes, Option.some.injEq, String.ofList_toList,
        exists_eq_left'] at hentries
      rw [mem_patternRows hfst hgroups, ← hentries]
      apply exists_congr
      intro entry
      rw [and_comm (a := row ∈ entry.rows)]

end paths

/-! Predicates. -/

/-- The clauses on a row say what its additions say. -/
structure SearchRow.Reads (searchRow : SearchRow) (additions : List SearchAddition)
    (row : UInt32) : Prop where
  text (field : SearchField) {query : SearchQuery} (hquery : query.Words) :
    searchRow.text field query ↔ HasQuery additions row field query
  exactValue (field : SearchField) (value : String) :
    searchRow.exactValue field value ↔ HasToken additions row field (exactValueToken value)
  jsonKey (pattern : String) : searchRow.jsonKey pattern ↔ HasPath additions row pattern

section predicates

variable {fst : FstMaps} {pairs : fst.Builder → List (List UInt8 × Nat)} {index : SearchIndex}
  {additions : List SearchAddition}

theorem mem_allRows {row : UInt32} : row ∈ index.allRows ↔ row < index.rowCount := by
  rw [SearchIndex.allRows, Finset.mem_image, UInt32.lt_iff_toNat_lt]
  constructor
  · rintro ⟨n, hn, rfl⟩
    rw [Finset.mem_range] at hn
    rwa [UInt32.toNat_ofNat_of_lt' (hn.trans index.rowCount.toNat_lt)]
  · intro hrow
    exact ⟨row.toNat, Finset.mem_range.2 hrow, UInt32.ofNat_toNat⟩

mutual

/-- On a row of the index a predicate is what its clauses say. -/
theorem mem_matchingRows (hfst : fst.Keeps pairs) (hplain : PlainAdditions additions)
    (h : index.Indexes fst additions) {searchRow : SearchRow} {row : UInt32}
    (hrow : row < index.rowCount) (hreads : searchRow.Reads additions row) :
    ∀ predicate : SearchPredicate, (∀ query ∈ predicate.queries, query.Words) →
      (row ∈ index.matchingRows fst predicate ↔ predicate.holds searchRow)
  | .and children, hqueries => by
    rw [SearchIndex.matchingRows, SearchPredicate.holds]
    exact mem_matchingAll hfst hplain h hrow hreads children hqueries
  | .or children, hqueries => by
    rw [SearchIndex.matchingRows, SearchPredicate.holds]
    exact mem_matchingAny hfst hplain h hrow hreads children hqueries
  | .not child, hqueries => by
    rw [SearchIndex.matchingRows, SearchPredicate.holds, Finset.mem_sdiff, mem_allRows,
      mem_matchingRows hfst hplain h hrow hreads child hqueries, and_iff_right hrow,
      Bool.not_eq_true, Bool.not_eq_true']
  | .text field query, hqueries => by
    have hquery := hqueries query (List.mem_singleton_self _)
    obtain ⟨entries, hgroups, hmem, hnonempty⟩ := h.values
    rw [SearchIndex.matchingRows, SearchPredicate.holds, hreads.text field hquery,
      mem_rowsForQuery hfst hplain ⟨hgroups, hmem, hnonempty⟩ field hquery.plain]
  | .exactValue field value, _ => by
    obtain ⟨entries, hgroups, hmem, hnonempty⟩ := h.values
    rw [SearchIndex.matchingRows, SearchPredicate.holds, hreads.exactValue,
      SearchIndex.rowsForExactValue, mem_rowsOfTerms_token hfst hplain ⟨hgroups, hmem, hnonempty⟩
        field (plainToken_exactValueToken value)]
  | .jsonKey pattern, _ => by
    rw [SearchIndex.matchingRows, SearchPredicate.holds, hreads.jsonKey,
      mem_rowsForPathPattern hfst h]

theorem mem_matchingAll (hfst : fst.Keeps pairs) (hplain : PlainAdditions additions)
    (h : index.Indexes fst additions) {searchRow : SearchRow} {row : UInt32}
    (hrow : row < index.rowCount) (hreads : searchRow.Reads additions row) :
    ∀ children : List SearchPredicate,
      (∀ query ∈ SearchPredicate.queriesOf children, query.Words) →
        (row ∈ index.matchingAll fst children ↔ SearchPredicate.allHold searchRow children)
  | [], _ => by
    rw [SearchIndex.matchingAll, SearchPredicate.allHold, mem_allRows]
    exact iff_of_true hrow rfl
  | child :: children, hqueries => by
    obtain ⟨hchild, hchildren⟩ := List.forall_mem_append.1 hqueries
    rw [SearchIndex.matchingAll, SearchPredicate.allHold, Bool.and_eq_true,
      mem_matchingRest hfst hplain h hrow hreads children hchildren,
      mem_matchingRows hfst hplain h hrow hreads child hchild]

theorem mem_matchingRest (hfst : fst.Keeps pairs) (hplain : PlainAdditions additions)
    (h : index.Indexes fst additions) {searchRow : SearchRow} {row : UInt32}
    (hrow : row < index.rowCount) (hreads : searchRow.Reads additions row) :
    ∀ (children : List SearchPredicate) {rows : Finset UInt32},
      (∀ query ∈ SearchPredicate.queriesOf children, query.Words) →
        (row ∈ index.matchingRest fst rows children ↔
          row ∈ rows ∧ SearchPredicate.allHold searchRow children)
  | [], _, _ => by
    rw [SearchIndex.matchingRest, SearchPredicate.allHold]
    exact (and_iff_left rfl).symm
  | child :: children, _, hqueries => by
    obtain ⟨hchild, hchildren⟩ := List.forall_mem_append.1 hqueries
    rw [SearchIndex.matchingRest, SearchPredicate.allHold, Bool.and_eq_true,
      mem_matchingRest hfst hplain h hrow hreads children hchildren, Finset.mem_inter,
      mem_matchingRows hfst hplain h hrow hreads child hchild, and_assoc]

theorem mem_matchingAny (hfst : fst.Keeps pairs) (hplain : PlainAdditions additions)
    (h : index.Indexes fst additions) {searchRow : SearchRow} {row : UInt32}
    (hrow : row < index.rowCount) (hreads : searchRow.Reads additions row) :
    ∀ children : List SearchPredicate,
      (∀ query ∈ SearchPredicate.queriesOf children, query.Words) →
        (row ∈ index.matchingAny fst children ↔ SearchPredicate.anyHolds searchRow children)
  | [], _ => by
    rw [SearchIndex.matchingAny, SearchPredicate.anyHolds]
    exact iff_of_false (Finset.notMem_empty _) Bool.false_ne_true
  | child :: children, hqueries => by
    obtain ⟨hchild, hchildren⟩ := List.forall_mem_append.1 hqueries
    rw [SearchIndex.matchingAny, SearchPredicate.anyHolds, Bool.or_eq_true, Finset.mem_union,
      mem_matchingAny hfst hplain h hrow hreads children hchildren,
      mem_matchingRows hfst hplain h hrow hreads child hchild]

end

/-! Rows that are not in the index. -/

def SearchAddition.row : SearchAddition → UInt32
  | .path row _ => row
  | .valuePosition row _ _ _ => row

theorem HasToken.exists_addition {row : UInt32} {field : SearchField} {token : String}
    (h : HasToken additions row field token) : ∃ addition ∈ additions, addition.row = row := by
  obtain ⟨path, position, haddition, -⟩ := h
  exact ⟨_, haddition, rfl⟩

theorem HasPhrase.exists_addition {row : UInt32} {field : SearchField} {phrase : List String}
    (h : HasPhrase additions row field phrase) : ∃ addition ∈ additions, addition.row = row := by
  obtain ⟨hne, path, -, position, hall⟩ := h
  obtain ⟨first, rest, rfl⟩ := List.exists_cons_of_ne_nil hne
  exact ⟨_, hall (first, 0) List.mem_cons_self, rfl⟩

theorem HasQuery.exists_addition {row : UInt32} {field : SearchField} {query : SearchQuery}
    (h : HasQuery additions row field query) : ∃ addition ∈ additions, addition.row = row := by
  obtain ⟨hempty, hterms, hphrases⟩ := h
  rw [SearchQuery.isEmpty, Bool.and_eq_false_iff, List.isEmpty_eq_false_iff,
    List.isEmpty_eq_false_iff] at hempty
  obtain hne | hne := hempty
  · obtain ⟨term, hterm⟩ := List.exists_mem_of_ne_nil _ hne
    exact (hterms term hterm).exists_addition
  · obtain ⟨phrase, hphrase⟩ := List.exists_mem_of_ne_nil _ hne
    exact (hphrases phrase hphrase).exists_addition

theorem matchingRest_subset (rows : Finset UInt32) (children : List SearchPredicate) :
    index.matchingRest fst rows children ⊆ rows := by
  induction children generalizing rows with
  | nil => rw [SearchIndex.matchingRest]
  | cons child children ih =>
    rw [SearchIndex.matchingRest]
    exact (ih _).trans Finset.inter_subset_left

mutual

theorem matchingRows_subset (hfst : fst.Keeps pairs) (hplain : PlainAdditions additions)
    (h : index.Indexes fst additions)
    (hrows : ∀ addition ∈ additions, addition.row < index.rowCount) :
    ∀ predicate : SearchPredicate, (∀ query ∈ predicate.queries, query.Words) →
      index.matchingRows fst predicate ⊆ index.allRows
  | .and [], _ => by rw [SearchIndex.matchingRows, SearchIndex.matchingAll]
  | .and (child :: children), hqueries => by
    rw [SearchIndex.matchingRows, SearchIndex.matchingAll]
    exact (matchingRest_subset _ children).trans
      (matchingRows_subset hfst hplain h hrows child (List.forall_mem_append.1 hqueries).1)
  | .or children, hqueries => by
    rw [SearchIndex.matchingRows]
    exact matchingAny_subset hfst hplain h hrows children hqueries
  | .not child, _ => by
    rw [SearchIndex.matchingRows]
    exact Finset.sdiff_subset
  | .text field query, hqueries => by
    have hquery := hqueries query (List.mem_singleton_self _)
    obtain ⟨entries, hgroups, hmem, hnonempty⟩ := h.values
    intro row hrow
    rw [SearchIndex.matchingRows, mem_rowsForQuery hfst hplain ⟨hgroups, hmem, hnonempty⟩ field
      hquery.plain] at hrow
    obtain ⟨addition, haddition, rfl⟩ := hrow.exists_addition
    exact mem_allRows.2 (hrows addition haddition)
  | .exactValue field value, _ => by
    obtain ⟨entries, hgroups, hmem, hnonempty⟩ := h.values
    intro row hrow
    rw [SearchIndex.matchingRows, SearchIndex.rowsForExactValue, mem_rowsOfTerms_token hfst hplain
      ⟨hgroups, hmem, hnonempty⟩ field (plainToken_exactValueToken value)] at hrow
    obtain ⟨addition, haddition, rfl⟩ := hrow.exists_addition
    exact mem_allRows.2 (hrows addition haddition)
  | .jsonKey pattern, _ => by
    intro row hrow
    rw [SearchIndex.matchingRows, mem_rowsForPathPattern hfst h] at hrow
    obtain ⟨path, haddition, -⟩ := hrow
    exact mem_allRows.2 (hrows _ haddition)

theorem matchingAny_subset (hfst : fst.Keeps pairs) (hplain : PlainAdditions additions)
    (h : index.Indexes fst additions)
    (hrows : ∀ addition ∈ additions, addition.row < index.rowCount) :
    ∀ children : List SearchPredicate,
      (∀ query ∈ SearchPredicate.queriesOf children, query.Words) →
        index.matchingAny fst children ⊆ index.allRows
  | [], _ => by
    rw [SearchIndex.matchingAny]
    exact Finset.empty_subset _
  | child :: children, hqueries => by
    obtain ⟨hchild, hchildren⟩ := List.forall_mem_append.1 hqueries
    rw [SearchIndex.matchingAny]
    exact Finset.union_subset (matchingRows_subset hfst hplain h hrows child hchild)
      (matchingAny_subset hfst hplain h hrows children hchildren)

end

end predicates

end KevinDb
