import KevinDb.Search.StoredTerms

namespace KevinDb
set_option autoImplicit true
open Std

theorem mem_rowsOfTerms {terms : List DecodedTerm} {row : UInt32} :
    row ∈ rowsOfTerms terms ↔ ∃ term ∈ terms, row ∈ term.rows := by
  induction terms with
  | nil => simp [rowsOfTerms]
  | cons term terms ih =>
    rw [rowsOfTerms, List.foldr_cons, ← rowsOfTerms, Finset.mem_union, ih, List.exists_mem_cons_iff]

/-! Bounds of terms. -/

/-- A beginning comes before what it begins. -/
theorem isLE_compare_append (front back : List UInt8) : (compare front (front ++ back)).isLE := by
  have happend := compare_append_left front [] back
  rw [List.append_nil] at happend
  rw [happend]
  cases back with
  | nil => rfl
  | cons byte back => rfl

theorem nextPrefixRev_eq_some {bytes upper : List UInt8} (h : nextPrefixRev bytes = some upper) :
    ∃ skipped last rest, bytes = skipped ++ last :: rest ∧ last ≠ 255 ∧
      upper = (last + 1) :: rest := by
  induction bytes with
  | nil => cases h
  | cons byte bytes ih =>
    rw [nextPrefixRev] at h
    split at h
    next hbyte =>
      cases h
      exact ⟨[], byte, bytes, rfl, hbyte, rfl⟩
    · obtain ⟨skipped, last, rest, rfl, hlast, rfl⟩ := ih h
      exact ⟨byte :: skipped, last, rest, rfl, hlast, rfl⟩

/-- All that begins with a beginning comes before the next one. -/
theorem compare_nextPrefix {front upper : List UInt8} (h : nextPrefix front = some upper)
    (back : List UInt8) : compare (front ++ back) upper = .lt := by
  obtain ⟨bytes, hbytes, rfl⟩ := Option.map_eq_some_iff.1 h
  obtain ⟨skipped, last, rest, hfront, hlast, rfl⟩ := nextPrefixRev_eq_some hbytes
  have hreverse := congrArg List.reverse hfront
  rw [List.reverse_reverse, List.reverse_append, List.reverse_cons, List.append_assoc] at hreverse
  have hbyte : compare last (last + 1) = .lt := by
    have hlt := last.toNat_lt
    have hne : last.toNat ≠ 255 := fun heq => hlast (UInt8.toNat_inj.1 heq)
    have hsucc : (last + 1).toNat = last.toNat + 1 := by
      rw [UInt8.toNat_add]
      change (last.toNat + 1) % 256 = _
      omega
    exact if_pos (UInt8.lt_iff_toNat_lt.2 (by omega))
  rw [hreverse, List.reverse_cons, List.append_assoc, compare_append_left, List.singleton_append,
    List.cons_append, List.compare_cons_cons, hbyte]
  rfl

section bounds

variable {fst : FstMaps} {built : Bool} {piece : List TermEntry} {group : SearchRowGroup}
  {term : List UInt8}

/-- The terms of a group lie between its bounds. -/
theorem bounds_of_mem (hgroup : encodeRowGroup fst.toFstLib built piece = .ok group)
    (hascending : Ascending (piece.map TermEntry.term)) (hterm : term ∈ piece.map TermEntry.term) :
    (compare group.minTerm term).isLE ∧ (compare term group.maxTerm).isLE := by
  have hself (term : List UInt8) : (compare term term).isLE := by
    rw [ReflOrd.compare_self]
    rfl
  have hne : piece ≠ [] := by
    rintro rfl
    cases hterm
  obtain ⟨front, back, hmin, hmax⟩ := bounds_of_encodeRowGroup hne hgroup
  constructor
  · rw [hmin] at hascending hterm
    rcases List.mem_cons.1 hterm with rfl | hterm
    · exact hself _
    · rw [(List.pairwise_cons.1 hascending).1 term hterm]
      rfl
  · rw [hmax] at hascending hterm
    rcases List.mem_append.1 hterm with hterm | hterm
    · rw [(List.pairwise_append.1 hascending).2.2 term hterm _ (List.mem_singleton_self _)]
      rfl
    · rw [List.mem_singleton.1 hterm]
      exact hself _

theorem groupMayContainExact_of_mem (hgroup : encodeRowGroup fst.toFstLib built piece = .ok group)
    (hascending : Ascending (piece.map TermEntry.term)) (hterm : term ∈ piece.map TermEntry.term) :
    groupMayContainExact group term := by
  obtain ⟨hmin, hmax⟩ := bounds_of_mem hgroup hascending hterm
  rw [groupMayContainExact, minMaxMayContainExact, hmin, hmax]
  rfl

theorem groupOverlapsPrefix_of_mem (hgroup : encodeRowGroup fst.toFstLib built piece = .ok group)
    (hascending : Ascending (piece.map TermEntry.term)) (hterm : term ∈ piece.map TermEntry.term)
    {front : List UInt8} (hfront : front <+: term) : groupOverlapsPrefix group front := by
  obtain ⟨hmin, hmax⟩ := bounds_of_mem hgroup hascending hterm
  obtain ⟨back, rfl⟩ := hfront
  rw [groupOverlapsPrefix, minMaxOverlapsPrefix]
  have hlower : (compare group.maxTerm front).isLT = false := by
    have hle := TransCmp.isLE_trans (isLE_compare_append front back) hmax
    have hswap : compare group.maxTerm front = (compare front group.maxTerm).swap :=
      OrientedCmp.eq_swap
    rw [hswap]
    cases hcompare : compare front group.maxTerm with
    | lt => rfl
    | eq => rfl
    | gt =>
      rw [hcompare] at hle
      cases hle
  rw [hlower, if_neg Bool.false_ne_true]
  cases hupper : nextPrefix front with
  | none => rfl
  | some upper =>
    dsimp only
    rw [TransCmp.lt_of_isLE_of_lt hmin (compare_nextPrefix hupper back)]
    rfl

end bounds

/-! What is found in the groups of an index. -/

/-- Groups hold entries: they are made of them, piece by piece. -/
structure GroupsHold (fst : FstMaps) (built : Bool) (groups : List SearchRowGroup)
    (entries : List TermEntry) : Prop where
  pieces : ∃ pieces, pieces.flatten = entries ∧ List.Forall₂ (fun piece group =>
    encodeRowGroup fst.toFstLib built piece = .ok group) pieces groups
  ascending : Ascending (entries.map TermEntry.term)
  ordered : ∀ entry ∈ entries, entry.Ordered

section groups

variable {fst : FstMaps} {pairs : fst.Builder → List (List UInt8 × Nat)}
  {built includePositions : Bool} {groups : List SearchRowGroup} {entries : List TermEntry}

/-- Entries with terms that differ have a term at most once. -/
theorem filter_term_eq (hascending : Ascending (entries.map TermEntry.term)) (key : List UInt8) :
    entries.filter (·.term = key) = (entries.find? (·.term = key)).toList := by
  induction entries with
  | nil => rfl
  | cons entry entries ih =>
    rw [List.map_cons] at hascending
    obtain ⟨hbefore, hrest⟩ := List.pairwise_cons.1 hascending
    by_cases hkey : entry.term = key
    · have hnone : entries.filter (·.term = key) = [] := by
        rw [List.filter_eq_nil_iff]
        intro other hother hsame
        have hlt := hbefore _ (List.mem_map_of_mem hother)
        rw [of_decide_eq_true hsame, hkey, ReflOrd.compare_self] at hlt
        cases hlt
      rw [List.filter_cons_of_pos (by simpa using hkey), hnone,
        List.find?_cons_of_pos (by simpa using hkey)]
      rfl
    · rw [List.filter_cons_of_neg (by simpa using hkey), ih hrest,
        List.find?_cons_of_neg (by simpa using hkey)]

/-- What is read of groups on a condition, when the others have nothing of it. -/
theorem flatMap_groups_eq (hgroups : GroupsHold fst built groups entries)
    (may : SearchRowGroup → Bool) (read : SearchRowGroup → List β) (f : List TermEntry → List β)
    (hnil : f [] = []) (happend : ∀ front back, f (front ++ back) = f front ++ f back)
    (hread : ∀ piece group, encodeRowGroup fst.toFstLib built piece = .ok group →
      Ascending (piece.map TermEntry.term) → (∀ entry ∈ piece, entry.Ordered) →
        (may group → read group = f piece) ∧ (may group = false → f piece = [])) :
    (groups.filter may).flatMap read = f entries := by
  obtain ⟨⟨pieces, rfl, hpieces⟩, hascending, hordered⟩ := hgroups
  induction hpieces with
  | nil => exact hnil.symm
  | @cons piece group pieces groups hgroup _ ih =>
    rw [List.flatten_cons, List.map_append] at hascending
    rw [List.flatten_cons] at hordered
    obtain ⟨hfirst, hrest, -⟩ := List.pairwise_append.1 hascending
    obtain ⟨hpiece, hothers⟩ := List.forall_mem_append.1 hordered
    obtain ⟨htrue, hfalse⟩ := hread piece group hgroup hfirst hpiece
    rw [List.flatten_cons, happend]
    cases hmay : may group with
    | true => rw [List.filter_cons_of_pos hmay, List.flatMap_cons, htrue hmay, ih hrest hothers]
    | false =>
      rw [List.filter_cons_of_neg (by simp [hmay]), hfalse hmay, ih hrest hothers, List.nil_append]

/-- The entry of a key is found where it may be. -/
theorem exactTerms_eq (hfst : fst.Keeps pairs) (hgroups : GroupsHold fst built groups entries)
    (hbuilt : includePositions → built) (key : List UInt8) :
    ((groups.filter (groupMayContainExact · key)).filterMap fun group =>
      groupExactTermRows fst group key includePositions) =
        (entries.filter (·.term = key)).map (TermEntry.decoded includePositions) := by
  rw [List.filterMap_eq_flatMap_toList]
  apply flatMap_groups_eq hgroups _ _
    fun entries => (entries.filter (·.term = key)).map (TermEntry.decoded includePositions)
  · rfl
  · intro front back
    rw [List.filter_append, List.map_append]
  · intro piece group hgroup hascending hordered
    constructor
    · intro _
      rw [groupExactTermRows_eq (holds_of_encodeRowGroup hfst hgroup) hordered hbuilt,
        filter_term_eq hascending]
      cases piece.find? (·.term = key) with
      | none => rfl
      | some entry => rfl
    · intro hnot
      rw [List.map_eq_nil_iff, List.filter_eq_nil_iff]
      intro entry hentry hkey
      have hmay := groupMayContainExact_of_mem hgroup hascending (List.mem_map_of_mem hentry)
      rw [of_decide_eq_true hkey, hnot] at hmay
      cases hmay

/-- The entries with a beginning are found where they may be. -/
theorem prefixTerms_eq (hfst : fst.Keeps pairs) (hgroups : GroupsHold fst built groups entries)
    (hbuilt : includePositions → built) (front : List Char) :
    ((groups.filter (groupOverlapsPrefix · (utf8Bytes front))).flatMap fun group =>
      groupPrefixTerms fst group (utf8Bytes front) includePositions) =
        (entries.filter fun entry => (utf8Bytes front).isPrefixOf entry.term).map
          (TermEntry.decoded includePositions) := by
  apply flatMap_groups_eq hgroups _ _ fun entries =>
    (entries.filter fun entry => (utf8Bytes front).isPrefixOf entry.term).map
      (TermEntry.decoded includePositions)
  · rfl
  · intro front back
    rw [List.filter_append, List.map_append]
  · intro piece group hgroup hascending hordered
    constructor
    · intro _
      exact groupPrefixTerms_eq (holds_of_encodeRowGroup hfst hgroup) hordered hbuilt front
    · intro hnot
      rw [List.map_eq_nil_iff, List.filter_eq_nil_iff]
      intro entry hentry hprefix
      have hoverlaps := groupOverlapsPrefix_of_mem hgroup hascending
        (List.mem_map_of_mem hentry) (List.isPrefixOf_iff_prefix.1 hprefix)
      rw [hnot] at hoverlaps
      cases hoverlaps

/-- The rows of the entries whose term is a path that matches. -/
theorem mem_patternRows (hfst : fst.Keeps pairs) (hgroups : GroupsHold fst built groups entries)
    (pattern : String) (row : UInt32) :
    row ∈ groups.foldr (fun group rows => groupPathPatternRows fst group pattern ∪ rows) ∅ ↔
      ∃ entry ∈ entries, row ∈ entry.rows ∧
        ∃ path, fromUtf8 entry.term = some path ∧ pathMatchesPattern path pattern := by
  obtain ⟨⟨pieces, rfl, hpieces⟩, -, hordered⟩ := hgroups
  induction hpieces with
  | nil => simp
  | @cons piece group pieces groups hgroup _ ih =>
    rw [List.flatten_cons] at hordered
    obtain ⟨hpiece, hothers⟩ := List.forall_mem_append.1 hordered
    have hholds := holds_of_encodeRowGroup hfst hgroup
    have hordinal (ordinal : Nat) : groupTermByOrdinal fst group ordinal false =
        piece[ordinal]?.map (TermEntry.decoded false) :=
      groupTermByOrdinal_eq hholds hpiece (fun h => absurd h Bool.false_ne_true) ordinal
    have hfirst : row ∈ groupPathPatternRows fst group pattern ↔ ∃ entry ∈ piece,
        row ∈ entry.rows ∧
          ∃ path, fromUtf8 entry.term = some path ∧ pathMatchesPattern path pattern := by
      rw [groupPathPatternRows, FstMaps.open?, if_pos hholds.validate]
      simp only [mem_rowsOfTerms, List.mem_filterMap, hholds.stream, mem_ordinals]
      constructor
      · rintro ⟨term, ⟨pair, ⟨entry, hget, hterm⟩, hread⟩, hrow⟩
        obtain ⟨path, hpath, hread⟩ := Option.bind_eq_some_iff.1 hread
        split at hread
        next hmatches =>
          rw [hordinal, hget] at hread
          cases hread
          refine ⟨entry, List.mem_of_getElem? hget, List.mem_toFinset.1 hrow, path, ?_, hmatches⟩
          rwa [hterm]
        · cases hread
      · rintro ⟨entry, hentry, hrow, path, hpath, hmatches⟩
        obtain ⟨ordinal, hget⟩ := List.getElem?_of_mem hentry
        refine ⟨entry.decoded false, ⟨(entry.term, ordinal), ⟨entry, hget, rfl⟩, ?_⟩,
          List.mem_toFinset.2 hrow⟩
        rw [hpath, Option.bind_eq_bind, Option.bind_some, if_pos hmatches, hordinal, hget]
        rfl
    rw [List.foldr_cons, Finset.mem_union, ih hothers, hfirst, List.flatten_cons]
    simp only [List.mem_append, or_and_right, exists_or]

end groups

end KevinDb
