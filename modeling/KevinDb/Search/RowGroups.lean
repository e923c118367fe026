import KevinDb.Search.Entries

namespace KevinDb
set_option autoImplicit true
open Std

/-! What the occurrences of a term add up to. -/

theorem mem_insert_number {numbers : TreeSet UInt32} {number other : UInt32} :
    other ∈ numbers.insert number ↔ number = other ∨ other ∈ numbers := by
  rw [TreeSet.mem_insert, LawfulEqCmp.compare_eq_iff_eq]

theorem KeyOccurrence.mem_rows_accumulate (occurrences : List KeyOccurrence) (row : UInt32) :
    row ∈ (accumulate KeyOccurrence.addTo occurrences).rows ↔ ∃ a ∈ occurrences, a.row = row := by
  induction occurrences using List.reverseRecOn with
  | nil => simp [accumulate, TermAccumulator.empty]
  | append_singleton occurrences occurrence ih =>
    rw [accumulate_append, KeyOccurrence.addTo, mem_insert_number, ih]
    simp only [List.mem_append, List.mem_singleton, or_and_right, exists_or, exists_eq_left]
    exact or_comm

theorem ValueOccurrence.mem_rows_accumulate (occurrences : List ValueOccurrence) (row : UInt32) :
    row ∈ (accumulate ValueOccurrence.addTo occurrences).rows ↔
      ∃ a ∈ occurrences, a.row = row := by
  induction occurrences using List.reverseRecOn with
  | nil => simp [accumulate, TermAccumulator.empty]
  | append_singleton occurrences occurrence ih =>
    rw [accumulate_append, ValueOccurrence.addTo, mem_insert_number, ih]
    simp only [List.mem_append, List.mem_singleton, or_and_right, exists_or, exists_eq_left]
    exact or_comm

/-- The positions of a row. -/
def TermAccumulator.positions (accumulator : TermAccumulator) (row : UInt32) : TreeSet UInt32 :=
  accumulator.positionsByRow[row]?.getD ∅

theorem ValueOccurrence.mem_positions_accumulate (occurrences : List ValueOccurrence)
    (row position : UInt32) :
    position ∈ (accumulate ValueOccurrence.addTo occurrences).positions row ↔
      ∃ a ∈ occurrences, a.row = row ∧ a.position = position := by
  induction occurrences using List.reverseRecOn with
  | nil => simp [accumulate, TermAccumulator.empty, TermAccumulator.positions]
  | append_singleton occurrences occurrence ih =>
    rw [accumulate_append, ValueOccurrence.addTo, TermAccumulator.positions, Table.get_insert]
    simp only [List.mem_append, List.mem_singleton, or_and_right, exists_or, exists_eq_left, ← ih]
    split
    next hrow =>
      subst hrow
      rw [Option.getD_some, mem_insert_number, and_iff_right rfl]
      exact or_comm
    next hrow =>
      rw [or_iff_left fun h => hrow h.1]
      rfl

theorem ValueOccurrence.get_positions_accumulate (occurrences : List ValueOccurrence)
    (row : UInt32) :
    (accumulate ValueOccurrence.addTo occurrences).positionsByRow[row]?.isSome ↔
      ∃ a ∈ occurrences, a.row = row := by
  induction occurrences using List.reverseRecOn with
  | nil => simp [accumulate, TermAccumulator.empty]
  | append_singleton occurrences occurrence ih =>
    rw [accumulate_append, ValueOccurrence.addTo, Table.get_insert]
    simp only [List.mem_append, List.mem_singleton, or_and_right, exists_or, exists_eq_left, ← ih]
    split
    next hrow => simp [hrow]
    next hrow => simp [hrow]

/-- The accumulator of an entry is that of the occurrences of its term. -/
theorem EntriesExact.accumulator_eq [TermOccurrence α] {interner : TermInterner}
    {addTo : α → TermAccumulator → TermAccumulator} {occurrences : List α}
    {entries : List (List UInt8 × TermAccumulator)}
    (h : EntriesExact interner addTo occurrences entries) {entry : List UInt8 × TermAccumulator}
    (hentry : entry ∈ entries) :
    entry.2 = accumulate addTo (occurrences.filter fun a => interner.termOf a = entry.1) := by
  rw [h.entries_eq, entriesOf, List.mem_map] at hentry
  obtain ⟨term, -, rfl⟩ := hentry
  rfl

/-! Row groups. -/

/-- What stands in the error of an insertion. -/
def insertError : String := "insert search FST term"

/-- A key behind those that a builder has can be inserted. -/
def FstLib.InsertsAscending (fst : FstLib) : Prop :=
  ∃ keys : fst.Builder → List (List UInt8), keys fst.memory = [] ∧
    ∀ builder key value, (∀ other ∈ keys builder, compare other key = .lt) →
      ∃ builder', fst.insert builder key value = .ok builder' ∧
        keys builder' = keys builder ++ [key]

section rowGroups

variable {fst : FstLib} {includePositions : Bool}

theorem checkedU32_ne_error {n : Nat} {label message : String}
    (h : label ++ " does not fit in u32" ≠ message) : checkedU32 n label ≠ .error message := by
  rw [checkedU32]
  split
  · nofun
  · exact fun heq => h (Outcome.error.inj heq)

theorem encodeU32List_ne_error (values : List UInt32) (message : String) :
    encodeU32List values ≠ .error message := by
  obtain ⟨out, hout, -⟩ := encodeU32List_eq values
  rw [hout]
  nofun

theorem encodePositions_ne_error (rows : List UInt32)
    (positionsByRow : Table UInt32 (List UInt32)) (message : String) :
    encodePositions rows positionsByRow ≠ .error message := by
  obtain ⟨out, hout⟩ := encodePositions_eq rows positionsByRow
  rw [hout]
  nofun

theorem estimatedTermBytes_ne_error (entry : TermEntry) (message : String) :
    estimatedTermBytes entry includePositions ≠ .error message := by
  apply Outcome.bind_ne_error (encodeU32List_ne_error _ _)
  intro postings _
  split
  · nofun
  · exact Outcome.bind_ne_error (encodePositions_ne_error _ _ _) nofun

theorem encodedPositions_ne_error (entry : TermEntry) (message : String) :
    entry.encodedPositions includePositions ≠ .error message := by
  rw [TermEntry.encodedPositions]
  split
  · exact encodePositions_ne_error _ _ _
  · nofun

/-- One turn of the loop of `encode_row_group`, when the insertion succeeds. -/
theorem GroupEncoder.push_spec {encoder : GroupEncoder fst} {entry : TermEntry}
    {builder : fst.Builder}
    (hinsert : fst.insert encoder.fst entry.term encoder.termInfos.length = .ok builder) :
    encoder.push includePositions entry ≠ .error insertError ∧
      ∀ encoder', encoder.push includePositions entry = .ok encoder' → encoder'.fst = builder := by
  constructor
  · rw [GroupEncoder.push, hinsert]
    apply Outcome.bind_ne_error (by nofun)
    intro _ _
    apply Outcome.bind_ne_error (checkedU32_ne_error (by decide))
    intro postingsOffset _
    apply Outcome.bind_ne_error (encodeU32List_ne_error _ _)
    intro encodedPostings _
    apply Outcome.bind_ne_error (checkedU32_ne_error (by decide))
    intro postingsLen _
    apply Outcome.bind_ne_error (checkedU32_ne_error (by decide))
    intro positionsOffset _
    apply Outcome.bind_ne_error (encodedPositions_ne_error _ _)
    intro encodedPositions _
    apply Outcome.bind_ne_error (checkedU32_ne_error (by decide))
    intro positionsLen _
    exact Outcome.bind_ne_error (checkedU32_ne_error (by decide)) nofun
  · intro encoder' h
    rw [GroupEncoder.push, hinsert] at h
    obtain ⟨_, hbuilder, h⟩ := Outcome.bind_eq_ok_iff.1 h
    cases hbuilder
    obtain ⟨_, -, h⟩ := Outcome.bind_eq_ok_iff.1 h
    obtain ⟨_, -, h⟩ := Outcome.bind_eq_ok_iff.1 h
    obtain ⟨_, -, h⟩ := Outcome.bind_eq_ok_iff.1 h
    obtain ⟨_, -, h⟩ := Outcome.bind_eq_ok_iff.1 h
    obtain ⟨_, -, h⟩ := Outcome.bind_eq_ok_iff.1 h
    obtain ⟨_, -, h⟩ := Outcome.bind_eq_ok_iff.1 h
    obtain ⟨_, -, h⟩ := Outcome.bind_eq_ok_iff.1 h
    cases h
    rfl

/-- Terms in strict order are inserted one after the other. -/
theorem encodeRowGroup_ne_error (hfst : fst.InsertsAscending) {entries : List TermEntry}
    (hascending : Ascending (entries.map TermEntry.term)) :
    encodeRowGroup fst includePositions entries ≠ .error insertError := by
  obtain ⟨keys, hmemory, hinsert⟩ := hfst
  have hloop (encoder : GroupEncoder fst)
      (hkeys : Ascending (keys encoder.fst ++ entries.map TermEntry.term)) :
      entries.foldlM (GroupEncoder.push includePositions) encoder ≠ .error insertError := by
    induction entries generalizing encoder with
    | nil => exact Outcome.ok_ne_error _ _
    | cons entry entries ih =>
      rw [List.map_cons] at hascending hkeys
      obtain ⟨builder, hbuilder, hkeys'⟩ := hinsert encoder.fst entry.term
        encoder.termInfos.length fun other hother =>
          (List.pairwise_append.1 hkeys).2.2 other hother _ List.mem_cons_self
      obtain ⟨hpush, hnext⟩ := @GroupEncoder.push_spec fst includePositions _ _ _ hbuilder
      rw [List.foldlM_cons]
      apply Outcome.bind_ne_error hpush
      intro encoder' hencoder'
      apply ih (List.pairwise_cons.1 hascending).2
      rw [hnext encoder' hencoder', hkeys', List.append_assoc, List.singleton_append]
      exact hkeys
  rw [encodeRowGroup]
  apply Outcome.bind_ne_error
  · apply hloop
    rw [hmemory]
    exact hascending
  · intro encoder _
    apply Outcome.bind_ne_error _ fun _ _ => Outcome.ok_ne_error _ _
    cases fst.intoInner encoder.fst with
    | ok bytes => exact Outcome.ok_ne_error _ _
    | error message => exact fun h => absurd (Outcome.error.inj h) (by decide)

theorem groupsFrom_ne_error (hfst : fst.InsertsAscending) {entries current : List TermEntry}
    (hascending : Ascending ((current ++ entries).map TermEntry.term))
    (groups : List SearchRowGroup) (postingsBytes rawTermBytes : Nat) :
    groupsFrom fst includePositions groups current postingsBytes rawTermBytes entries ≠
      .error insertError := by
  induction entries generalizing groups current postingsBytes rawTermBytes with
  | nil =>
    rw [List.append_nil] at hascending
    rw [groupsFrom]
    split
    · exact Outcome.bind_ne_error (encodeRowGroup_ne_error hfst hascending)
        fun _ _ => Outcome.ok_ne_error _ _
    · exact Outcome.ok_ne_error _ _
  | cons entry entries ih =>
    rw [groupsFrom]
    apply Outcome.bind_ne_error (estimatedTermBytes_ne_error entry _)
    intro bytes _
    dsimp only
    split
    · rw [List.map_append] at hascending
      apply Outcome.bind_ne_error
        (encodeRowGroup_ne_error hfst (List.pairwise_append.1 hascending).1)
      intro group _
      have hrest : Ascending (([entry] ++ entries).map TermEntry.term) :=
        (List.pairwise_append.1 hascending).2.1
      exact ih hrest _ _ _
    · apply ih
      rwa [List.append_assoc, List.singleton_append]

/-- The entries are cut into pieces, none empty, of which each becomes a group. -/
theorem exists_pieces {entries current : List TermEntry} {groups result : List SearchRowGroup}
    {postingsBytes rawTermBytes : Nat} (h : groupsFrom fst includePositions groups current
      postingsBytes rawTermBytes entries = .ok result) :
    ∃ pieces new, result = groups ++ new ∧ pieces.flatten = current ++ entries ∧
      List.Forall₂ (fun piece group => piece ≠ [] ∧
        encodeRowGroup fst includePositions piece = .ok group) pieces new := by
  induction entries generalizing groups current postingsBytes rawTermBytes with
  | nil =>
    rw [groupsFrom] at h
    split at h
    next hne =>
      obtain ⟨group, hgroup, h⟩ := Outcome.bind_eq_ok_iff.1 h
      cases h
      exact ⟨[current], [group], rfl, by simp, .cons ⟨hne, hgroup⟩ .nil⟩
    next hempty =>
      cases h
      rw [not_not.1 hempty]
      exact ⟨[], [], (List.append_nil _).symm, rfl, .nil⟩
  | cons entry entries ih =>
    rw [groupsFrom] at h
    obtain ⟨bytes, -, h⟩ := Outcome.bind_eq_ok_iff.1 h
    dsimp only at h
    split at h
    next hfull =>
      obtain ⟨group, hgroup, h⟩ := Outcome.bind_eq_ok_iff.1 h
      obtain ⟨pieces, new, rfl, hpieces, hnew⟩ := ih h
      refine ⟨current :: pieces, group :: new, by simp, ?_, .cons ⟨hfull.1, hgroup⟩ hnew⟩
      rw [List.flatten_cons, hpieces, List.singleton_append]
    · obtain ⟨pieces, new, rfl, hpieces, hnew⟩ := ih h
      refine ⟨pieces, new, rfl, ?_, hnew⟩
      rw [hpieces, List.append_assoc, List.singleton_append]

/-- A group begins with the first of its terms and ends with the last. -/
theorem bounds_of_encodeRowGroup {piece : List TermEntry} {group : SearchRowGroup}
    (hne : piece ≠ []) (h : encodeRowGroup fst includePositions piece = .ok group) :
    ∃ front back, piece.map TermEntry.term = group.minTerm :: back ∧
      piece.map TermEntry.term = front ++ [group.maxTerm] := by
  rw [encodeRowGroup] at h
  obtain ⟨encoder, -, h⟩ := Outcome.bind_eq_ok_iff.1 h
  obtain ⟨bytes, -, h⟩ := Outcome.bind_eq_ok_iff.1 h
  cases h
  obtain ⟨first, rest, hfirst⟩ := List.exists_cons_of_ne_nil hne
  obtain ⟨front, last, hlast⟩ : ∃ front last, piece = front ++ [last] :=
    ⟨_, _, (List.dropLast_append_getLast hne).symm⟩
  refine ⟨front.map TermEntry.term, rest.map TermEntry.term, ?_, ?_⟩
  · rw [hfirst]
    rfl
  · rw [hlast, List.getLast?_concat, List.map_append]
    rfl

/-- The groups come in strict order and overlap nowhere; they begin and end at terms, and each term
lies in one. -/
structure GroupsCover (terms : List (List UInt8)) (groups : List SearchRowGroup) : Prop where
  disjoint : groups.Pairwise fun group group' => compare group.maxTerm group'.minTerm = .lt
  bounds : ∀ group ∈ groups, group.minTerm ∈ terms ∧ group.maxTerm ∈ terms
  covers : ∀ term ∈ terms, ∃ group ∈ groups,
    (compare group.minTerm term).isLE ∧ (compare term group.maxTerm).isLE

theorem groupsCover_of_pieces {pieces : List (List TermEntry)} {groups : List SearchRowGroup}
    (h : List.Forall₂ (fun piece group => piece ≠ [] ∧
      encodeRowGroup fst includePositions piece = .ok group) pieces groups)
    (hascending : Ascending (pieces.flatten.map TermEntry.term)) :
    GroupsCover (pieces.flatten.map TermEntry.term) groups := by
  induction h with
  | nil => exact ⟨.nil, nofun, nofun⟩
  | @cons piece group pieces groups hgroup _ ih =>
    obtain ⟨front, back, hmin, hmax⟩ := bounds_of_encodeRowGroup hgroup.1 hgroup.2
    rw [List.flatten_cons, List.map_append] at hascending ⊢
    obtain ⟨hpiece, hrest, hbefore⟩ := List.pairwise_append.1 hascending
    obtain ⟨hdisjoint, hbounds, hcovers⟩ := ih hrest
    have hminMem : group.minTerm ∈ piece.map TermEntry.term := hmin ▸ List.mem_cons_self
    have hmaxMem : group.maxTerm ∈ piece.map TermEntry.term := hmax ▸ by simp
    refine ⟨List.pairwise_cons.2 ⟨fun other hother => ?_, hdisjoint⟩, fun other hother => ?_,
      fun term hterm => ?_⟩
    · exact hbefore _ hmaxMem _ (hbounds other hother).1
    · rcases List.mem_cons.1 hother with rfl | hother
      · exact ⟨List.mem_append_left _ hminMem, List.mem_append_left _ hmaxMem⟩
      · obtain ⟨hfirst, hlast⟩ := hbounds other hother
        exact ⟨List.mem_append_right _ hfirst, List.mem_append_right _ hlast⟩
    · rcases List.mem_append.1 hterm with hterm | hterm
      · have hself (term : List UInt8) : (compare term term).isLE := by
          rw [ReflOrd.compare_self]
          rfl
        refine ⟨group, List.mem_cons_self, ?_, ?_⟩
        · rw [hmin] at hpiece hterm
          rcases List.mem_cons.1 hterm with rfl | hterm
          · exact hself _
          · rw [(List.pairwise_cons.1 hpiece).1 term hterm]
            rfl
        · rw [hmax] at hpiece hterm
          rcases List.mem_append.1 hterm with hterm | hterm
          · rw [(List.pairwise_append.1 hpiece).2.2 term hterm _ (List.mem_singleton_self _)]
            rfl
          · rw [List.mem_singleton.1 hterm]
            exact hself _
      · obtain ⟨other, hother, hcover⟩ := hcovers term hterm
        exact ⟨other, List.mem_cons_of_mem _ hother, hcover⟩

end rowGroups

/-- Occurrences are sorted stably by their terms, all of which are found; the entries have the terms
in strict order; and the groups are built from them without an error of an insertion, and cover them. -/
structure SortsOccurrences [TermOccurrence α] (fst : FstLib) (interner : TermInterner)
    (includePositions : Bool) (occurrences : List α)
    (entries : List (List UInt8 × TermAccumulator)) : Prop where
  known : ∀ a ∈ occurrences, interner.Knows (termId a)
  sorted : IsStableSort interner.termOf occurrences (radixSortedOccurrences interner occurrences 0)
  ascending : Ascending (entries.map Prod.fst)
  terms : ∀ term, term ∈ entries.map Prod.fst ↔ ∃ a ∈ occurrences, interner.termOf a = term
  inserts : buildRowGroups fst includePositions entries ≠ .error insertError
  groups : ∀ groups, buildRowGroups fst includePositions entries = .ok groups →
    GroupsCover (entries.map Prod.fst) groups

theorem sortsOccurrences [TermOccurrence α] {fst : FstLib} {interner : TermInterner}
    {addTo : α → TermAccumulator → TermAccumulator} {occurrences : List α}
    (includePositions : Bool) (hfst : fst.InsertsAscending) (hsound : interner.Sound)
    (hknows : ∀ a ∈ occurrences, interner.Knows (termId a)) :
    SortsOccurrences fst interner includePositions occurrences
      (buildEntries interner addTo occurrences) := by
  have hexact : EntriesExact interner addTo occurrences (buildEntries interner addTo occurrences) :=
    buildEntries_exact hsound hknows
  have hterms : ((buildEntries interner addTo occurrences).map fun entry =>
      TermEntry.ofAccumulator entry.1 entry.2).map TermEntry.term =
        (buildEntries interner addTo occurrences).map Prod.fst := by
    rw [List.map_map]
    rfl
  refine ⟨hknows, radixSortOccurrences_stable interner occurrences, hexact.ascending,
    hexact.mem_iff, ?_, fun groups hgroups => ?_⟩
  · apply groupsFrom_ne_error hfst
    rw [List.nil_append, hterms]
    exact hexact.ascending
  · obtain ⟨pieces, new, rfl, hpieces, hnew⟩ := exists_pieces hgroups
    rw [List.nil_append] at hpieces
    rw [← hterms, ← hpieces]
    apply groupsCover_of_pieces hnew
    rw [hpieces, hterms]
    exact hexact.ascending

/-- Occurrences of the terms of an interner are sorted stably by their terms. The entries of keys and
those of values have each term once, in strict order, with the rows and the positions of its
occurrences, and their groups are disjoint. -/
theorem occurrences_sorted_stably {fst : FstLib} (hfst : fst.InsertsAscending)
    (terms : List (List UInt8)) (keys : List KeyOccurrence) (values : List ValueOccurrence)
    (hkeys : ∀ a ∈ keys, a.termId.toNat < (TermInterner.filled terms).terms.length)
    (hvalues : ∀ a ∈ values, a.termId.toNat < (TermInterner.filled terms).terms.length) :
    SortsOccurrences fst (.filled terms) false keys (buildKeyEntries (.filled terms) keys) ∧
    (∀ entry ∈ buildKeyEntries (.filled terms) keys, ∀ row, row ∈ entry.2.rows ↔
      ∃ a ∈ keys, (TermInterner.filled terms).term a.termId = entry.1 ∧ a.row = row) ∧
    SortsOccurrences fst (.filled terms) true values (buildValueEntries (.filled terms) values) ∧
    ∀ entry ∈ buildValueEntries (.filled terms) values, ∀ row,
      (row ∈ entry.2.rows ↔
        ∃ a ∈ values, (TermInterner.filled terms).term a.termId = entry.1 ∧ a.row = row) ∧
      (entry.2.positionsByRow[row]?.isSome ↔ row ∈ entry.2.rows) ∧
      ∀ position, position ∈ entry.2.positions row ↔
        ∃ a ∈ values, (TermInterner.filled terms).term a.termId = entry.1 ∧ a.row = row ∧
          a.position = position := by
  have hsound := TermInterner.sound_filled terms
  have hkeysKnown (a : KeyOccurrence) (ha : a ∈ keys) := hsound.knows (hkeys a ha)
  have hvaluesKnown (a : ValueOccurrence) (ha : a ∈ values) := hsound.knows (hvalues a ha)
  refine ⟨sortsOccurrences false hfst hsound hkeysKnown, fun entry hentry row => ?_,
    sortsOccurrences true hfst hsound hvaluesKnown, fun entry hentry row => ?_⟩
  · rw [(buildEntries_exact hsound hkeysKnown).accumulator_eq hentry,
      KeyOccurrence.mem_rows_accumulate]
    simp only [List.mem_filter, decide_eq_true_eq, and_assoc]
    rfl
  · rw [(buildEntries_exact hsound hvaluesKnown).accumulator_eq hentry,
      ValueOccurrence.mem_rows_accumulate, ValueOccurrence.get_positions_accumulate]
    refine ⟨?_, Iff.rfl, fun position => ?_⟩
    · simp only [List.mem_filter, decide_eq_true_eq, and_assoc]
      rfl
    · rw [ValueOccurrence.mem_positions_accumulate]
      simp only [List.mem_filter, decide_eq_true_eq, and_assoc]
      rfl

/-- A library that keeps the keys takes those that are in order. -/
theorem FstLib.keyList_insertsAscending : FstLib.keyList.InsertsAscending := by
  refine ⟨fun keys => keys, rfl, fun keys key value hkeys => ?_⟩
  change List (List UInt8) at keys
  refine ⟨(keys ++ [key] : List (List UInt8)), if_pos ?_, rfl⟩
  rw [List.all_eq_true]
  intro other hother
  rw [hkeys other hother]
  rfl

/-- Three occurrences of two terms, the greater one interned first. -/
theorem occurrences_sorted_stably_three :
    SortsOccurrences .keyList (.filled [[98], [97], [98]]) false
      ([⟨0, 5⟩, ⟨1, 2⟩, ⟨0, 2⟩] : List KeyOccurrence) (buildKeyEntries (.filled [[98], [97], [98]])
        [⟨0, 5⟩, ⟨1, 2⟩, ⟨0, 2⟩]) :=
  (occurrences_sorted_stably FstLib.keyList_insertsAscending [[98], [97], [98]]
    [⟨0, 5⟩, ⟨1, 2⟩, ⟨0, 2⟩] [] (by decide) nofun).1

end KevinDb
