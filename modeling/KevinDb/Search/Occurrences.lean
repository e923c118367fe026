import KevinDb.Search.Evaluation

namespace KevinDb
set_option autoImplicit true
open Std

/-! Interners that know what was interned. -/

namespace TermInterner

variable {interner : TermInterner} {term : List UInt8} {termId : UInt32}

/-- A term that is looked up has the identifier of its bytes. -/
structure Exact (interner : TermInterner) : Prop where
  sound : interner.Sound
  found : ∀ term termId, interner.lookup[term]? = some termId →
    interner.Knows termId ∧ interner.term termId = term

theorem exact_empty : Exact .empty := by
  refine ⟨sound_empty, fun term termId h => ?_⟩
  simp [empty] at h

theorem length_terms_le (interner : TermInterner) (term : List UInt8) :
    interner.terms.length ≤ (interner.intern term).2.terms.length := by
  rw [intern]
  split
  · exact Nat.le_refl _
  · rw [List.length_append]
    exact Nat.le_add_right _ _

theorem length_terms_intern (interner : TermInterner) (term : List UInt8) :
    (interner.intern term).2.terms.length ≤ interner.terms.length + 1 := by
  rw [intern]
  split
  · exact Nat.le_succ _
  · rw [List.length_append, List.length_singleton]

/-- What was interned keeps its identifier. -/
theorem intern_keeps (h : interner.Knows termId) (term : List UInt8) :
    (interner.intern term).2.Knows termId ∧
      (interner.intern term).2.term termId = interner.term termId := by
  obtain ⟨start, stop, hget, hle, hwithin⟩ := h
  rw [intern]
  split
  · exact ⟨⟨start, stop, hget, hle, hwithin⟩, rfl⟩
  · have hget' : (interner.terms ++ [(interner.bytes.length,
        (interner.bytes ++ term).length)])[termId.toNat]? = some (start, stop) := by
      rw [List.getElem?_append_left (List.getElem?_eq_some_iff.1 hget).1, hget]
    refine ⟨⟨start, stop, hget', hle, hwithin.trans (by simp)⟩, ?_⟩
    rw [TermInterner.term, TermInterner.term, hget]
    simp only [hget']
    rw [List.drop_append_of_le_length (hle.trans hwithin),
      List.take_append_of_le_length (by rw [List.length_drop]; omega)]

/-- A term gets an identifier of its bytes, as long as there are identifiers left. -/
theorem Exact.intern (h : interner.Exact) (term : List UInt8)
    (hroom : (interner.intern term).2.terms.length ≤ 2 ^ 32) :
    (interner.intern term).2.Exact ∧ (interner.intern term).2.Knows (interner.intern term).1 ∧
      (interner.intern term).2.term (interner.intern term).1 = term := by
  cases hlookup : interner.lookup[term]? with
  | some termId =>
    obtain ⟨hknows, hterm⟩ := h.found term termId hlookup
    have hintern : interner.intern term = (termId, interner) := by
      rw [TermInterner.intern]
      simp only [hlookup]
    rw [hintern]
    exact ⟨h, hknows, hterm⟩
  | none =>
    have hsound := h.sound.intern term
    have hkeeps {termId : UInt32} (hknows : interner.Knows termId) :=
      intern_keeps hknows term
    have hintern : interner.intern term = (UInt32.ofNat (min interner.terms.length (2 ^ 32 - 1)),
        { bytes := interner.bytes ++ term
          terms := interner.terms ++ [(interner.bytes.length, (interner.bytes ++ term).length)]
          lookup := interner.lookup.insert term
            (UInt32.ofNat (min interner.terms.length (2 ^ 32 - 1))) }) := by
      rw [TermInterner.intern]
      simp only [hlookup]
    rw [hintern] at hroom hsound hkeeps ⊢
    dsimp only at hroom hsound hkeeps ⊢
    rw [List.length_append, List.length_singleton] at hroom
    have hid : (UInt32.ofNat (min interner.terms.length (2 ^ 32 - 1))).toNat =
        interner.terms.length := by
      rw [Nat.min_eq_left (by omega), UInt32.toNat_ofNat_of_lt' (by change _ < 2 ^ 32; omega)]
    have hget : (interner.terms ++ [(interner.bytes.length,
        (interner.bytes ++ term).length)])[(UInt32.ofNat (min interner.terms.length
          (2 ^ 32 - 1))).toNat]? = some (interner.bytes.length, (interner.bytes ++ term).length) := by
      rw [hid, List.getElem?_append_right (Nat.le_refl _), Nat.sub_self]
      rfl
    have hnew : TermInterner.Knows ⟨interner.bytes ++ term, interner.terms ++
        [(interner.bytes.length, (interner.bytes ++ term).length)], interner.lookup.insert term
          (UInt32.ofNat (min interner.terms.length (2 ^ 32 - 1)))⟩
        (UInt32.ofNat (min interner.terms.length (2 ^ 32 - 1))) :=
      ⟨_, _, hget, by simp, Nat.le_refl _⟩
    have hterm : TermInterner.term ⟨interner.bytes ++ term, interner.terms ++
        [(interner.bytes.length, (interner.bytes ++ term).length)], interner.lookup.insert term
          (UInt32.ofNat (min interner.terms.length (2 ^ 32 - 1)))⟩
        (UInt32.ofNat (min interner.terms.length (2 ^ 32 - 1))) = term := by
      rw [TermInterner.term]
      simp only [hget]
      rw [List.drop_left, List.length_append, Nat.add_sub_cancel_left, List.take_length]
    refine ⟨⟨hsound, fun other termId hother => ?_⟩, hnew, hterm⟩
    rw [Table.get_insert] at hother
    split at hother
    next heq =>
      cases hother
      exact ⟨hnew, hterm.trans heq⟩
    next hne =>
      obtain ⟨hknows, hsame⟩ := h.found other termId hother
      obtain ⟨hknows', hterm'⟩ := hkeeps hknows
      exact ⟨hknows', hterm'.trans hsame⟩

end TermInterner

/-! What is recorded of additions. -/

/-- The term of a path that is added, with its row. -/
def additionKey? : SearchAddition → Option (List UInt8 × UInt32)
  | .path row path => some (path.toUTF8.toList, row)
  | .valuePosition _ _ _ _ => none

/-- The term of a value that is added, with its row and position. -/
def additionValue? : SearchAddition → Option (List UInt8 × UInt32 × UInt32)
  | .path _ _ => none
  | .valuePosition row path token position => some (termValueKey token path, row, position)

namespace MutableSearchIndex

variable {index : MutableSearchIndex}

/-- There are identifiers for the terms. -/
def HasRoom (index : MutableSearchIndex) : Prop :=
  index.termKeys.terms.length ≤ 2 ^ 32 ∧ index.termValues.terms.length ≤ 2 ^ 32

theorem keyOccurrences_addPath (row : UInt32) (path : String) :
    (index.addPath row path).keyOccurrences =
      index.keyOccurrences ++ [⟨(index.termKeys.intern path.toUTF8.toList).1, row⟩] := rfl

theorem valueOccurrences_addValuePosition (row : UInt32) (path token : String)
    (position : UInt32) : (index.addValuePosition row path token position).valueOccurrences =
      index.valueOccurrences ++ [⟨(index.termValues.intern (token.toUTF8.toList ++
        keyValueSeparator :: path.toUTF8.toList)).1, row, position⟩] := rfl

/-- The occurrences are those of the additions. -/
structure Records (index : MutableSearchIndex) (additions : List SearchAddition) : Prop where
  exactKeys : index.termKeys.Exact
  exactValues : index.termValues.Exact
  knowsKeys : ∀ a ∈ index.keyOccurrences, index.termKeys.Knows (termId a)
  knowsValues : ∀ a ∈ index.valueOccurrences, index.termValues.Knows (termId a)
  keys : index.keyOccurrences.map (fun a => (index.termKeys.termOf a, a.row)) =
    additions.filterMap additionKey?
  values : index.valueOccurrences.map (fun a => (index.termValues.termOf a, a.row, a.position)) =
    additions.filterMap additionValue?

theorem HasRoom.of_add {addition : SearchAddition} (h : (index.add addition).HasRoom) :
    index.HasRoom := by
  cases addition with
  | path row path => exact ⟨(index.termKeys.length_terms_le _).trans h.1, h.2⟩
  | valuePosition row path token position =>
    exact ⟨h.1, (index.termValues.length_terms_le _).trans h.2⟩

theorem Records.addPath {additions : List SearchAddition} (h : index.Records additions)
    (row : UInt32) (path : String) (hroom : (index.addPath row path).HasRoom) :
    (index.addPath row path).Records (additions ++ [.path row path]) := by
  obtain ⟨hexact, hknows, hterm⟩ := h.exactKeys.intern _ hroom.1
  have hold {a : KeyOccurrence} (ha : a ∈ index.keyOccurrences) :=
    TermInterner.intern_keeps (h.knowsKeys a ha) path.toUTF8.toList
  refine ⟨hexact, h.exactValues, ?_, h.knowsValues, ?_, ?_⟩
  · exact List.forall_mem_append.2
      ⟨fun a ha => (hold ha).1, List.forall_mem_singleton.2 hknows⟩
  · rw [List.filterMap_append, ← h.keys]
    rw [keyOccurrences_addPath, List.map_append]
    congr 1
    · apply List.map_congr_left
      intro a ha
      exact congrArg (fun term => (term, a.row)) (hold ha).2
    · exact congrArg (fun term => [(term, row)]) hterm
  · rw [List.filterMap_append, ← h.values]
    exact (List.append_nil _).symm

theorem Records.addValuePosition {additions : List SearchAddition} (h : index.Records additions)
    (row : UInt32) (path token : String) (position : UInt32)
    (hroom : (index.addValuePosition row path token position).HasRoom) :
    (index.addValuePosition row path token position).Records
      (additions ++ [.valuePosition row path token position]) := by
  obtain ⟨hexact, hknows, hterm⟩ := h.exactValues.intern _ hroom.2
  have hold {a : ValueOccurrence} (ha : a ∈ index.valueOccurrences) :=
    TermInterner.intern_keeps (h.knowsValues a ha)
      (token.toUTF8.toList ++ keyValueSeparator :: path.toUTF8.toList)
  have hkey : token.toUTF8.toList ++ keyValueSeparator :: path.toUTF8.toList =
      termValueKey token path := by
    rw [termValueKey, termValuePrefix, List.append_assoc, List.singleton_append]
  refine ⟨h.exactKeys, hexact, h.knowsKeys, ?_, ?_, ?_⟩
  · exact List.forall_mem_append.2
      ⟨fun a ha => (hold ha).1, List.forall_mem_singleton.2 hknows⟩
  · rw [List.filterMap_append, ← h.keys]
    exact (List.append_nil _).symm
  · rw [List.filterMap_append, ← h.values]
    rw [valueOccurrences_addValuePosition, List.map_append]
    congr 1
    · apply List.map_congr_left
      intro a ha
      exact congrArg (fun term => (term, a.row, a.position)) (hold ha).2
    · exact congrArg (fun term => [(term, row, position)]) (hterm.trans hkey)

theorem records_foldl (rowCount : Nat) (additions : List SearchAddition)
    (hroom : (additions.foldl add (.new rowCount)).HasRoom) :
    (additions.foldl add (.new rowCount)).Records additions := by
  induction additions using List.reverseRecOn with
  | nil =>
    exact ⟨TermInterner.exact_empty, TermInterner.exact_empty, nofun, nofun, rfl, rfl⟩
  | append_singleton additions addition ih =>
    rw [List.foldl_append, List.foldl_cons, List.foldl_nil] at hroom ⊢
    have hrecords := ih hroom.of_add
    cases addition with
    | path row path => exact hrecords.addPath row path hroom
    | valuePosition row path token position =>
      exact hrecords.addValuePosition row path token position hroom

/-- No addition takes more than one identifier. -/
theorem hasRoom_foldl (rowCount : Nat) {additions : List SearchAddition}
    (hlength : additions.length ≤ 2 ^ 32) : (additions.foldl add (.new rowCount)).HasRoom := by
  have hterms : (additions.foldl add (.new rowCount)).termKeys.terms.length ≤ additions.length ∧
      (additions.foldl add (.new rowCount)).termValues.terms.length ≤ additions.length := by
    clear hlength
    induction additions using List.reverseRecOn with
    | nil => exact ⟨Nat.le_refl _, Nat.le_refl _⟩
    | append_singleton additions addition ih =>
      rw [List.foldl_append, List.foldl_cons, List.foldl_nil, List.length_append,
        List.length_singleton]
      cases addition with
      | path row path =>
        exact ⟨(TermInterner.length_terms_intern _ _).trans (Nat.succ_le_succ ih.1),
          Nat.le_succ_of_le ih.2⟩
      | valuePosition row path token position =>
        exact ⟨Nat.le_succ_of_le ih.1,
          (TermInterner.length_terms_intern _ _).trans (Nat.succ_le_succ ih.2)⟩
  exact ⟨hterms.1.trans hlength, hterms.2.trans hlength⟩

theorem rowCount_foldl (rowCount : Nat) (additions : List SearchAddition) :
    (additions.foldl add (.new rowCount)).rowCount = (new rowCount).rowCount := by
  induction additions using List.reverseRecOn with
  | nil => rfl
  | append_singleton additions addition ih =>
    rw [List.foldl_append, List.foldl_cons, List.foldl_nil, ← ih]
    cases addition <;> rfl

end MutableSearchIndex

/-! Entries of accumulators. -/

theorem toList_ascending (numbers : TreeSet UInt32) : numbers.toList.Pairwise (· < ·) := by
  apply TreeSet.ordered_toList.imp
  intro a b h
  exact compareOfLessAndEq_eq_lt.1 h

theorem positionsOf_ofAccumulator (term : List UInt8) (accumulator : TermAccumulator)
    (row : UInt32) : positionsOf (TermEntry.ofAccumulator term accumulator).positionsByRow row =
      (accumulator.positions row).toList := by
  rw [positionsOf, TermEntry.ofAccumulator, TermAccumulator.positions]
  simp only [TreeMap.getElem?_map]
  cases accumulator.positionsByRow[row]? with
  | none => rfl
  | some positions => rfl

theorem TermEntry.ordered_ofAccumulator {term : List UInt8} {accumulator : TermAccumulator}
    (hcount : ∀ row, (accumulator.positions row).toList.length < 2 ^ 32) :
    (TermEntry.ofAccumulator term accumulator).Ordered := by
  refine ⟨toList_ascending accumulator.rows, fun row _ => ?_⟩
  rw [positionsOf_ofAccumulator]
  exact ⟨toList_ascending _, hcount row⟩

/-- The entries of terms and accumulators. -/
def termEntries (terms : List (List UInt8 × TermAccumulator)) : List TermEntry :=
  terms.map fun entry => .ofAccumulator entry.1 entry.2

theorem map_term_termEntries (terms : List (List UInt8 × TermAccumulator)) :
    (termEntries terms).map TermEntry.term = terms.map Prod.fst := by
  rw [termEntries, List.map_map]
  rfl

section entries

variable [TermOccurrence α] {interner : TermInterner}
  {addTo : α → TermAccumulator → TermAccumulator} {occurrences : List α}
  {terms : List (List UInt8 × TermAccumulator)}

/-- There is an entry for a property of the occurrences of its term. -/
theorem exists_termEntry (hexact : EntriesExact interner addTo occurrences terms)
    {P : TermEntry → Prop} {Q : α → Prop}
    (h : ∀ entry ∈ terms, P (.ofAccumulator entry.1 entry.2) ↔
      ∃ a ∈ occurrences, interner.termOf a = entry.1 ∧ Q a) (term : List UInt8) :
    (∃ entry ∈ termEntries terms, entry.term = term ∧ P entry) ↔
      ∃ a ∈ occurrences, interner.termOf a = term ∧ Q a := by
  constructor
  · rintro ⟨_, hentry, rfl, hP⟩
    obtain ⟨entry, hin, rfl⟩ := List.mem_map.1 hentry
    exact (h entry hin).1 hP
  · rintro ⟨a, ha, rfl, hQ⟩
    obtain ⟨entry, hentry, hterm⟩ := List.mem_map.1 ((hexact.mem_iff _).2 ⟨a, ha, rfl⟩)
    exact ⟨_, List.mem_map_of_mem hentry, hterm,
      (h entry hentry).2 ⟨a, ha, hterm.symm, hQ⟩⟩

end entries

theorem mem_rows_keyEntry {interner : TermInterner} {occurrences : List KeyOccurrence}
    {terms : List (List UInt8 × TermAccumulator)}
    (hexact : EntriesExact interner KeyOccurrence.addTo occurrences terms)
    {entry : List UInt8 × TermAccumulator} (hentry : entry ∈ terms) (row : UInt32) :
    row ∈ (TermEntry.ofAccumulator entry.1 entry.2).rows ↔
      ∃ a ∈ occurrences, interner.termOf a = entry.1 ∧ a.row = row := by
  rw [TermEntry.ofAccumulator, TreeSet.mem_toList, hexact.accumulator_eq hentry,
    KeyOccurrence.mem_rows_accumulate]
  simp only [List.mem_filter, decide_eq_true_eq, and_assoc]

theorem mem_rows_valueEntry {interner : TermInterner} {occurrences : List ValueOccurrence}
    {terms : List (List UInt8 × TermAccumulator)}
    (hexact : EntriesExact interner ValueOccurrence.addTo occurrences terms)
    {entry : List UInt8 × TermAccumulator} (hentry : entry ∈ terms) (row : UInt32) :
    row ∈ (TermEntry.ofAccumulator entry.1 entry.2).rows ↔
      ∃ a ∈ occurrences, interner.termOf a = entry.1 ∧ a.row = row := by
  rw [TermEntry.ofAccumulator, TreeSet.mem_toList, hexact.accumulator_eq hentry,
    ValueOccurrence.mem_rows_accumulate]
  simp only [List.mem_filter, decide_eq_true_eq, and_assoc]

theorem mem_positions_valueEntry {interner : TermInterner} {occurrences : List ValueOccurrence}
    {terms : List (List UInt8 × TermAccumulator)}
    (hexact : EntriesExact interner ValueOccurrence.addTo occurrences terms)
    {entry : List UInt8 × TermAccumulator} (hentry : entry ∈ terms) (row position : UInt32) :
    position ∈ positionsOf (TermEntry.ofAccumulator entry.1 entry.2).positionsByRow row ↔
      ∃ a ∈ occurrences, interner.termOf a = entry.1 ∧ a.row = row ∧ a.position = position := by
  rw [positionsOf_ofAccumulator, TreeSet.mem_toList, hexact.accumulator_eq hentry,
    ValueOccurrence.mem_positions_accumulate]
  simp only [List.mem_filter, decide_eq_true_eq, and_assoc]

/-- Keys have no positions. -/
theorem positions_keys (occurrences : List KeyOccurrence) (row : UInt32) :
    (accumulate KeyOccurrence.addTo occurrences).positions row = ∅ := by
  have hnone : (accumulate KeyOccurrence.addTo occurrences).positionsByRow = ∅ := by
    induction occurrences using List.reverseRecOn with
    | nil => rfl
    | append_singleton occurrences occurrence ih =>
      rw [accumulate_append, KeyOccurrence.addTo, ih]
  rw [TermAccumulator.positions, hnone]
  simp

/-- A row has no more positions than there are occurrences. -/
theorem length_positions_le {interner : TermInterner} {occurrences : List ValueOccurrence}
    {terms : List (List UInt8 × TermAccumulator)}
    (hexact : EntriesExact interner ValueOccurrence.addTo occurrences terms)
    {entry : List UInt8 × TermAccumulator} (hentry : entry ∈ terms) (row : UInt32) :
    (entry.2.positions row).toList.length ≤ occurrences.length := by
  have hsubset : (entry.2.positions row).toList ⊆ occurrences.map ValueOccurrence.position := by
    intro position hposition
    rw [← positionsOf_ofAccumulator entry.1] at hposition
    obtain ⟨a, ha, -, -, rfl⟩ := (mem_positions_valueEntry hexact hentry row position).1 hposition
    exact List.mem_map_of_mem ha
  have hnodup : (entry.2.positions row).toList.Nodup :=
    (toList_ascending _).imp UInt32.ne_of_lt
  have hlength := (hnodup.subperm hsubset).length_le
  rwa [List.length_map] at hlength

/-! The index of additions. -/

/-- The index has the terms of the additions. -/
structure SearchIndex.Indexes (fst : FstMaps) (index : SearchIndex)
    (additions : List SearchAddition) : Prop where
  keys : ∃ entries, GroupsHold fst false index.termKeyGroups entries ∧
    ∀ term row, (∃ entry ∈ entries, entry.term = term ∧ row ∈ entry.rows) ↔
      (term, row) ∈ additions.filterMap additionKey?
  values : ∃ entries, GroupsHold fst true index.termValueGroups entries ∧
    (∀ term row position, (∃ entry ∈ entries, entry.term = term ∧ row ∈ entry.rows ∧
      position ∈ positionsOf entry.positionsByRow row) ↔
        (term, row, position) ∈ additions.filterMap additionValue?) ∧
    ∀ entry ∈ entries, entry.rows ≠ [] ∧
      ∀ row ∈ entry.rows, positionsOf entry.positionsByRow row ≠ []

theorem groupsHold_of_buildRowGroups {fst : FstMaps} {built : Bool}
    {terms : List (List UInt8 × TermAccumulator)} {groups : List SearchRowGroup}
    (h : buildRowGroups fst.toFstLib built terms = .ok groups)
    (hascending : Ascending (terms.map Prod.fst))
    (hordered : ∀ entry ∈ termEntries terms, entry.Ordered) :
    GroupsHold fst built groups (termEntries terms) := by
  rw [buildRowGroups] at h
  obtain ⟨pieces, new, rfl, hpieces, hnew⟩ := exists_pieces h
  exact ⟨⟨pieces, hpieces, hnew.imp fun _ _ hgroup => hgroup.2⟩,
    map_term_termEntries terms ▸ hascending, hordered⟩

/-- An index that is built of additions has their terms. -/
theorem indexes_of_finish {fst : FstMaps} {rowCount : Nat} {additions : List SearchAddition}
    {index : SearchIndex} (hadditions : additions.length < 2 ^ 32)
    (h : (additions.foldl MutableSearchIndex.add (.new rowCount)).finish fst.toFstLib =
      .ok index) :
    index.rowCount = (MutableSearchIndex.new rowCount).rowCount ∧ index.Indexes fst additions := by
  have hrecords := MutableSearchIndex.records_foldl rowCount additions
    (MutableSearchIndex.hasRoom_foldl rowCount hadditions.le)
  have hrowCount := MutableSearchIndex.rowCount_foldl rowCount additions
  generalize additions.foldl MutableSearchIndex.add (.new rowCount) = builder at *
  rw [MutableSearchIndex.finish] at h
  obtain ⟨keyGroups, hkeyGroups, h⟩ := Outcome.bind_eq_ok_iff.1 h
  obtain ⟨valueGroups, hvalueGroups, h⟩ := Outcome.bind_eq_ok_iff.1 h
  cases h
  have hkeys : EntriesExact _ KeyOccurrence.addTo _
      (buildKeyEntries builder.termKeys builder.keyOccurrences) :=
    buildEntries_exact hrecords.exactKeys.sound hrecords.knowsKeys
  have hvalues : EntriesExact _ ValueOccurrence.addTo _
      (buildValueEntries builder.termValues builder.valueOccurrences) :=
    buildEntries_exact hrecords.exactValues.sound hrecords.knowsValues
  have hoccurrences : builder.valueOccurrences.length < 2 ^ 32 := by
    have hlength := congrArg List.length hrecords.values
    have hle := List.length_filterMap_le additionValue? additions
    rw [List.length_map] at hlength
    omega
  refine ⟨hrowCount, ⟨_, groupsHold_of_buildRowGroups hkeyGroups hkeys.ascending ?_, ?_⟩,
    _, groupsHold_of_buildRowGroups hvalueGroups hvalues.ascending ?_, ?_, ?_⟩
  · intro _ hentry
    obtain ⟨entry, hin, rfl⟩ := List.mem_map.1 hentry
    apply TermEntry.ordered_ofAccumulator
    intro row
    rw [hkeys.accumulator_eq hin, positions_keys]
    exact Nat.two_pow_pos 32
  · intro term row
    have hrows (entry) (hentry : entry ∈ buildKeyEntries builder.termKeys builder.keyOccurrences) :=
      mem_rows_keyEntry hkeys hentry row
    rw [exists_termEntry hkeys hrows, ← hrecords.keys]
    simp only [List.mem_map, Prod.mk.injEq]
  · intro _ hentry
    obtain ⟨entry, hin, rfl⟩ := List.mem_map.1 hentry
    apply TermEntry.ordered_ofAccumulator
    intro row
    exact (length_positions_le hvalues hin row).trans_lt hoccurrences
  · intro term row position
    have hpositions (entry)
        (hentry : entry ∈ buildValueEntries builder.termValues builder.valueOccurrences) :
        (row ∈ (TermEntry.ofAccumulator entry.1 entry.2).rows ∧
          position ∈ positionsOf (TermEntry.ofAccumulator entry.1 entry.2).positionsByRow row) ↔
        ∃ a ∈ builder.valueOccurrences, builder.termValues.termOf a = entry.1 ∧
          a.row = row ∧ a.position = position := by
      rw [mem_positions_valueEntry hvalues hentry, mem_rows_valueEntry hvalues hentry]
      apply and_iff_right_of_imp
      rintro ⟨a, ha, hterm, hrow, -⟩
      exact ⟨a, ha, hterm, hrow⟩
    rw [exists_termEntry hvalues hpositions, ← hrecords.values]
    simp only [List.mem_map, Prod.mk.injEq]
  · intro _ hentry
    obtain ⟨entry, hin, rfl⟩ := List.mem_map.1 hentry
    refine ⟨fun hnil => ?_, fun row hrow hnil => ?_⟩
    · obtain ⟨a, ha, hterm⟩ := (hvalues.mem_iff _).1 (List.mem_map_of_mem hin)
      have hrow := (mem_rows_valueEntry hvalues hin a.row).2 ⟨a, ha, hterm, rfl⟩
      rw [hnil] at hrow
      cases hrow
    · obtain ⟨a, ha, hterm, hrow⟩ := (mem_rows_valueEntry hvalues hin row).1 hrow
      have hposition :=
        (mem_positions_valueEntry hvalues hin row a.position).2 ⟨a, ha, hterm, hrow, rfl⟩
      rw [hnil] at hposition
      cases hposition

end KevinDb
