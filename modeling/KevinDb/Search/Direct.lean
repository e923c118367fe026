import KevinDb.Search.Records

namespace KevinDb
set_option autoImplicit true
open Std

/-! The direct evaluation on a record. -/

section direct

variable (reader : JsonReader) (record : SpanRecord)

def recordPaths : List String :=
  (builtinTexts record).map Prod.fst ++
    (indexedLeaves reader record.attributesJson).map JsonLeafRef.path

/-- The tokens of a value of a leaf that is at a path. -/
def leafLine? (path : String) (leaf : JsonLeafRef) : Option (List String) :=
  if leaf.path = path then leaf.value.map fun value => tokensForText (boundedValue value) else none

/-- The tokens of the field that is indexed under a path. -/
def builtinLine (path : String) : List String :=
  ((builtinTexts record).filter (·.1 = path)).flatMap fun entry => tokensForText entry.2

/-- The tokens at a path, a line for each leaf. The first leaf at the name of a field goes on in the
line of that field. -/
def recordLines (path : String) : List (List String) :=
  joinFirst (builtinLine record path)
    ((indexedLeaves reader record.attributesJson).filterMap (leafLine? path))

/-- A line at a path of the field has the words, one behind the other. -/
def hasWords (field : SearchField) (words : List String) : Bool :=
  (recordPaths reader record).any fun path =>
    field.matchesPath path && (recordLines reader record path).any (words <:+: ·)

def recordRow : SearchRow where
  text field query :=
    !query.isEmpty && query.terms.all (fun term => hasWords reader record field [term]) &&
      query.phrases.all (hasWords reader record field)
  exactValue field value :=
    byteLength value.toList ≤ maxIndexedValueBytes &&
      (indexedLeaves reader record.attributesJson).any fun leaf =>
        field.matchesPath leaf.path && leaf.value = some value
  jsonKey pattern :=
    (recordPaths reader record).any (pathMatchesPattern · (normalizeLikePattern pattern))

end direct

/-! The cells of a record. -/

/-- The cell of an event at a path. -/
def cellAt? (path : String) : IndexEvent → Option (Option String)
  | .token path' token => if path' = path then some (some token) else none
  | .gap path' => if path' = path then some none else none
  | _ => none

theorem filterMap_cell (row row' : UInt32) (path : String) (events : List IndexEvent) :
    eventCells (events.map (row, ·)) (row', path) =
      if row = row' then events.filterMap (cellAt? path) else [] := by
  have hcell (event : IndexEvent) : cell? (row', path) (row, event) =
      if row = row' then cellAt? path event else none := by
    cases event with
    | path => exact (ite_self none).symm
    | exactValue => exact (ite_self none).symm
    | token path' token =>
      rw [cell?, cellAt?]
      simp only [Prod.mk.injEq, ite_and]
    | gap path' =>
      rw [cell?, cellAt?]
      simp only [Prod.mk.injEq, ite_and]
  rw [eventCells, List.filterMap_map]
  split
  next h => exact List.filterMap_congr fun event _ => (hcell event).trans (if_pos h)
  next h =>
    rw [List.filterMap_eq_nil_iff]
    exact fun event _ => (hcell event).trans (if_neg h)

theorem filterMap_textEvents (path path' value : String) :
    (textEvents path' value).filterMap (cellAt? path) =
      if path' = path then (tokensForText value).map some else [] := by
  rw [textEvents, List.filterMap_cons_none rfl, List.filterMap_map]
  split
  next h =>
    rw [← List.filterMap_eq_map]
    exact List.filterMap_congr fun token _ => if_pos h
  next h =>
    rw [List.filterMap_eq_nil_iff]
    exact fun token _ => if_neg h

theorem filterMap_leafEvents (path : String) (leaf : JsonLeafRef) :
    (leafEvents leaf).filterMap (cellAt? path) =
      (leafLine? path leaf).elim [] fun line => line.map some ++ [none] := by
  have hgap : cellAt? path (.gap leaf.path) = if leaf.path = path then some none else none := rfl
  rw [leafEvents, leafLine?]
  cases leaf.value with
  | none =>
    rw [Option.map_none, ite_self]
    rfl
  | some value =>
    have hexact : (if byteLength value.toList ≤ maxIndexedValueBytes then
        [IndexEvent.exactValue leaf.path value] else []).filterMap (cellAt? path) = [] := by
      split
      · rfl
      · rfl
    dsimp only
    rw [List.filterMap_append, List.filterMap_append, hexact, List.nil_append,
      filterMap_textEvents, Option.map_some]
    split
    next h =>
      rw [List.filterMap_cons_some (hgap.trans (if_pos h))]
      rfl
    next h =>
      rw [List.filterMap_cons_none (hgap.trans (if_neg h))]
      rfl

/-- The cells at a path: those of the field, and a line for each leaf. -/
theorem filterMap_recordEvents (reader : JsonReader) (record : SpanRecord) (path : String) :
    (recordEvents reader record).filterMap (cellAt? path) =
      (builtinLine record path).map some ++
        cellsOf ((indexedLeaves reader record.attributesJson).filterMap (leafLine? path)) := by
  have hbuiltin (texts : List (String × String)) :
      (texts.flatMap fun entry => textEvents entry.1 entry.2).filterMap (cellAt? path) =
        ((texts.filter (·.1 = path)).flatMap fun entry => tokensForText entry.2).map some := by
    induction texts with
    | nil => rfl
    | cons entry texts ih =>
      rw [List.flatMap_cons, List.filterMap_append, ih, filterMap_textEvents, List.filter_cons]
      by_cases h : entry.1 = path
      · rw [if_pos h, if_pos (decide_eq_true h), List.flatMap_cons, List.map_append]
      · rw [if_neg h, if_neg (by simpa using h), List.nil_append]
  have hleaves (leaves : List JsonLeafRef) :
      (leaves.flatMap leafEvents).filterMap (cellAt? path) =
        cellsOf (leaves.filterMap (leafLine? path)) := by
    induction leaves with
    | nil => rfl
    | cons leaf leaves ih =>
      rw [List.flatMap_cons, List.filterMap_append, ih, filterMap_leafEvents]
      cases hline : leafLine? path leaf with
      | none =>
        rw [List.filterMap_cons_none hline]
        rfl
      | some line =>
        rw [List.filterMap_cons_some hline]
        rfl
  rw [recordEvents, List.filterMap_append, hbuiltin, hleaves, builtinLine]

/-! The rows of the records. -/

section rows

variable {reader : JsonReader} {records : List SpanRecord}

/-- The events of a row are those of its record. -/
theorem mem_indexEvents (hcount : records.length < 2 ^ 32) {row : UInt32} {event : IndexEvent} :
    (row, event) ∈ indexEvents reader records ↔
      ∃ record, records[row.toNat]? = some record ∧ event ∈ recordEvents reader record := by
  rw [indexEvents, List.mem_flatMap]
  constructor
  · rintro ⟨⟨record, place⟩, hentry, hevent⟩
    obtain ⟨event', hin, heq⟩ := List.mem_map.1 hevent
    obtain ⟨rfl, rfl⟩ := Prod.mk.inj heq
    have hget := List.mem_zipIdx_iff_getElem?.1 hentry
    obtain ⟨hlt, -⟩ := List.getElem?_eq_some_iff.1 hget
    dsimp only at hlt hget
    refine ⟨record, ?_, hin⟩
    rw [min_eq_left (by omega), UInt32.toNat_ofNat_of_lt' (by change place < 2 ^ 32; omega)]
    exact hget
  · rintro ⟨record, hget, hin⟩
    refine ⟨(record, row.toNat), List.mem_zipIdx_iff_getElem?.2 hget, ?_⟩
    have hrow := row.toNat_lt
    rw [List.mem_map]
    refine ⟨event, hin, ?_⟩
    dsimp only
    rw [min_eq_left (by omega), UInt32.ofNat_toNat]

/-- The cells of a row are those of its record. -/
theorem eventCells_indexEvents (hcount : records.length < 2 ^ 32) (row : UInt32) (path : String) :
    eventCells (indexEvents reader records) (row, path) =
      (records[row.toNat]?.map fun record =>
        (recordEvents reader record).filterMap (cellAt? path)).getD [] := by
  have hrow := row.toNat_lt
  have hentries (start : Nat) (rest : List SpanRecord) (hend : start + rest.length < 2 ^ 32) :
      eventCells ((rest.zipIdx start).flatMap fun entry =>
        (recordEvents reader entry.1).map (UInt32.ofNat (min entry.2 (2 ^ 32 - 1)), ·)) (row, path) =
          if start ≤ row.toNat then (rest[row.toNat - start]?.map fun record =>
            (recordEvents reader record).filterMap (cellAt? path)).getD [] else [] := by
    induction rest generalizing start with
    | nil => simp [eventCells]
    | cons record rest ih =>
      rw [List.length_cons] at hend
      rw [List.zipIdx_cons, List.flatMap_cons, eventCells, List.filterMap_append, ← eventCells,
        ← eventCells, filterMap_cell, ih (start + 1) (by omega), min_eq_left (by omega)]
      have hsame : UInt32.ofNat start = row ↔ start = row.toNat := by
        rw [← UInt32.toNat_inj, UInt32.toNat_ofNat_of_lt' (by change start < 2 ^ 32; omega)]
      simp only [hsame]
      obtain hlt | rfl | hgt := Nat.lt_trichotomy start row.toNat
      · have hplace : row.toNat - start = row.toNat - (start + 1) + 1 := by omega
        rw [if_neg hlt.ne, if_pos (Nat.succ_le_of_lt hlt), if_pos hlt.le, hplace, List.getElem?_cons_succ,
          List.nil_append]
      · simp
      · rw [if_neg hgt.ne', if_neg (by omega), if_neg (by omega), List.nil_append]
  rw [indexEvents, hentries 0 records (by omega), if_pos (Nat.zero_le _), Nat.sub_zero]

end rows

/-! How many cells there are. -/

/-- A path has no more cells than the events add. -/
def FewCells (events : List IndexEvent) : Prop :=
  ∀ path, (events.filterMap (cellAt? path)).length ≤ events.countP IndexEvent.isAddition

theorem FewCells.append {events events' : List IndexEvent} (h : FewCells events)
    (h' : FewCells events') : FewCells (events ++ events') := by
  intro path
  rw [List.filterMap_append, List.length_append, List.countP_append]
  exact Nat.add_le_add (h path) (h' path)

theorem FewCells.flatMap {entries : List α} {f : α → List IndexEvent}
    (h : ∀ entry ∈ entries, FewCells (f entry)) : FewCells (entries.flatMap f) := by
  induction entries with
  | nil => exact fun _ => Nat.le_refl 0
  | cons entry entries ih =>
    rw [List.forall_mem_cons] at h
    rw [List.flatMap_cons]
    exact h.1.append (ih h.2)

/-- The path of a text leaves place for one more cell. -/
theorem length_textEvents (path path' value : String) :
    ((textEvents path' value).filterMap (cellAt? path)).length <
      (textEvents path' value).countP IndexEvent.isAddition := by
  have hcount : (textEvents path' value).countP IndexEvent.isAddition =
      (tokensForText value).length + 1 := by
    rw [textEvents, List.countP_cons_of_pos rfl, List.countP_map]
    exact congrArg (· + 1) (List.countP_eq_length.2 fun _ _ => rfl)
  rw [hcount, filterMap_textEvents]
  split
  · rw [List.length_map]
    exact Nat.lt_succ_self _
  · exact Nat.succ_pos _

theorem fewCells_leafEvents (leaf : JsonLeafRef) : FewCells (leafEvents leaf) := by
  intro path
  rw [leafEvents]
  cases leaf.value with
  | none => exact Nat.zero_le 1
  | some value =>
    have htext := length_textEvents path leaf.path (boundedValue value)
    have hgap : ([IndexEvent.gap leaf.path].filterMap (cellAt? path)).length ≤ 1 :=
      List.length_filterMap_le _ _
    have hexact : (if byteLength value.toList ≤ maxIndexedValueBytes then
        [IndexEvent.exactValue leaf.path value] else []).filterMap (cellAt? path) = [] := by
      split
      · rfl
      · rfl
    dsimp only
    rw [List.filterMap_append, List.filterMap_append, hexact, List.length_append,
      List.countP_append, List.countP_append, List.nil_append]
    omega

theorem fewCells_recordEvents (reader : JsonReader) (record : SpanRecord) :
    FewCells (recordEvents reader record) := by
  rw [recordEvents]
  apply FewCells.append
  · exact .flatMap fun entry _ path => (length_textEvents path entry.1 entry.2).le
  · exact .flatMap fun leaf _ => fewCells_leafEvents leaf

theorem countP_indexEvents (reader : JsonReader) (records : List SpanRecord) :
    (indexEvents reader records).countP (·.2.isAddition) =
      (records.map fun record => (recordEvents reader record).countP IndexEvent.isAddition).sum := by
  have hmap : records.zipIdx.map Prod.fst = records := List.zipIdx_map_fst 0 records
  have hcount (row : UInt32) (events : List IndexEvent) :
      (events.map (row, ·)).countP (·.2.isAddition) = events.countP IndexEvent.isAddition :=
    List.countP_map
  rw [indexEvents, List.countP_flatMap]
  conv_rhs => rw [← hmap, List.map_map]
  apply congrArg
  apply List.map_congr_left
  exact fun entry _ => hcount _ _

section sizes

variable {reader : JsonReader} {records : List SpanRecord}

theorem length_le_countP (reader : JsonReader) (records : List SpanRecord) :
    records.length ≤ (indexEvents reader records).countP (·.2.isAddition) := by
  rw [countP_indexEvents]
  have hone : ∀ n ∈ records.map fun record =>
      (recordEvents reader record).countP IndexEvent.isAddition, 1 ≤ n := by
    intro n hn
    obtain ⟨record, -, rfl⟩ := List.mem_map.1 hn
    rw [recordEvents, builtinTexts, List.flatMap_cons, List.countP_append, List.countP_append]
    exact (Nat.lt_of_le_of_lt (Nat.zero_le _) (length_textEvents "" _ _)).trans_le
      ((Nat.le_add_right _ _).trans (Nat.le_add_right _ _))
  calc records.length
    _ = _ := (List.length_map _).symm
    _ ≤ _ := List.length_le_sum_of_one_le _ hone

theorem length_eventCells_le (hcount : records.length < 2 ^ 32) (rowPath : RowPath) :
    (eventCells (indexEvents reader records) rowPath).length ≤
      (indexEvents reader records).countP (·.2.isAddition) := by
  obtain ⟨row, path⟩ := rowPath
  rw [eventCells_indexEvents hcount, countP_indexEvents]
  cases hget : records[row.toNat]? with
  | none => exact Nat.zero_le _
  | some record =>
    have hmem := List.mem_map_of_mem (f := fun record =>
      (recordEvents reader record).countP IndexEvent.isAddition) (List.mem_of_getElem? hget)
    exact (fewCells_recordEvents reader record path).trans
      (List.single_le_sum (fun _ _ => Nat.zero_le _) _ hmem)

end sizes

/-- Each addition is an occurrence. -/
theorem MutableSearchIndex.length_occurrences (rowCount : Nat) (additions : List SearchAddition) :
    (additions.foldl MutableSearchIndex.add (.new rowCount)).keyOccurrences.length +
      (additions.foldl MutableSearchIndex.add (.new rowCount)).valueOccurrences.length =
        additions.length := by
  induction additions using List.reverseRecOn with
  | nil => rfl
  | append_singleton additions addition ih =>
    rw [List.foldl_append, List.foldl_cons, List.foldl_nil, List.length_append, ← ih,
      List.length_singleton]
    cases addition with
    | path row path =>
      rw [MutableSearchIndex.add, MutableSearchIndex.addPath]
      dsimp only
      rw [List.length_append, List.length_singleton]
      omega
    | valuePosition row path token position =>
      rw [MutableSearchIndex.add, MutableSearchIndex.addValuePosition]
      dsimp only
      rw [List.length_append, List.length_singleton, Nat.add_assoc]

/-! What the additions say of a record. -/

theorem mem_recordPaths {reader : JsonReader} {record : SpanRecord} {path : String} :
    .path path ∈ recordEvents reader record ↔ path ∈ recordPaths reader record := by
  have htext (path' value : String) :
      IndexEvent.path path ∈ textEvents path' value ↔ path = path' := by
    simp [textEvents]
  have hleaf (leaf : JsonLeafRef) : IndexEvent.path path ∈ leafEvents leaf ↔ path = leaf.path := by
    rw [leafEvents]
    cases leaf.value with
    | none => simp
    | some value =>
      dsimp only
      rw [List.mem_append, List.mem_append, htext]
      split
      · simp
      · simp
  rw [recordEvents, recordPaths, List.mem_append, List.mem_append, List.mem_flatMap,
    List.mem_flatMap, List.mem_map, List.mem_map]
  simp only [htext, hleaf, eq_comm]

theorem mem_recordEvents_exactValue {reader : JsonReader} {record : SpanRecord}
    {path value : String} : .exactValue path value ∈ recordEvents reader record ↔
      byteLength value.toList ≤ maxIndexedValueBytes ∧
        ∃ leaf ∈ indexedLeaves reader record.attributesJson, leaf.path = path ∧
          leaf.value = some value := by
  have htext (path' value' : String) :
      IndexEvent.exactValue path value ∉ textEvents path' value' := by
    simp [textEvents]
  have hleaf (leaf : JsonLeafRef) : IndexEvent.exactValue path value ∈ leafEvents leaf ↔
      byteLength value.toList ≤ maxIndexedValueBytes ∧ leaf.path = path ∧
        leaf.value = some value := by
    rw [leafEvents]
    cases leaf.value with
    | none => simp
    | some value' =>
      dsimp only
      rw [List.mem_append, List.mem_append, or_iff_left (by simp), or_iff_left (htext _ _)]
      split
      next hlength =>
        rw [List.mem_singleton, IndexEvent.exactValue.injEq, Option.some.injEq]
        constructor
        · rintro ⟨rfl, rfl⟩
          exact ⟨hlength, rfl, rfl⟩
        · rintro ⟨-, rfl, rfl⟩
          exact ⟨rfl, rfl⟩
      next hlength =>
        refine iff_of_false (List.not_mem_nil) ?_
        rintro ⟨hle, -, heq⟩
        cases heq
        exact hlength hle
  rw [recordEvents, List.mem_append, List.mem_flatMap, List.mem_flatMap]
  simp only [htext, hleaf, and_false, exists_false, false_or]
  constructor
  · rintro ⟨leaf, hin, hlength, hpath, hvalue⟩
    exact ⟨hlength, leaf, hin, hpath, hvalue⟩
  · rintro ⟨hlength, leaf, hin, hpath, hvalue⟩
    exact ⟨leaf, hin, hlength, hpath, hvalue⟩

/-- A token is a word, and its path is written, too. -/
theorem of_token_mem_recordEvents {reader : JsonReader} {record : SpanRecord} {path token : String}
    (h : .token path token ∈ recordEvents reader record) :
    WordToken token ∧ .path path ∈ recordEvents reader record := by
  have htext (path' value : String) (h : .token path token ∈ textEvents path' value) :
      WordToken token ∧ .path path ∈ textEvents path' value := by
    rw [textEvents, List.mem_cons, or_iff_right (by simp), List.mem_map] at h
    obtain ⟨found, hfound, heq⟩ := h
    cases heq
    exact ⟨word_tokensForText value _ hfound, List.mem_cons_self⟩
  rw [recordEvents, List.mem_append, List.mem_flatMap, List.mem_flatMap] at h
  rw [recordEvents, List.mem_append, List.mem_flatMap, List.mem_flatMap]
  obtain ⟨entry, hentry, h⟩ | ⟨leaf, hin, h⟩ := h
  · exact ⟨(htext _ _ h).1, .inl ⟨entry, hentry, (htext _ _ h).2⟩⟩
  · rw [leafEvents] at h
    cases hvalue : leaf.value with
    | none =>
      rw [hvalue] at h
      simp at h
    | some value =>
      rw [hvalue] at h
      dsimp only at h
      rw [List.mem_append, List.mem_append, or_iff_left (by simp)] at h
      obtain h | h := h
      · split at h
        · simp at h
        · cases h
      · refine ⟨(htext _ _ h).1, .inr ⟨leaf, hin, ?_⟩⟩
        rw [leafEvents, hvalue]
        exact List.mem_append_left _ (List.mem_append_right _ (htext _ _ h).2)

section additions

variable {reader : JsonReader} {records : List SpanRecord} {builder : SearchIndexBuilder}
  {rowCount : Nat} {additions : List SearchAddition}

/-- The cells of a record at a path. -/
def recordCells (reader : JsonReader) (record : SpanRecord) (path : String) :
    List (Option String) := (recordEvents reader record).filterMap (cellAt? path)

theorem of_mem_recordCells {record : SpanRecord} {path token : String}
    (h : some token ∈ recordCells reader record path) :
    WordToken token ∧ path ∈ recordPaths reader record := by
  obtain ⟨event, hevent, hcell⟩ := List.mem_filterMap.1 h
  cases event with
  | path => cases hcell
  | exactValue => cases hcell
  | token path' token' =>
    rw [cellAt?] at hcell
    split at hcell
    next hpath =>
      cases hcell
      cases hpath
      obtain ⟨hword, hin⟩ := of_token_mem_recordEvents hevent
      exact ⟨hword, mem_recordPaths.1 hin⟩
    · cases hcell
  | gap path' =>
    rw [cellAt?] at hcell
    split at hcell
    · cases hcell
    · cases hcell

/-- The cells of a record hold words where its lines do. -/
theorem infix_recordCells {record : SpanRecord} {path : String} {words : List String}
    (hne : words ≠ []) : words.map some <:+: recordCells reader record path ↔
      ∃ line ∈ recordLines reader record path, words <:+: line := by
  rw [recordCells, filterMap_recordEvents, infix_append_cellsOf hne, recordLines]

/-- How the additions of the records read. -/
structure AddsRecords (reader : JsonReader) (records : List SpanRecord)
    (additions : List SearchAddition) : Prop where
  paths (row : UInt32) (path : String) : .path row path ∈ additions ↔
    ∃ record, records[row.toNat]? = some record ∧ path ∈ recordPaths reader record
  values (row : UInt32) (path token : String) (position : UInt32) :
    .valuePosition row path token position ∈ additions ↔
      ∃ record, records[row.toNat]? = some record ∧
        ((position = 0 ∧ ∃ value, .exactValue path value ∈ recordEvents reader record ∧
          token = exactValueToken value) ∨
            (recordCells reader record path)[position.toNat]? = some (some token))
  cells (record : SpanRecord) (h : record ∈ records) (path : String) :
    (recordCells reader record path).length < 2 ^ 32

theorem SearchIndexBuilder.Logs.addsRecords
    (h : builder.Logs rowCount (indexEvents reader records) additions)
    (hroom : additions.length < 2 ^ 32) : AddsRecords reader records additions := by
  have hcount : records.length < 2 ^ 32 :=
    (length_le_countP reader records).trans_lt (h.length ▸ hroom)
  have hcells (rowPath) : (eventCells (indexEvents reader records) rowPath).length < 2 ^ 32 :=
    (length_eventCells_le hcount rowPath).trans_lt (h.length ▸ hroom)
  constructor
  · intro row path
    rw [h.paths, mem_indexEvents hcount]
    simp only [mem_recordPaths]
  · intro row path token position
    rw [h.values hcells, eventCells_indexEvents hcount]
    simp only [mem_indexEvents hcount]
    cases hget : records[row.toNat]? with
    | none => simp
    | some record =>
      simp only [Option.some.injEq, exists_eq_left', Option.map_some, Option.getD_some]
      rfl
  · intro record hin path
    obtain ⟨place, hplace, rfl⟩ := List.getElem_of_mem hin
    have hcell := hcells (UInt32.ofNat place, path)
    rwa [eventCells_indexEvents hcount, UInt32.toNat_ofNat_of_lt' (hplace.trans hcount),
      List.getElem?_eq_getElem hplace] at hcell

namespace AddsRecords

theorem plain (h : AddsRecords reader records additions) : PlainAdditions additions := by
  intro row path token position haddition
  obtain ⟨record, -, ⟨-, value, -, rfl⟩ | hcell⟩ := (h.values row path token position).1 haddition
  · exact plainToken_exactValueToken value
  · exact (of_mem_recordCells (List.mem_of_getElem? hcell)).1.plain

variable {record : SpanRecord} {row : UInt32}

/-- Words one behind the other are in a line. -/
theorem hasTokens_iff (h : AddsRecords reader records additions)
    (hrecord : records[row.toNat]? = some record) (field : SearchField) {words : List String}
    (hne : words ≠ []) (hwords : ∀ token ∈ words, WordToken token) :
    HasTokens additions row field words ↔ hasWords reader record field words := by
  have hcell {token : String} (hword : WordToken token) (path : String) (position : UInt32) :
      .valuePosition row path token position ∈ additions ↔
        (recordCells reader record path)[position.toNat]? = some (some token) := by
    rw [h.values, hrecord]
    simp only [Option.some.injEq, exists_eq_left']
    apply or_iff_right
    rintro ⟨-, value, -, rfl⟩
    exact not_word_exactValueToken value hword
  have hpath (path : String) : (∃ position, ∀ entry ∈ words.zipIdx,
      .valuePosition row path entry.1 (position + UInt32.ofNat entry.2) ∈ additions) ↔
        ∃ line ∈ recordLines reader record path, words <:+: line := by
    rw [← infix_recordCells hne, ← exists_foundAt_wrapping
      (h.cells record (List.mem_of_getElem? hrecord) path)]
    apply exists_congr
    intro position
    apply forall₂_congr
    intro entry hentry
    exact hcell (hwords _ (List.mem_of_getElem? (List.mem_zipIdx_iff_getElem?.1 hentry))) _ _
  rw [HasTokens, hasWords, List.any_eq_true]
  simp only [hpath, Bool.and_eq_true, List.any_eq_true, decide_eq_true_eq]
  constructor
  · rintro ⟨path, hmatches, hline⟩
    refine ⟨path, ?_, hmatches, hline⟩
    obtain ⟨word, words, rfl⟩ := List.exists_cons_of_ne_nil hne
    exact (of_mem_recordCells (((infix_recordCells hne).2 hline).subset List.mem_cons_self)).2
  · rintro ⟨path, -, hmatches, hline⟩
    exact ⟨path, hmatches, hline⟩

theorem hasToken_iff (field : SearchField) (token : String) :
    HasToken additions row field token ↔ HasTokens additions row field [token] := by
  have hzero (position : UInt32) : position + UInt32.ofNat 0 = position :=
    UInt32.add_zero position
  rw [HasToken, HasTokens]
  simp only [List.zipIdx_cons, List.zipIdx_nil, List.forall_mem_singleton, hzero]
  constructor
  · rintro ⟨path, position, haddition, hmatches⟩
    exact ⟨path, hmatches, position, haddition⟩
  · rintro ⟨path, hmatches, position, haddition⟩
    exact ⟨path, position, haddition, hmatches⟩

theorem hasToken_exactValueToken (h : AddsRecords reader records additions)
    (hrecord : records[row.toNat]? = some record) (field : SearchField) (value : String) :
    HasToken additions row field (exactValueToken value) ↔
      (recordRow reader record).exactValue field value := by
  rw [HasToken, recordRow]
  simp only [h.values, hrecord, Option.some.injEq, exists_eq_left', mem_recordEvents_exactValue,
    Bool.and_eq_true, List.any_eq_true, decide_eq_true_eq]
  constructor
  · rintro ⟨path, position, ⟨-, value', ⟨hlength, leaf, hin, rfl, hvalue⟩, htoken⟩ | hcell, hmatches⟩
    · rw [exactValueToken_injective htoken]
      exact ⟨hlength, leaf, hin, hmatches, hvalue⟩
    · exact absurd (of_mem_recordCells (List.mem_of_getElem? hcell)).1
        (not_word_exactValueToken value)
  · rintro ⟨hlength, leaf, hin, hmatches, hvalue⟩
    exact ⟨leaf.path, 0, .inl ⟨rfl, value, ⟨hlength, leaf, hin, rfl, hvalue⟩, rfl⟩, hmatches⟩

/-- The row of a record reads as the record does. -/
theorem reads (h : AddsRecords reader records additions)
    (hrecord : records[row.toNat]? = some record) :
    (recordRow reader record).Reads additions row := by
  constructor
  · intro field query hquery
    rw [recordRow, HasQuery]
    simp only [Bool.and_eq_true, Bool.not_eq_true', List.all_eq_true, and_assoc]
    apply and_congr_right
    intro _
    apply and_congr
    · apply forall₂_congr
      intro term hterm
      rw [hasToken_iff, h.hasTokens_iff hrecord field (List.cons_ne_nil _ _)]
      rw [List.forall_mem_singleton]
      exact hquery.terms term hterm
    · apply forall₂_congr
      intro phrase hphrase
      obtain ⟨hne, hwords⟩ := hquery.phrases phrase hphrase
      rw [HasPhrase, and_iff_right hne, h.hasTokens_iff hrecord field hne hwords]
  · intro field value
    exact (h.hasToken_exactValueToken hrecord field value).symm
  · intro pattern
    rw [HasPath, recordRow]
    simp only [h.paths, hrecord, Option.some.injEq, exists_eq_left', List.any_eq_true]

end AddsRecords

end additions

/-! The answers of an index. -/

section answers

variable {fst : FstMaps} {pairs : fst.Builder → List (List UInt8 × Nat)} {reader : JsonReader}
  {records : List SpanRecord} {index : SearchIndex}

/-- An index has the additions of some records. -/
structure SearchIndex.OfRecords (fst : FstMaps) (reader : JsonReader) (records : List SpanRecord)
    (additions : List SearchAddition) (index : SearchIndex) : Prop where
  room : additions.length < 2 ^ 32
  length_lt : records.length < 2 ^ 32
  rowCount : index.rowCount.toNat = records.length
  adds : AddsRecords reader records additions
  indexes : index.Indexes fst additions

theorem exists_ofRecords
    (hsize : (SearchIndexBuilder.ofRecords reader records).index.keyOccurrences.length +
      (SearchIndexBuilder.ofRecords reader records).index.valueOccurrences.length < 2 ^ 32)
    (hbuild : buildSearchIndex fst.toFstLib reader records = .ok index) :
    ∃ additions, index.OfRecords fst reader records additions := by
  obtain ⟨additions, hlogs⟩ :=
    SearchIndexBuilder.exists_logs records.length (indexEvents reader records)
  rw [← SearchIndexBuilder.ofRecords_eq] at hlogs
  have hroom : additions.length < 2 ^ 32 := by
    rwa [hlogs.index, MutableSearchIndex.length_occurrences] at hsize
  have hcount : records.length < 2 ^ 32 :=
    (length_le_countP reader records).trans_lt (hlogs.length ▸ hroom)
  rw [buildSearchIndex, SearchIndexBuilder.finish, hlogs.index] at hbuild
  obtain ⟨hrowCount, hindexes⟩ := indexes_of_finish hroom hbuild
  refine ⟨additions, hroom, hcount, ?_, hlogs.addsRecords hroom, hindexes⟩
  rw [hrowCount, MutableSearchIndex.new, min_eq_left (by omega),
    UInt32.toNat_ofNat_of_lt' hcount]

namespace SearchIndex.OfRecords

variable {additions : List SearchAddition}

theorem lt_rowCount (h : index.OfRecords fst reader records additions) {row : UInt32} :
    row < index.rowCount ↔ row.toNat < records.length := by
  rw [UInt32.lt_iff_toNat_lt, h.rowCount]

/-- Every addition is of a row of the index. -/
theorem row_lt (h : index.OfRecords fst reader records additions) :
    ∀ addition ∈ additions, addition.row < index.rowCount := by
  intro addition haddition
  rw [h.lt_rowCount]
  cases addition with
  | path row path =>
    obtain ⟨record, hget, -⟩ := (h.adds.paths row path).1 haddition
    exact (List.getElem?_eq_some_iff.1 hget).1
  | valuePosition row path token position =>
    obtain ⟨record, hget, -⟩ := (h.adds.values row path token position).1 haddition
    exact (List.getElem?_eq_some_iff.1 hget).1

/-- The rows that are found are those whose records meet the predicate. -/
theorem mem_matchingRows_iff (h : index.OfRecords fst reader records additions)
    (hfst : fst.Keeps pairs) {predicate : SearchPredicate}
    (hqueries : ∀ query ∈ predicate.queries, ∃ text, query = SearchQuery.parse text)
    (row : UInt32) :
    row ∈ index.matchingRows fst predicate ↔
      ∃ record, records[row.toNat]? = some record ∧
        predicate.holds (recordRow reader record) := by
  have hwords : ∀ query ∈ predicate.queries, query.Words := by
    intro query hquery
    obtain ⟨text, rfl⟩ := hqueries query hquery
    exact SearchQuery.words_parse text
  by_cases hrow : row < index.rowCount
  · have hget := List.getElem?_eq_getElem (h.lt_rowCount.1 hrow)
    rw [mem_matchingRows hfst h.adds.plain h.indexes hrow (h.adds.reads hget) predicate hwords,
      hget]
    simp only [Option.some.injEq, exists_eq_left']
  · refine iff_of_false ?_ ?_
    · intro hin
      exact hrow (mem_allRows.1
        (matchingRows_subset hfst h.adds.plain h.indexes h.row_lt predicate hwords hin))
    · rintro ⟨record, hget, -⟩
      exact hrow (h.lt_rowCount.2 (List.getElem?_eq_some_iff.1 hget).1)

end SearchIndex.OfRecords

/-- The index of some records finds a row where its record meets the predicate. -/
theorem build_search_index_answers (hfst : fst.Keeps pairs)
    (hsize : (SearchIndexBuilder.ofRecords reader records).index.keyOccurrences.length +
      (SearchIndexBuilder.ofRecords reader records).index.valueOccurrences.length < 2 ^ 32)
    (hbuild : buildSearchIndex fst.toFstLib reader records = .ok index)
    {predicate : SearchPredicate}
    (hqueries : ∀ query ∈ predicate.queries, ∃ text, query = SearchQuery.parse text)
    (row : UInt32) :
    row ∈ index.matchingRows fst predicate ↔
      ∃ record, records[row.toNat]? = some record ∧
        predicate.holds (recordRow reader record) := by
  obtain ⟨additions, hof⟩ := exists_ofRecords hsize hbuild
  exact hof.mem_matchingRows_iff hfst hqueries row

end answers

/-! A library that keeps its pairs. -/

def tally (n : Nat) : List UInt8 := List.replicate n 1 ++ [0]

def readTally : List UInt8 → Nat × List UInt8
  | [] => (0, [])
  | byte :: bytes => if byte = 0 then (0, bytes) else ((readTally bytes).1 + 1, (readTally bytes).2)

theorem readTally_tally (n : Nat) (bytes : List UInt8) : readTally (tally n ++ bytes) = (n, bytes) := by
  induction n with
  | zero => rfl
  | succ n ih =>
    rw [tally, List.replicate_succ, List.cons_append, List.cons_append, ← tally, readTally,
      if_neg (by decide), ih]

def writePairs (pairs : List (List UInt8 × Nat)) : List UInt8 :=
  pairs.flatMap fun pair => tally pair.1.length ++ tally pair.2 ++ pair.1

def readPairs : Nat → List UInt8 → List (List UInt8 × Nat)
  | 0, _ => []
  | _ + 1, [] => []
  | fuel + 1, byte :: bytes =>
    let (length, bytes) := readTally (byte :: bytes)
    let (value, bytes) := readTally bytes
    (bytes.take length, value) :: readPairs fuel (bytes.drop length)

theorem readPairs_writePairs (pairs : List (List UInt8 × Nat)) {fuel : Nat}
    (hfuel : pairs.length ≤ fuel) : readPairs fuel (writePairs pairs) = pairs := by
  induction pairs generalizing fuel with
  | nil =>
    cases fuel with
    | zero => rfl
    | succ fuel => rfl
  | cons pair pairs ih =>
    cases fuel with
    | zero => cases hfuel
    | succ fuel =>
      have hcons : writePairs (pair :: pairs) =
          tally pair.1.length ++ (tally pair.2 ++ (pair.1 ++ writePairs pairs)) := by
        simp [writePairs]
      obtain ⟨byte, bytes, hbytes⟩ : ∃ byte bytes, writePairs (pair :: pairs) = byte :: bytes := by
        apply List.exists_cons_of_ne_nil
        simp [hcons, tally]
      rw [hbytes, readPairs, ← hbytes, hcons]
      simp only [readTally_tally, List.take_left, List.drop_left]
      rw [ih (Nat.le_of_succ_le_succ hfuel)]

theorem length_le_writePairs (pairs : List (List UInt8 × Nat)) :
    pairs.length ≤ (writePairs pairs).length := by
  induction pairs with
  | nil => exact Nat.le_refl 0
  | cons pair pairs ih =>
    have htally (n : Nat) : (tally n).length = n + 1 := by simp [tally]
    rw [writePairs, List.flatMap_cons, List.length_append, ← writePairs, List.length_append,
      List.length_append, htally, htally, List.length_cons]
    omega

/-- A library whose maps are written pair by pair. -/
def FstMaps.pairList : FstMaps where
  Builder := List (List UInt8 × Nat)
  memory := []
  insert pairs key value :=
    if pairs.all fun other => (compare other.1 key).isLT then .ok (pairs ++ [(key, value)])
    else .error "out of order"
  intoInner pairs := .ok (writePairs pairs)
  validate _ := true
  get bytes key := (readPairs bytes.length bytes).lookup key
  stream bytes := readPairs bytes.length bytes
  startsWith bytes front := (readPairs bytes.length bytes).filter fun pair =>
    (utf8Bytes front.toList).isPrefixOf pair.1

theorem FstMaps.pairList_keeps : FstMaps.pairList.Keeps fun pairs => pairs := by
  have hread (pairs : List (List UInt8 × Nat)) (bytes : List UInt8)
      (h : (Except.ok (writePairs pairs) : Except String (List UInt8)) = .ok bytes) :
      readPairs bytes.length bytes = pairs := by
    cases h
    exact readPairs_writePairs pairs (length_le_writePairs pairs)
  constructor
  · rfl
  · intro pairs key value pairs' h
    change List (List UInt8 × Nat) at pairs pairs'
    change (if _ then Except.ok (pairs ++ [(key, value)]) else .error "out of order") =
      Except.ok pairs' at h
    split at h
    · cases h
      rfl
    · cases h
  · exact fun _ _ _ => rfl
  · exact fun pairs bytes h => hread pairs bytes h
  · intro pairs bytes h key
    exact congrArg (List.lookup key) (hread pairs bytes h)
  · intro pairs bytes h front
    exact congrArg (List.filter _) (hread pairs bytes h)

/-- A leaf of two words, and a predicate with a phrase, a value and a pattern. -/
theorem build_search_index_answers_phrase :
    let reader : JsonReader :=
      ⟨fun _ => some (.object [("inputs", .object [("prompt", .string "Hello, brave world")])]),
        fun _ => ""⟩
    let record : SpanRecord :=
      ⟨"demo", "", "aa", "11", none, none, "root", "chain", 1, 2, 1, .«end», "", none⟩
    let predicate : SearchPredicate := .and [.text (.pathPrefix "inputs") (.parse "\"brave world\""),
      .not (.exactValue .all "world"), .jsonKey "inputs.%"]
    ∃ index, buildSearchIndex FstMaps.pairList.toFstLib reader [record] = .ok index ∧
      0 ∈ index.matchingRows FstMaps.pairList predicate := by
  intro reader record predicate
  have hbuilds : ((buildSearchIndex FstMaps.pairList.toFstLib reader [record]).toOption).isSome := by
    decide +kernel
  obtain ⟨index, hindex⟩ := Option.isSome_iff_exists.1 hbuilds
  have hbuild := Outcome.eq_ok_of_toOption hindex
  have hqueries : ∀ query ∈ predicate.queries, ∃ text, query = SearchQuery.parse text := by
    intro query hquery
    exact ⟨_, List.mem_singleton.1 hquery⟩
  exact ⟨index, hbuild, (build_search_index_answers FstMaps.pairList_keeps (by decide +kernel)
    hbuild hqueries 0).2 ⟨record, rfl, by decide +kernel⟩⟩

end KevinDb
