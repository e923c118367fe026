import KevinDb.Lib.Lines
import KevinDb.Search.Answers
import KevinDb.Search.Indexer

namespace KevinDb
set_option autoImplicit true
open Std

/-! What the indexer writes, one event after the other. -/

inductive IndexEvent where
  | path (path : String)
  | exactValue (path value : String)
  | token (path token : String)
  | gap (path : String)

/-- The event adds a path or a value. -/
def IndexEvent.isAddition : IndexEvent → Bool
  | .gap _ => false
  | _ => true

def SearchIndexBuilder.apply (builder : SearchIndexBuilder) :
    UInt32 × IndexEvent → SearchIndexBuilder
  | (row, .path path) => builder.addPath row path
  | (row, .exactValue path value) => builder.addExactValue row path value
  | (row, .token path token) => addToken row path builder token
  | (row, .gap path) => builder.addLeafPositionGap row path

def textEvents (path value : String) : List IndexEvent :=
  .path path :: (tokensForText value).map (.token path)

def leafEvents (leaf : JsonLeafRef) : List IndexEvent :=
  match leaf.value with
  | none => [.path leaf.path]
  | some value =>
    (if byteLength value.toList ≤ maxIndexedValueBytes then [.exactValue leaf.path value] else []) ++
      textEvents leaf.path (boundedValue value) ++ [.gap leaf.path]

/-- The fields of a record that are indexed under their names. -/
def builtinTexts (record : SpanRecord) : List (String × String) :=
  [("name", record.name), ("run_type", record.runType), ("status", (statusFromRecord record).asStr)]

def recordEvents (reader : JsonReader) (record : SpanRecord) : List IndexEvent :=
  (builtinTexts record).flatMap (fun entry => textEvents entry.1 entry.2) ++
    (indexedLeaves reader record.attributesJson).flatMap leafEvents

def indexEvents (reader : JsonReader) (records : List SpanRecord) : List (UInt32 × IndexEvent) :=
  records.zipIdx.flatMap fun entry =>
    (recordEvents reader entry.1).map (UInt32.ofNat (min entry.2 (2 ^ 32 - 1)), ·)

namespace SearchIndexBuilder

variable {builder : SearchIndexBuilder} {row : UInt32}

theorem addText_eq (builder : SearchIndexBuilder) (row : UInt32) (path value : String) :
    builder.addText row path value = ((textEvents path value).map (row, ·)).foldl apply builder := by
  rw [textEvents, List.map_cons, List.foldl_cons, List.map_map, List.foldl_map]
  rfl

theorem addLeaf_eq (builder : SearchIndexBuilder) (row : UInt32) (leaf : JsonLeafRef) :
    addLeaf row builder leaf = ((leafEvents leaf).map (row, ·)).foldl apply builder := by
  rw [addLeaf, leafEvents]
  cases leaf.value with
  | none => rfl
  | some value =>
    dsimp only
    rw [List.map_append, List.map_append, List.foldl_append, List.foldl_append, ← addText_eq,
      addJsonValue]
    split
    · rfl
    · rfl

theorem addJson_eq (reader : JsonReader) (builder : SearchIndexBuilder) (row : UInt32)
    (attributesJson : String) : builder.addJson reader row attributesJson =
      (((indexedLeaves reader attributesJson).flatMap leafEvents).map (row, ·)).foldl apply
        builder := by
  have hleaves (leaves : List JsonLeafRef) (builder : SearchIndexBuilder) :
      leaves.foldl (addLeaf row) builder =
        ((leaves.flatMap leafEvents).map (row, ·)).foldl apply builder := by
    induction leaves generalizing builder with
    | nil => rfl
    | cons leaf leaves ih =>
      rw [List.foldl_cons, ih, addLeaf_eq, List.flatMap_cons, List.map_append, List.foldl_append]
  rw [addJson, JsonTape.parse, indexedLeaves]
  cases reader.parse attributesJson with
  | none => rfl
  | some json =>
    dsimp only [Option.map_some]
    rw [JsonTape.leafRefs_visit, hleaves]

theorem addRecord_eq (reader : JsonReader) (builder : SearchIndexBuilder)
    (entry : SpanRecord × Nat) : addRecord reader builder entry =
      ((recordEvents reader entry.1).map (UInt32.ofNat (min entry.2 (2 ^ 32 - 1)), ·)).foldl apply
        builder := by
  have hbuiltin : (builtinTexts entry.1).flatMap (fun entry => textEvents entry.1 entry.2) =
      textEvents "name" entry.1.name ++ (textEvents "run_type" entry.1.runType ++
        textEvents "status" (statusFromRecord entry.1).asStr) := by
    simp [builtinTexts]
  rw [addRecord, recordEvents, hbuiltin, List.map_append, List.map_append, List.map_append,
    List.foldl_append, List.foldl_append, List.foldl_append, addJson_eq, addText_eq, addText_eq,
    addText_eq]

/-- The builder is what the events make of it. -/
theorem ofRecords_eq (reader : JsonReader) (records : List SpanRecord) :
    ofRecords reader records = (indexEvents reader records).foldl apply (new records.length) := by
  rw [ofRecords, indexEvents]
  generalize new records.length = builder
  generalize records.zipIdx = entries
  induction entries generalizing builder with
  | nil => rfl
  | cons entry entries ih =>
    rw [List.foldl_cons, ih, List.flatMap_cons, List.foldl_append, addRecord_eq]

end SearchIndexBuilder

/-! The cells of the tokens. -/

/-- The cell of an event at a path of a row. -/
def cell? (rowPath : RowPath) : UInt32 × IndexEvent → Option (Option String)
  | (row, .token path token) => if (row, path) = rowPath then some (some token) else none
  | (row, .gap path) => if (row, path) = rowPath then some none else none
  | _ => none

def eventCells (events : List (UInt32 × IndexEvent)) (rowPath : RowPath) : List (Option String) :=
  events.filterMap (cell? rowPath)

theorem eventCells_concat (events : List (UInt32 × IndexEvent)) (event : UInt32 × IndexEvent)
    (rowPath : RowPath) : eventCells (events ++ [event]) rowPath =
      eventCells events rowPath ++ (cell? rowPath event).toList := by
  rw [eventCells, List.filterMap_append, eventCells]
  cases hcell : cell? rowPath event with
  | none => rw [List.filterMap_cons_none hcell, List.filterMap_nil]; rfl
  | some cell => rw [List.filterMap_cons_some hcell, List.filterMap_nil]; rfl

theorem eventCells_concat_none {events : List (UInt32 × IndexEvent)} {event : UInt32 × IndexEvent}
    {rowPath : RowPath} (h : cell? rowPath event = none) :
    eventCells (events ++ [event]) rowPath = eventCells events rowPath := by
  rw [eventCells_concat, h, Option.toList_none, List.append_nil]

theorem getElem?_concat_eq_some {cells : List α} {cell found : α} {place : Nat} :
    (cells ++ [cell])[place]? = some found ↔
      cells[place]? = some found ∨ (place = cells.length ∧ cell = found) := by
  rw [List.getElem?_append]
  split
  next hlt => exact (or_iff_left fun h => hlt.ne h.1).symm
  next hge =>
    rw [List.getElem?_eq_none (Nat.not_lt.1 hge), List.getElem?_singleton]
    split
    next hzero => simp [Nat.le_antisymm (Nat.sub_eq_zero_iff_le.1 hzero) (Nat.not_lt.1 hge)]
    next hne =>
      have hplace : place ≠ cells.length := fun h => hne (by omega)
      simp [hplace]

/-- The builder has written the events as these additions. A position is a place among the cells,
as long as there are not too many of them. -/
structure SearchIndexBuilder.Logs (builder : SearchIndexBuilder) (rowCount : Nat)
    (events : List (UInt32 × IndexEvent)) (additions : List SearchAddition) : Prop where
  index : builder.index = additions.foldl MutableSearchIndex.add (.new rowCount)
  length : additions.length = events.countP (·.2.isAddition)
  next (rowPath : RowPath) : builder.nextPositions[rowPath]?.getD 0 =
    UInt32.ofNat (min (eventCells events rowPath).length (2 ^ 32 - 1))
  paths (row : UInt32) (path : String) :
    .path row path ∈ additions ↔ (row, .path path) ∈ events
  values (hroom : ∀ rowPath, (eventCells events rowPath).length < 2 ^ 32) (row : UInt32)
    (path token : String) (position : UInt32) :
    .valuePosition row path token position ∈ additions ↔
      (position = 0 ∧ ∃ value, (row, .exactValue path value) ∈ events ∧
        token = exactValueToken value) ∨
      (eventCells events (row, path))[position.toNat]? = some (some token)

namespace SearchIndexBuilder

theorem positionAfter_ofNat (n : Nat) :
    positionAfter (UInt32.ofNat (min n (2 ^ 32 - 1))) = UInt32.ofNat (min (n + 1) (2 ^ 32 - 1)) := by
  rw [positionAfter]
  by_cases hn : n < 2 ^ 32 - 1
  · have hne : UInt32.ofNat (min n (2 ^ 32 - 1)) ≠ 2 ^ 32 - 1 := by
      rw [min_eq_left hn.le, ne_eq, ← UInt32.toNat_inj, UInt32.toNat_ofNat_of_lt' (hn.trans (by decide))]
      exact hn.ne
    rw [if_neg hne, min_eq_left hn.le, min_eq_left hn, UInt32.ofNat_add]
    rfl
  · rw [min_eq_right (by omega), min_eq_right (by omega)]
    rfl

/-- The positions after an event that has a cell. -/
theorem next_insert {positions : Table RowPath UInt32} {events : List (UInt32 × IndexEvent)}
    (h : ∀ rowPath, positions[rowPath]?.getD 0 =
      UInt32.ofNat (min (eventCells events rowPath).length (2 ^ 32 - 1)))
    {event : UInt32 × IndexEvent} {cell : Option String} {place : RowPath}
    (hcell : ∀ rowPath, cell? rowPath event = if place = rowPath then some cell else none)
    (rowPath : RowPath) :
    (positions.insert place (positionAfter (positions[place]?.getD 0)))[rowPath]?.getD 0 =
      UInt32.ofNat (min (eventCells (events ++ [event]) rowPath).length (2 ^ 32 - 1)) := by
  rw [Table.get_insert, eventCells_concat, hcell, List.length_append]
  by_cases hplace : place = rowPath
  · subst hplace
    rw [if_pos rfl, if_pos rfl, Option.getD_some, h, positionAfter_ofNat]
    rfl
  · rw [if_neg hplace, if_neg hplace, h]
    rfl

variable {builder : SearchIndexBuilder} {rowCount : Nat} {events : List (UInt32 × IndexEvent)}
  {additions : List SearchAddition}

theorem Logs.apply (h : builder.Logs rowCount events additions) (event : UInt32 × IndexEvent) :
    ∃ additions', (builder.apply event).Logs rowCount (events ++ [event]) additions' := by
  obtain ⟨row, kind⟩ := event
  have hindex (addition : SearchAddition) : builder.index.add addition =
      (additions ++ [addition]).foldl MutableSearchIndex.add (.new rowCount) := by
    rw [List.foldl_append, ← h.index]
    rfl
  cases kind with
  | path path =>
    have hcells (rowPath) : eventCells (events ++ [(row, .path path)]) rowPath =
      eventCells events rowPath := eventCells_concat_none rfl
    refine ⟨additions ++ [SearchAddition.path row path], hindex (.path row path), ?_, ?_, ?_, ?_⟩
    · rw [List.length_append, List.countP_append, h.length]
      rfl
    · intro rowPath
      rw [hcells]
      exact h.next rowPath
    · intro row' path'
      simp [h.paths]
    · intro hroom row' path' token position
      simp only [hcells] at hroom ⊢
      simp [h.values hroom]
  | exactValue path value =>
    have hcells (rowPath) : eventCells (events ++ [(row, .exactValue path value)]) rowPath =
      eventCells events rowPath := eventCells_concat_none rfl
    refine ⟨additions ++ [SearchAddition.valuePosition row path (exactValueToken value) 0],
      hindex (.valuePosition row path (exactValueToken value) 0), ?_, ?_, ?_, ?_⟩
    · rw [List.length_append, List.countP_append, h.length]
      rfl
    · intro rowPath
      rw [hcells]
      exact h.next rowPath
    · intro row' path'
      simp [h.paths]
    · intro hroom row' path' token position
      simp only [hcells] at hroom ⊢
      have hexact : (∃ value', (row', .exactValue path' value') ∈
          events ++ [(row, .exactValue path value)] ∧ token = exactValueToken value') ↔
          (∃ value', (row', .exactValue path' value') ∈ events ∧ token = exactValueToken value') ∨
            row' = row ∧ path' = path ∧ token = exactValueToken value := by
        simp only [List.mem_append, List.mem_singleton, Prod.mk.injEq, IndexEvent.exactValue.injEq,
          or_and_right, exists_or, and_assoc, exists_and_left, exists_eq_left]
      rw [List.mem_append, h.values hroom, List.mem_singleton, hexact,
        SearchAddition.valuePosition.injEq, and_or_left, or_right_comm]
      apply or_congr_left
      apply or_congr_right
      constructor
      · rintro ⟨hrow, hpath, htoken, hposition⟩
        exact ⟨hposition, hrow, hpath, htoken⟩
      · rintro ⟨hposition, hrow, hpath, htoken⟩
        exact ⟨hrow, hpath, htoken, hposition⟩
  | token path token =>
    refine ⟨additions ++ [SearchAddition.valuePosition row path token
      (builder.nextPositions[(row, path)]?.getD 0)], hindex (.valuePosition row path token _),
      ?_, ?_, ?_, ?_⟩
    · rw [List.length_append, List.countP_append, h.length]
      rfl
    · exact next_insert h.next fun rowPath => rfl
    · intro row' path'
      simp [h.paths]
    · intro hroom row' path' token' position
      have hold (rowPath) : (eventCells events rowPath).length < 2 ^ 32 := by
        have := hroom rowPath
        rw [eventCells_concat, List.length_append] at this
        omega
      rw [List.mem_append, h.values hold, List.mem_singleton, eventCells_concat, cell?]
      simp only [List.mem_append, List.mem_singleton, Prod.mk.injEq, reduceCtorEq, and_false,
        or_false, SearchAddition.valuePosition.injEq]
      by_cases hplace : (row, path) = (row', path')
      · obtain ⟨rfl, rfl⟩ := Prod.mk.inj hplace
        have hlength := hroom (row, path)
        rw [eventCells_concat, List.length_append, cell?, if_pos rfl] at hlength
        have hposition : position = builder.nextPositions[(row, path)]?.getD 0 ↔
            position.toNat = (eventCells events (row, path)).length := by
          change _ + 1 < 2 ^ 32 at hlength
          rw [h.next, ← UInt32.toNat_inj, min_eq_left (by omega),
            UInt32.toNat_ofNat_of_lt' (by change _ < 2 ^ 32; omega)]
        rw [if_pos ⟨rfl, rfl⟩, Option.toList_some, getElem?_concat_eq_some, ← hposition]
        simp only [true_and, Option.some.injEq, or_assoc]
        apply or_congr_right
        apply or_congr_right
        constructor
        · rintro ⟨rfl, hposition⟩
          exact ⟨hposition, rfl⟩
        · rintro ⟨hposition, rfl⟩
          exact ⟨rfl, hposition⟩
      · have hne : ¬ (row' = row ∧ path' = path ∧ token' = token ∧
            position = builder.nextPositions[(row, path)]?.getD 0) := by
          rintro ⟨rfl, rfl, -⟩
          exact hplace rfl
        rw [if_neg (by simpa using hplace), Option.toList_none, List.append_nil, or_iff_left hne]
  | gap path =>
    refine ⟨additions, h.index, ?_, ?_, ?_, ?_⟩
    · rw [List.countP_append, h.length]
      rfl
    · exact next_insert h.next fun rowPath => rfl
    · intro row' path'
      simp [h.paths]
    · intro hroom row' path' token' position
      have hold (rowPath) : (eventCells events rowPath).length < 2 ^ 32 := by
        have := hroom rowPath
        rw [eventCells_concat, List.length_append] at this
        omega
      have hcells : (eventCells (events ++ [(row, .gap path)]) (row', path'))[position.toNat]? =
          some (some token') ↔
            (eventCells events (row', path'))[position.toNat]? = some (some token') := by
        rw [eventCells_concat, cell?]
        split
        · rw [Option.toList_some, getElem?_concat_eq_some]
          simp
        · rw [Option.toList_none, List.append_nil]
      rw [h.values hold, hcells]
      simp

theorem exists_logs (rowCount : Nat) (events : List (UInt32 × IndexEvent)) :
    ∃ additions, (events.foldl apply (new rowCount)).Logs rowCount events additions := by
  induction events using List.reverseRecOn with
  | nil => exact ⟨[], rfl, rfl, fun _ => rfl, by simp, by simp [eventCells]⟩
  | append_singleton events event ih =>
    obtain ⟨additions, h⟩ := ih
    rw [List.foldl_append, List.foldl_cons, List.foldl_nil]
    exact h.apply event

end SearchIndexBuilder

end KevinDb
