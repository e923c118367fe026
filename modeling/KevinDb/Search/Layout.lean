import KevinDb.Search.Format
import KevinDb.Search.Lists

namespace KevinDb
set_option autoImplicit true

/-! What the encoder writes, as a function of the index. -/

/-- The sections of a group. -/
def SearchRowGroup.sections (group : SearchRowGroup) : List (List UInt8) :=
  [group.fstBytes, encodeSearchTermInfos group.termInfos, group.postings, group.positions]

/-- The ranges of a directory's entry. -/
def SearchIndexGroupDirectory.ranges (directory : SearchIndexGroupDirectory) :
    List SearchIndexRange :=
  [directory.fst, directory.termInfos, directory.postings, directory.positions]

/-- Ranges that lie one behind the other from an offset on, each as long as its section. -/
def placedFrom : Nat → List (List UInt8) → List SearchIndexRange
  | _, [] => []
  | offset, bytes :: sections =>
    ⟨UInt64.ofNat offset, UInt64.ofNat bytes.length⟩ :: placedFrom (offset + bytes.length) sections

/-- The bytes of a group's sections. -/
def SearchRowGroup.size (group : SearchRowGroup) : Nat :=
  group.fstBytes.length + (encodeSearchTermInfos group.termInfos).length + group.postings.length +
    group.positions.length

/-- The entry of a group whose sections begin at an offset. -/
def SearchRowGroup.directoryAt (group : SearchRowGroup) (offset : Nat) :
    SearchIndexGroupDirectory :=
  let termInfos := offset + group.fstBytes.length
  let postings := termInfos + (encodeSearchTermInfos group.termInfos).length
  let positions := postings + group.postings.length
  { minTerm := group.minTerm
    maxTerm := group.maxTerm
    termInfoCount := UInt32.ofNat group.termInfos.length
    fst := ⟨UInt64.ofNat offset, UInt64.ofNat group.fstBytes.length⟩
    termInfos := ⟨UInt64.ofNat termInfos,
      UInt64.ofNat (encodeSearchTermInfos group.termInfos).length⟩
    postings := ⟨UInt64.ofNat postings, UInt64.ofNat group.postings.length⟩
    positions := ⟨UInt64.ofNat positions, UInt64.ofNat group.positions.length⟩ }

def directoriesFrom : Nat → List SearchRowGroup → List SearchIndexGroupDirectory
  | _, [] => []
  | offset, group :: groups => group.directoryAt offset :: directoriesFrom (offset + group.size) groups

/-- The bytes of a group's sections, for all groups. -/
def sizeOfGroups (groups : List SearchRowGroup) : Nat := (groups.map SearchRowGroup.size).sum

/-- The bytes that an entry takes. -/
def SearchIndexGroupDirectory.bytes (directory : SearchIndexGroupDirectory) : List UInt8 :=
  leBytes 4 directory.minTerm.length ++ directory.minTerm ++
    (leBytes 4 directory.maxTerm.length ++ directory.maxTerm) ++
    putU32 directory.termInfoCount ++ putRange directory.fst ++ putRange directory.termInfos ++
    putRange directory.postings ++ putRange directory.positions

/-- The bytes of a header. -/
def SearchIndexHeader.bytes (header : SearchIndexHeader) : List UInt8 :=
  magic ++ putU32 header.rowCount ++ putU32 header.termKeyGroupCount ++
    putU32 header.termValueGroupCount ++ putU32 header.directoryLen

/-- The bytes that the entry of a group takes. -/
def SearchRowGroup.entryLen (group : SearchRowGroup) : Nat :=
  4 + group.minTerm.length + 4 + group.maxTerm.length + 4 + 64

namespace SearchIndex

variable (index : SearchIndex)

def groups : List SearchRowGroup := index.termKeyGroups ++ index.termValueGroups

def directoryLen : Nat := (index.groups.map SearchRowGroup.entryLen).sum

/-- Where the sections begin. -/
def sectionsStart : Nat := searchIndexHeaderLen + index.directoryLen

/-- The sections of the groups, in the order they are written. -/
def sections : List (List UInt8) := index.groups.flatMap SearchRowGroup.sections

def header : SearchIndexHeader where
  rowCount := index.rowCount
  termKeyGroupCount := UInt32.ofNat index.termKeyGroups.length
  termValueGroupCount := UInt32.ofNat index.termValueGroups.length
  directoryLen := UInt32.ofNat index.directoryLen

def directory : SearchIndexDirectory where
  rowCount := index.rowCount
  termKeyGroups := directoriesFrom index.sectionsStart index.termKeyGroups
  termValueGroups := directoriesFrom (index.sectionsStart + sizeOfGroups index.termKeyGroups)
    index.termValueGroups

/-- The bytes of an index. -/
def layout : List UInt8 :=
  index.header.bytes ++
    (index.directory.termKeyGroups ++ index.directory.termValueGroups).flatMap
      SearchIndexGroupDirectory.bytes ++ index.sections.flatten

/-- The sizes of an index fit into the fields for them. -/
structure Fits : Prop where
  keyGroups : index.termKeyGroups.length < 2 ^ 32
  valueGroups : index.termValueGroups.length < 2 ^ 32
  termInfos : ∀ group ∈ index.groups, group.termInfos.length < 2 ^ 32
  terms : ∀ group ∈ index.groups, group.minTerm.length < 2 ^ 32 ∧ group.maxTerm.length < 2 ^ 32
  directory : index.directoryLen < 2 ^ 32
  sections : index.sectionsStart + sizeOfGroups index.groups < 2 ^ 64

end SearchIndex

/-! The encoder writes it. -/

theorem checkedU32_eq_ok_iff {n : Nat} {label : String} {value : UInt32} :
    checkedU32 n label = .ok value ↔ n < 2 ^ 32 ∧ value = UInt32.ofNat n :=
  Outcome.ok_or_error_eq_ok_iff

theorem putBytes_eq_ok_iff {bytes out : List UInt8} :
    putBytes bytes = .ok out ↔ bytes.length < 2 ^ 32 ∧ out = leBytes 4 bytes.length ++ bytes := by
  simp only [putBytes, Outcome.bind_eq_ok_iff, checkedU32_eq_ok_iff, Outcome.pure_eq,
    Outcome.ok.injEq]
  constructor
  · rintro ⟨_, ⟨hlength, rfl⟩, rfl⟩
    rw [putU32, UInt32.toNat_ofNat_of_lt' hlength]
    exact ⟨hlength, rfl⟩
  · rintro ⟨hlength, rfl⟩
    refine ⟨_, ⟨hlength, rfl⟩, ?_⟩
    rw [putU32, UInt32.toNat_ofNat_of_lt' hlength]

theorem encodeGroupDirectory_eq_ok_iff {directory : SearchIndexGroupDirectory}
    {out : List UInt8} : encodeGroupDirectory directory = .ok out ↔
      (directory.minTerm.length < 2 ^ 32 ∧ directory.maxTerm.length < 2 ^ 32) ∧
        out = directory.bytes := by
  simp only [encodeGroupDirectory, Outcome.bind_eq_ok_iff, putBytes_eq_ok_iff, Outcome.pure_eq,
    Outcome.ok.injEq]
  constructor
  · rintro ⟨_, ⟨hmin, rfl⟩, _, ⟨hmax, rfl⟩, rfl⟩
    exact ⟨⟨hmin, hmax⟩, rfl⟩
  · rintro ⟨⟨hmin, hmax⟩, rfl⟩
    exact ⟨_, ⟨hmin, rfl⟩, _, ⟨hmax, rfl⟩, rfl⟩

/-- A group with its bytes and an entry. -/
def SearchRowGroup.encoded (group : SearchRowGroup) (directory : SearchIndexGroupDirectory) :
    EncodedGroup :=
  ⟨directory, group.fstBytes, encodeSearchTermInfos group.termInfos, group.postings,
    group.positions⟩

/-- The entry of a group before it is placed. -/
def SearchRowGroup.unplaced (group : SearchRowGroup) : SearchIndexGroupDirectory :=
  ⟨group.minTerm, group.maxTerm, UInt32.ofNat group.termInfos.length, defaultRange, defaultRange,
    defaultRange, defaultRange⟩

theorem EncodedGroup.new_eq_ok_iff {group : SearchRowGroup} {encoded : EncodedGroup} :
    EncodedGroup.new group = .ok encoded ↔
      group.termInfos.length < 2 ^ 32 ∧ encoded = group.encoded group.unplaced := by
  simp only [EncodedGroup.new, Outcome.bind_eq_ok_iff, checkedU32_eq_ok_iff, Outcome.pure_eq,
    Outcome.ok.injEq]
  constructor
  · rintro ⟨_, ⟨hlength, rfl⟩, rfl⟩
    exact ⟨hlength, rfl⟩
  · rintro ⟨hlength, rfl⟩
    exact ⟨_, ⟨hlength, rfl⟩, rfl⟩

/-- The sum of sizes, if there is no overflow. -/
theorem foldlM_addBelow_eq_ok_iff {bound start len : Nat} {values : List α} {size : α → Nat}
    (hstart : start < bound) :
    values.foldlM (fun len value => addBelow bound len (size value)) start = .ok len ↔
      start + (values.map size).sum < bound ∧ len = start + (values.map size).sum := by
  induction values generalizing start with
  | nil => simp [hstart, eq_comm]
  | cons value values ih =>
    rw [List.foldlM_cons, Outcome.bind_eq_ok_iff, List.map_cons, List.sum_cons, ← Nat.add_assoc]
    constructor
    · rintro ⟨next, hnext, hrest⟩
      obtain ⟨hbound, rfl⟩ := Outcome.ok_or_panic_eq_ok_iff.1 hnext
      exact (ih hbound).1 hrest
    · intro h
      have hbound : start + size value < bound := by omega
      exact ⟨_, Outcome.ok_or_panic_eq_ok_iff.2 ⟨hbound, rfl⟩, (ih hbound).2 h⟩

theorem nextRange_eq_ok_iff {offset len : Nat} {range : SearchIndexRange} {stop : Nat} :
    nextRange offset len = .ok (range, stop) ↔
      offset + len < 2 ^ 64 ∧ range = ⟨UInt64.ofNat offset, UInt64.ofNat len⟩ ∧
        stop = offset + len := by
  simp only [nextRange, checkedAdd, Outcome.bind_eq_ok_iff, Outcome.ok_or_error_eq_ok_iff,
    Outcome.pure_eq, Outcome.ok.injEq, Prod.mk.injEq]
  constructor
  · rintro ⟨_, ⟨h, rfl⟩, rfl, rfl⟩
    exact ⟨h, rfl, rfl⟩
  · rintro ⟨h, rfl, rfl⟩
    exact ⟨_, ⟨h, rfl⟩, rfl, rfl⟩

theorem EncodedGroup.place_eq_ok_iff {group : SearchRowGroup} {offset stop : Nat}
    {placed : EncodedGroup} :
    (group.encoded group.unplaced).place offset = .ok (placed, stop) ↔
      offset + group.size < 2 ^ 64 ∧ placed = group.encoded (group.directoryAt offset) ∧
        stop = offset + group.size := by
  rw [SearchRowGroup.size, ← Nat.add_assoc, ← Nat.add_assoc, ← Nat.add_assoc]
  simp only [EncodedGroup.place, Outcome.bind_eq_ok_iff, Prod.exists, nextRange_eq_ok_iff,
    Outcome.pure_eq, Outcome.ok.injEq, Prod.mk.injEq]
  constructor
  · rintro ⟨_, _, ⟨-, rfl, rfl⟩, _, _, ⟨-, rfl, rfl⟩, _, _, ⟨-, rfl, rfl⟩, _, _, ⟨h, rfl, rfl⟩,
      rfl, rfl⟩
    exact ⟨h, rfl, rfl⟩
  · rintro ⟨h, rfl, rfl⟩
    have hpostings := Nat.lt_of_le_of_lt (Nat.le_add_right _ _) h
    have htermInfos := Nat.lt_of_le_of_lt (Nat.le_add_right _ _) hpostings
    have hfst := Nat.lt_of_le_of_lt (Nat.le_add_right _ _) htermInfos
    exact ⟨_, _, ⟨hfst, rfl, rfl⟩, _, _, ⟨htermInfos, rfl, rfl⟩, _, _, ⟨hpostings, rfl, rfl⟩, _, _,
      ⟨h, rfl, rfl⟩, rfl, rfl⟩

/-- The groups with their bytes and the entries of their places. -/
def placedGroups : Nat → List SearchRowGroup → List EncodedGroup
  | _, [] => []
  | offset, group :: groups =>
    group.encoded (group.directoryAt offset) :: placedGroups (offset + group.size) groups

theorem placeGroups_eq_ok_iff {groups : List SearchRowGroup} {offset stop : Nat}
    {placed : List EncodedGroup} (hoffset : offset < 2 ^ 64) :
    placeGroups offset (groups.map fun group => group.encoded group.unplaced) =
        .ok (placed, stop) ↔
      offset + sizeOfGroups groups < 2 ^ 64 ∧ placed = placedGroups offset groups ∧
        stop = offset + sizeOfGroups groups := by
  induction groups generalizing offset placed stop with
  | nil =>
    simp only [List.map_nil, placeGroups, Outcome.pure_eq, Outcome.ok.injEq, Prod.mk.injEq,
      placedGroups, sizeOfGroups, List.sum_nil, Nat.add_zero, eq_comm]
    exact (and_iff_right hoffset).symm
  | cons group groups ih =>
    have hsize : offset + sizeOfGroups (group :: groups) =
        offset + group.size + sizeOfGroups groups := by
      rw [sizeOfGroups, List.map_cons, List.sum_cons, Nat.add_assoc]
      rfl
    simp only [List.map_cons, placeGroups, Outcome.bind_eq_ok_iff, Prod.exists,
      EncodedGroup.place_eq_ok_iff, Outcome.pure_eq, Outcome.ok.injEq, Prod.mk.injEq, hsize]
    constructor
    · rintro ⟨_, _, ⟨hplace, rfl, rfl⟩, _, _, hrest, rfl, rfl⟩
      obtain ⟨hall, rfl, rfl⟩ := (ih hplace).1 hrest
      exact ⟨hall, rfl, rfl⟩
    · rintro ⟨hall, rfl, rfl⟩
      have hplace := Nat.lt_of_le_of_lt (Nat.le_add_right _ _) hall
      exact ⟨_, _, ⟨hplace, rfl, rfl⟩, _, _, (ih hplace).2 ⟨hall, rfl, rfl⟩, rfl, rfl⟩

theorem length_placedGroups (groups : List SearchRowGroup) (offset : Nat) :
    (placedGroups offset groups).length = groups.length := by
  induction groups generalizing offset with
  | nil => rfl
  | cons group groups ih => rw [placedGroups, List.length_cons, List.length_cons, ih]

theorem map_directory_placedGroups (groups : List SearchRowGroup) (offset : Nat) :
    (placedGroups offset groups).map EncodedGroup.directory = directoriesFrom offset groups := by
  induction groups generalizing offset with
  | nil => rfl
  | cons group groups ih => rw [placedGroups, List.map_cons, ih, directoriesFrom]; rfl

theorem flatMap_placedGroups (groups : List SearchRowGroup) (offset : Nat) :
    ((placedGroups offset groups).flatMap fun group =>
        group.fstBytes ++ group.termInfos ++ group.postings ++ group.positions) =
      (groups.flatMap SearchRowGroup.sections).flatten := by
  induction groups generalizing offset with
  | nil => rfl
  | cons group groups ih =>
    rw [placedGroups, List.flatMap_cons, ih, List.flatMap_cons, List.flatten_append]
    simp [SearchRowGroup.encoded, SearchRowGroup.sections]

/-- The entries have the terms of their groups. -/
theorem terms_of_mem_directoriesFrom {groups : List SearchRowGroup} {offset : Nat} {bound : Nat} :
    (∀ directory ∈ directoriesFrom offset groups,
        directory.minTerm.length < bound ∧ directory.maxTerm.length < bound) ↔
      ∀ group ∈ groups, group.minTerm.length < bound ∧ group.maxTerm.length < bound := by
  induction groups generalizing offset with
  | nil => simp [directoriesFrom]
  | cons group groups ih =>
    rw [directoriesFrom, List.forall_mem_cons, List.forall_mem_cons, ih]
    rfl

theorem encodeDirectory_eq_ok_iff {keyGroups valueGroups : List EncodedGroup} {out : List UInt8} :
    encodeDirectory keyGroups valueGroups = .ok out ↔
      (∀ directory ∈ keyGroups.map EncodedGroup.directory ++
          valueGroups.map EncodedGroup.directory,
        directory.minTerm.length < 2 ^ 32 ∧ directory.maxTerm.length < 2 ^ 32) ∧
      out = (keyGroups.map EncodedGroup.directory ++
        valueGroups.map EncodedGroup.directory).flatMap SearchIndexGroupDirectory.bytes := by
  have hencode (group : EncodedGroup) (out : List UInt8) :=
    @encodeGroupDirectory_eq_ok_iff group.directory out
  simp only [encodeDirectory, Outcome.bind_eq_ok_iff, Outcome.pure_eq, Outcome.ok.injEq,
    Outcome.mapM_eq_ok_iff hencode]
  rw [← List.map_append, List.forall_mem_map, List.flatMap_map]
  constructor
  · rintro ⟨_, ⟨hterms, rfl⟩, rfl⟩
    exact ⟨hterms, rfl⟩
  · rintro ⟨hterms, rfl⟩
    exact ⟨_, ⟨hterms, rfl⟩, rfl⟩

theorem prepareGroups_eq_ok_iff {groups : List SearchRowGroup} {encoded : List EncodedGroup} :
    prepareGroups groups = .ok encoded ↔ (∀ group ∈ groups, group.termInfos.length < 2 ^ 32) ∧
      encoded = groups.map fun group => group.encoded group.unplaced :=
  Outcome.mapM_eq_ok_iff fun _ _ => EncodedGroup.new_eq_ok_iff

theorem encodedDirectoryLen_eq_ok_iff {index : SearchIndex} {len : Nat} :
    encodedDirectoryLen (index.termKeyGroups.map fun group => group.encoded group.unplaced)
        (index.termValueGroups.map fun group => group.encoded group.unplaced) = .ok len ↔
      index.directoryLen < 2 ^ 64 ∧ len = index.directoryLen := by
  rw [encodedDirectoryLen, ← List.map_append, foldlM_addBelow_eq_ok_iff (by decide), Nat.zero_add,
    List.map_map]
  rfl

/-- An index whose sizes fit into the fields for them is encoded, and only such an index is. -/
theorem encodeSearchIndex_eq_ok_iff {index : SearchIndex} {bytes : List UInt8} :
    encodeSearchIndex index = .ok bytes ↔ index.Fits ∧ bytes = index.layout := by
  have hstart (h : index.directoryLen < 2 ^ 32) : index.sectionsStart < 2 ^ 64 := by
    rw [SearchIndex.sectionsStart, searchIndexHeaderLen]
    omega
  have hsizes : sizeOfGroups index.groups =
      sizeOfGroups index.termKeyGroups + sizeOfGroups index.termValueGroups := by
    rw [SearchIndex.groups, sizeOfGroups, List.map_append, List.sum_append]
    rfl
  have hdirectory (h : index.directoryLen < 2 ^ 32) :
      searchIndexHeaderLen + (UInt32.ofNat index.directoryLen).toNat = index.sectionsStart := by
    rw [UInt32.toNat_ofNat_of_lt' h]
    rfl
  have hsections : ((placedGroups index.sectionsStart index.termKeyGroups ++
      placedGroups (index.sectionsStart + sizeOfGroups index.termKeyGroups)
        index.termValueGroups).flatMap fun group =>
          group.fstBytes ++ group.termInfos ++ group.postings ++ group.positions) =
        index.sections.flatten := by
    rw [List.flatMap_append, flatMap_placedGroups, flatMap_placedGroups, ← List.flatten_append,
      ← List.flatMap_append]
    rfl
  simp only [encodeSearchIndex, Outcome.bind_eq_ok_iff, Outcome.pure_eq, Outcome.ok.injEq,
    prepareGroups_eq_ok_iff, checkedU32_eq_ok_iff, Prod.exists]
  constructor
  · rintro ⟨_, ⟨hkeyInfos, rfl⟩, _, ⟨hvalueInfos, rfl⟩, _, hlen, _, ⟨hdirectoryLen, rfl⟩, _, _,
      hkeys, _, _, hvalues, _, ⟨hkeyCount, rfl⟩, _, ⟨hvalueCount, rfl⟩, _, hencoded, rfl⟩
    obtain ⟨-, rfl⟩ := encodedDirectoryLen_eq_ok_iff.1 hlen
    rw [hdirectory hdirectoryLen] at hkeys
    obtain ⟨hkeySize, rfl, rfl⟩ := (placeGroups_eq_ok_iff (hstart hdirectoryLen)).1 hkeys
    obtain ⟨hvalueSize, rfl, rfl⟩ := (placeGroups_eq_ok_iff hkeySize).1 hvalues
    obtain ⟨hterms, rfl⟩ := encodeDirectory_eq_ok_iff.1 hencoded
    rw [map_directory_placedGroups, map_directory_placedGroups] at hterms
    rw [length_placedGroups] at hkeyCount hvalueCount
    refine ⟨⟨hkeyCount, hvalueCount, ?_, ?_, hdirectoryLen, ?_⟩, ?_⟩
    · exact List.forall_mem_append.2 ⟨hkeyInfos, hvalueInfos⟩
    · rw [List.forall_mem_append] at hterms
      exact List.forall_mem_append.2 ⟨terms_of_mem_directoriesFrom.1 hterms.1,
        terms_of_mem_directoriesFrom.1 hterms.2⟩
    · rw [hsizes, ← Nat.add_assoc]
      exact hvalueSize
    · rw [hsections, map_directory_placedGroups, map_directory_placedGroups, length_placedGroups,
        length_placedGroups]
      rfl
  · rintro ⟨hfits, rfl⟩
    obtain ⟨hkeyInfos, hvalueInfos⟩ := List.forall_mem_append.1 hfits.termInfos
    obtain ⟨hkeyTerms, hvalueTerms⟩ := List.forall_mem_append.1 hfits.terms
    have hall := hfits.sections
    rw [hsizes, ← Nat.add_assoc] at hall
    have hkeys := Nat.lt_of_le_of_lt (Nat.le_add_right _ _) hall
    have hkeyPlaced := (placeGroups_eq_ok_iff (hstart hfits.directory)).2 ⟨hkeys, rfl, rfl⟩
    have hvaluePlaced := (placeGroups_eq_ok_iff hkeys).2 ⟨hall, rfl, rfl⟩
    have hterms : ∀ directory ∈ index.directory.termKeyGroups ++ index.directory.termValueGroups,
        directory.minTerm.length < 2 ^ 32 ∧ directory.maxTerm.length < 2 ^ 32 :=
      List.forall_mem_append.2 ⟨terms_of_mem_directoriesFrom.2 hkeyTerms,
        terms_of_mem_directoriesFrom.2 hvalueTerms⟩
    rw [← hdirectory hfits.directory] at hkeyPlaced hvaluePlaced
    refine ⟨_, ⟨hkeyInfos, rfl⟩, _, ⟨hvalueInfos, rfl⟩, _,
      encodedDirectoryLen_eq_ok_iff.2 ⟨hfits.directory.trans (by decide), rfl⟩, _,
      ⟨hfits.directory, rfl⟩, _, _, hkeyPlaced, _, _, hvaluePlaced, _, ⟨?_, rfl⟩, _, ⟨?_, rfl⟩, _,
      encodeDirectory_eq_ok_iff.2 ⟨?_, rfl⟩, ?_⟩
    · rw [length_placedGroups]
      exact hfits.keyGroups
    · rw [length_placedGroups]
      exact hfits.valueGroups
    · rw [hdirectory hfits.directory, map_directory_placedGroups, map_directory_placedGroups]
      exact hterms
    · rw [hdirectory hfits.directory, hsections, map_directory_placedGroups,
        map_directory_placedGroups, length_placedGroups, length_placedGroups]
      rfl

end KevinDb
