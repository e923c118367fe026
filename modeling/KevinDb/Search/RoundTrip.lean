import KevinDb.Search.Layout

namespace KevinDb
set_option autoImplicit true

namespace ByteReader

/-- As many values as there are, each read behind the one before. -/
theorem reads_times {read : Read α} {encode : α → List UInt8} {values : List α}
    (h : ∀ value ∈ values, ReadsBytes read (encode value) value) :
    ReadsBytes (readTimes read values.length) (values.flatMap encode) values := by
  induction values with
  | nil => exact .pure []
  | cons value values ih =>
    obtain ⟨hvalue, hvalues⟩ := List.forall_mem_cons.1 h
    rw [List.length_cons, readTimes, List.flatMap_cons]
    apply hvalue.bind
    rw [← List.append_nil (values.flatMap encode)]
    exact (ih hvalues).bind (.pure _)

theorem reads_range (range : SearchIndexRange) :
    ReadsBytes readRange (putRange range) range := by
  rw [putRange, readRange]
  apply (reads_u64 range.offset).bind
  rw [putU64, ← List.append_nil (leBytes 8 _)]
  exact (reads_u64 range.len).bind (.pure _)

theorem reads_groupDirectory {directory : SearchIndexGroupDirectory}
    (hterms : directory.minTerm.length < 2 ^ 32 ∧ directory.maxTerm.length < 2 ^ 32) :
    ReadsBytes readGroupDirectory directory.bytes directory := by
  simp only [SearchIndexGroupDirectory.bytes, List.append_assoc]
  rw [← List.append_assoc (leBytes 4 _), ← List.append_assoc (leBytes 4 _), readGroupDirectory]
  apply (reads_vec hterms.1).bind
  apply (reads_vec hterms.2).bind
  apply (reads_u32 directory.termInfoCount).bind
  apply (reads_range directory.fst).bind
  apply (reads_range directory.termInfos).bind
  apply (reads_range directory.postings).bind
  rw [← List.append_nil (putRange directory.positions)]
  exact (reads_range directory.positions).bind (.pure directory)

theorem reads_termInfo (info : TermInfo) :
    ReadsBytes readTermInfo (putU32 info.docCount ++ putU32 info.postingsOffset ++
      putU32 info.postingsLen ++ putU32 info.positionsOffset ++ putU32 info.positionsLen) info := by
  simp only [List.append_assoc]
  rw [readTermInfo]
  apply (reads_u32 info.docCount).bind
  apply (reads_u32 info.postingsOffset).bind
  apply (reads_u32 info.postingsLen).bind
  apply (reads_u32 info.positionsOffset).bind
  rw [← List.append_nil (putU32 info.positionsLen)]
  exact (reads_u32 info.positionsLen).bind (.pure info)

theorem reads_header (header : SearchIndexHeader) :
    ReadsBytes readHeader header.bytes header := by
  simp only [SearchIndexHeader.bytes, List.append_assoc]
  rw [readHeader]
  apply (reads_expectBytes magic).bind
  apply (reads_u32 header.rowCount).bind
  apply (reads_u32 header.termKeyGroupCount).bind
  apply (reads_u32 header.termValueGroupCount).bind
  rw [← List.append_nil (putU32 header.directoryLen)]
  exact (reads_u32 header.directoryLen).bind (.pure header)

end ByteReader

/-- What is read at the start of some bytes. -/
theorem readFrom_append {read : Read α} {bytes : List UInt8} {value : α}
    (h : ReadsBytes read bytes value) (rest : List UInt8) (hlength : (bytes ++ rest).length < 2 ^ 64) :
    readFrom (bytes ++ rest) read = .ok value := by
  have hread := h [] rest hlength
  rw [readFrom, ByteReader.new]
  rw [List.nil_append, List.length_nil] at hread
  rw [hread]
  rfl

/-! The sizes of what is written. -/

theorem length_putRange (range : SearchIndexRange) : (putRange range).length = 16 := by
  rw [putRange, List.length_append, putU64, putU64, length_leBytes, length_leBytes]

theorem SearchIndexGroupDirectory.length_bytes (directory : SearchIndexGroupDirectory) :
    directory.bytes.length =
      4 + directory.minTerm.length + 4 + directory.maxTerm.length + 4 + 64 := by
  simp only [bytes, List.length_append, length_putRange, putU32, length_leBytes]
  omega

theorem SearchIndexHeader.length_bytes (header : SearchIndexHeader) :
    header.bytes.length = searchIndexHeaderLen := by
  simp only [bytes, List.length_append, putU32, length_leBytes]
  rfl

theorem length_encodeSearchTermInfos (termInfos : List TermInfo) :
    (encodeSearchTermInfos termInfos).length = termInfos.length * 20 := by
  induction termInfos with
  | nil => rfl
  | cons info termInfos ih =>
    rw [encodeSearchTermInfos] at ih
    rw [encodeSearchTermInfos, List.flatMap_cons, List.length_append, ih]
    simp only [List.length_append, List.length_cons, putU32, length_leBytes]
    omega

theorem SearchRowGroup.length_sections (group : SearchRowGroup) :
    group.sections.flatten.length = group.size := by
  simp only [sections, size, List.flatten_cons, List.flatten_nil, List.append_nil,
    List.length_append]
  omega

theorem length_flatten_sections (groups : List SearchRowGroup) :
    (groups.flatMap SearchRowGroup.sections).flatten.length = sizeOfGroups groups := by
  induction groups with
  | nil => rfl
  | cons group groups ih =>
    rw [List.flatMap_cons, List.flatten_append, List.length_append, ih, group.length_sections,
      sizeOfGroups, sizeOfGroups, List.map_cons, List.sum_cons]

theorem length_directoriesFrom (groups : List SearchRowGroup) (offset : Nat) :
    (directoriesFrom offset groups).length = groups.length := by
  induction groups generalizing offset with
  | nil => rfl
  | cons group groups ih => rw [directoriesFrom, List.length_cons, List.length_cons, ih]

theorem length_flatMap_directories (groups : List SearchRowGroup) (offset : Nat) :
    ((directoriesFrom offset groups).flatMap SearchIndexGroupDirectory.bytes).length =
      (groups.map SearchRowGroup.entryLen).sum := by
  induction groups generalizing offset with
  | nil => rfl
  | cons group groups ih =>
    rw [directoriesFrom, List.flatMap_cons, List.length_append, ih, List.map_cons, List.sum_cons,
      SearchIndexGroupDirectory.length_bytes]
    rfl

namespace SearchIndex

variable {index : SearchIndex}

/-- The bytes of the directory. -/
def directoryBytes (index : SearchIndex) : List UInt8 :=
  (index.directory.termKeyGroups ++ index.directory.termValueGroups).flatMap
    SearchIndexGroupDirectory.bytes

theorem length_directoryBytes (index : SearchIndex) :
    index.directoryBytes.length = index.directoryLen := by
  rw [directoryBytes, List.flatMap_append, List.length_append, directory,
    length_flatMap_directories, length_flatMap_directories, directoryLen, groups, List.map_append,
    List.sum_append]

theorem length_layout (index : SearchIndex) :
    index.layout.length = index.sectionsStart + sizeOfGroups index.groups := by
  rw [layout, List.length_append, List.length_append, index.header.length_bytes, sections,
    length_flatten_sections, ← directoryBytes, length_directoryBytes, sectionsStart]

theorem Fits.length_lt (h : index.Fits) : index.layout.length < 2 ^ 64 := by
  rw [length_layout]
  exact h.sections

theorem Fits.directoryLen_eq (h : index.Fits) :
    index.header.directoryLen.toNat = index.directoryLen :=
  UInt32.toNat_ofNat_of_lt' h.directory

/-- The entries have terms that fit. -/
theorem Fits.directories (h : index.Fits) :
    (∀ directory ∈ index.directory.termKeyGroups,
      directory.minTerm.length < 2 ^ 32 ∧ directory.maxTerm.length < 2 ^ 32) ∧
    ∀ directory ∈ index.directory.termValueGroups,
      directory.minTerm.length < 2 ^ 32 ∧ directory.maxTerm.length < 2 ^ 32 := by
  obtain ⟨hkeys, hvalues⟩ := List.forall_mem_append.1 h.terms
  exact ⟨terms_of_mem_directoriesFrom.2 hkeys, terms_of_mem_directoriesFrom.2 hvalues⟩

end SearchIndex

/-- The header of an index is read from any bytes that begin with it. -/
theorem decodeSearchIndexHeader_append (header : SearchIndexHeader) (rest : List UInt8)
    (hlength : (header.bytes ++ rest).length < 2 ^ 64) :
    decodeSearchIndexHeader (header.bytes ++ rest) = .ok header :=
  readFrom_append (ByteReader.reads_header header) rest hlength

/-- The directory is read from its bytes. -/
theorem decodeSearchIndexDirectory_eq {index : SearchIndex} (h : index.Fits) :
    decodeSearchIndexDirectory index.header index.directoryBytes = .ok index.directory := by
  have hkeys := ByteReader.reads_times fun directory hdirectory =>
    ByteReader.reads_groupDirectory (h.directories.1 directory hdirectory)
  have hvalues := ByteReader.reads_times fun directory hdirectory =>
    ByteReader.reads_groupDirectory (h.directories.2 directory hdirectory)
  have hkeyCount : index.header.termKeyGroupCount.toNat = index.directory.termKeyGroups.length := by
    rw [SearchIndex.directory, length_directoriesFrom]
    exact UInt32.toNat_ofNat_of_lt' h.keyGroups
  have hvalueCount :
      index.header.termValueGroupCount.toNat = index.directory.termValueGroups.length := by
    rw [SearchIndex.directory, length_directoriesFrom]
    exact UInt32.toNat_ofNat_of_lt' h.valueGroups
  have hreads : ReadsBytes (do
      let termKeyGroups ← ByteReader.readGroupDirectories index.directory.termKeyGroups.length
      let termValueGroups ← ByteReader.readGroupDirectories index.directory.termValueGroups.length
      return SearchIndexDirectory.mk index.header.rowCount termKeyGroups termValueGroups)
      index.directoryBytes index.directory := by
    rw [SearchIndex.directoryBytes, List.flatMap_append]
    apply hkeys.bind
    rw [← List.append_nil (List.flatMap _ index.directory.termValueGroups)]
    exact hvalues.bind (.pure _)
  have hdone := readFrom_done hreads (by
    rw [index.length_directoryBytes]
    exact h.directory.trans (by decide))
  rw [decodeSearchIndexDirectory, if_neg (by
    rw [index.length_directoryBytes, h.directoryLen_eq]
    exact not_not_intro rfl), hkeyCount, hvalueCount]
  simpa only [bind_assoc, pure_bind] using hdone

/-- The infos of terms come back from their bytes. -/
theorem decodeSearchTermInfos_encode (termInfos : List TermInfo)
    (hlength : (encodeSearchTermInfos termInfos).length < 2 ^ 64) :
    decodeSearchTermInfos (encodeSearchTermInfos termInfos) termInfos.length = .ok termInfos := by
  have hreads : ReadsBytes (ByteReader.readTimes ByteReader.readTermInfo termInfos.length)
      (encodeSearchTermInfos termInfos) termInfos :=
    ByteReader.reads_times fun info _ => ByteReader.reads_termInfo info
  have hdone := readFrom_done hreads hlength
  rw [length_encodeSearchTermInfos] at hlength
  rw [decodeSearchTermInfos, checkedMul, if_pos hlength, Outcome.ok_bind,
    if_neg (by rw [length_encodeSearchTermInfos]; exact not_not_intro rfl)]
  exact hdone

/-- A section is cut out at its range. -/
theorem sliceRange_append {front bytes rest : List UInt8}
    (hlength : (front ++ bytes ++ rest).length < 2 ^ 64) :
    sliceRange (front ++ bytes ++ rest) ⟨UInt64.ofNat front.length, UInt64.ofNat bytes.length⟩ =
      .ok bytes := by
  simp only [List.length_append] at hlength
  have hstart : (UInt64.ofNat front.length).toNat = front.length :=
    UInt64.toNat_ofNat_of_lt' (by change _ < 2 ^ 64; omega)
  have hlen : (UInt64.ofNat bytes.length).toNat = bytes.length :=
    UInt64.toNat_ofNat_of_lt' (by change _ < 2 ^ 64; omega)
  simp only [sliceRange, hstart, hlen]
  rw [checkedAdd, if_pos (by omega), Outcome.ok_bind,
    if_neg (by simp only [List.length_append]; omega), sliceOf,
    if_pos (by simp only [List.length_append]; omega), List.append_assoc, List.drop_left,
    Nat.add_sub_cancel_left, List.take_left]

variable {fst : FstLib}

/-- A group is read from bytes that hold its sections where its entry says. -/
theorem decodeFullGroup_eq {group : SearchRowGroup} {front rest : List UInt8}
    (hvalid : fst.validate group.fstBytes) (hinfos : group.termInfos.length < 2 ^ 32)
    (hlength : (front ++ group.sections.flatten ++ rest).length < 2 ^ 64) :
    decodeFullGroup fst (front ++ group.sections.flatten ++ rest)
      (group.directoryAt front.length) = .ok group := by
  have hsections : group.sections.flatten = group.fstBytes ++
      (encodeSearchTermInfos group.termInfos ++ (group.postings ++ group.positions)) := by
    simp [SearchRowGroup.sections]
  rw [hsections] at hlength ⊢
  -- The bytes, cut before and behind each section.
  have hcut (before bytes after : List UInt8) (hcut : front ++ (group.fstBytes ++
      (encodeSearchTermInfos group.termInfos ++ (group.postings ++ group.positions))) ++ rest =
        before ++ bytes ++ after) :
      sliceRange (front ++ (group.fstBytes ++
        (encodeSearchTermInfos group.termInfos ++ (group.postings ++ group.positions))) ++ rest)
          ⟨UInt64.ofNat before.length, UInt64.ofNat bytes.length⟩ = .ok bytes := by
    rw [hcut] at hlength ⊢
    exact sliceRange_append hlength
  have hfst := hcut front group.fstBytes (encodeSearchTermInfos group.termInfos ++
    (group.postings ++ group.positions) ++ rest) (by simp only [List.append_assoc])
  have htermInfos := hcut (front ++ group.fstBytes) (encodeSearchTermInfos group.termInfos)
    (group.postings ++ group.positions ++ rest) (by simp only [List.append_assoc])
  have hpostings := hcut (front ++ group.fstBytes ++ encodeSearchTermInfos group.termInfos)
    group.postings (group.positions ++ rest) (by simp only [List.append_assoc])
  have hpositions := hcut (front ++ group.fstBytes ++ encodeSearchTermInfos group.termInfos ++
    group.postings) group.positions rest (by simp only [List.append_assoc])
  simp only [List.length_append] at htermInfos hpostings hpositions
  have hdecoded := decodeSearchTermInfos_encode group.termInfos (by
    simp only [List.length_append] at hlength
    omega)
  have hcount : (UInt32.ofNat group.termInfos.length).toNat = group.termInfos.length :=
    UInt32.toNat_ofNat_of_lt' hinfos
  simp only [decodeFullGroup, SearchRowGroup.directoryAt]
  rw [hfst, Outcome.ok_bind, htermInfos, Outcome.ok_bind, hpostings, Outcome.ok_bind, hpositions,
    Outcome.ok_bind, decodeLoadedGroup, hvalid]
  simp only [hcount, hdecoded]
  rfl

/-- Groups are read from bytes that hold their sections one behind the other. -/
theorem decodeFullGroups_eq {groups : List SearchRowGroup} {bytes front rest : List UInt8}
    {start : Nat} (hvalid : ∀ group ∈ groups, fst.validate group.fstBytes)
    (hinfos : ∀ group ∈ groups, group.termInfos.length < 2 ^ 32)
    (hbytes : bytes = front ++ (groups.flatMap SearchRowGroup.sections).flatten ++ rest)
    (hstart : front.length = start) (hlength : bytes.length < 2 ^ 64) :
    decodeFullGroups fst bytes (directoriesFrom start groups) = .ok groups := by
  induction groups generalizing front start with
  | nil => rfl
  | cons group groups ih =>
    obtain ⟨hfirst, hvalid⟩ := List.forall_mem_cons.1 hvalid
    obtain ⟨hinfo, hinfos⟩ := List.forall_mem_cons.1 hinfos
    rw [List.flatMap_cons, List.flatten_append, ← List.append_assoc] at hbytes
    have hone : decodeFullGroup fst bytes (group.directoryAt start) = .ok group := by
      rw [hbytes, List.append_assoc] at hlength ⊢
      rw [← hstart]
      exact decodeFullGroup_eq hfirst hinfo hlength
    have hrest := ih hvalid hinfos hbytes (by
      rw [List.length_append, group.length_sections, hstart])
    rw [directoriesFrom, decodeFullGroups, List.mapM_cons, hone, Outcome.ok_bind,
      ← decodeFullGroups, hrest]
    rfl

/-- The ranges of the entries are those of the sections. -/
theorem flatMap_ranges_directoriesFrom (groups : List SearchRowGroup) (offset : Nat) :
    (directoriesFrom offset groups).flatMap SearchIndexGroupDirectory.ranges =
      placedFrom offset (groups.flatMap SearchRowGroup.sections) := by
  induction groups generalizing offset with
  | nil => rfl
  | cons group groups ih =>
    rw [directoriesFrom, List.flatMap_cons, ih, List.flatMap_cons, SearchRowGroup.size,
      ← Nat.add_assoc, ← Nat.add_assoc, ← Nat.add_assoc]
    rfl

theorem directoriesFrom_append (groups groups' : List SearchRowGroup) (offset : Nat) :
    directoriesFrom offset (groups ++ groups') =
      directoriesFrom offset groups ++ directoriesFrom (offset + sizeOfGroups groups) groups' := by
  induction groups generalizing offset with
  | nil => rfl
  | cons group groups ih =>
    rw [List.cons_append, directoriesFrom, ih, directoriesFrom, sizeOfGroups, sizeOfGroups,
      List.map_cons, List.sum_cons, ← Nat.add_assoc]
    rfl

/-- The entries of the directory are those of all groups. -/
theorem SearchIndex.directory_groups (index : SearchIndex) :
    index.directory.termKeyGroups ++ index.directory.termValueGroups =
      directoriesFrom index.sectionsStart index.groups :=
  (directoriesFrom_append _ _ _).symm

theorem SearchIndex.length_head (index : SearchIndex) :
    (index.header.bytes ++ index.directoryBytes).length = index.sectionsStart := by
  rw [List.length_append, index.header.length_bytes, index.length_directoryBytes]
  rfl

/-- Decoding bytes that begin with the header and the directory of an index comes down to its
groups. -/
theorem decodeSearchIndex_append {index : SearchIndex} {bytes rest : List UInt8}
    (hfits : index.Fits) (hbytes : bytes = index.header.bytes ++ index.directoryBytes ++ rest)
    (hlength : bytes.length < 2 ^ 64) :
    decodeSearchIndex fst bytes = (do
      let termKeyGroups ← decodeFullGroups fst bytes index.directory.termKeyGroups
      let termValueGroups ← decodeFullGroups fst bytes index.directory.termValueGroups
      return { rowCount := index.rowCount, termKeyGroups, termValueGroups }) := by
  have hwithin : index.sectionsStart ≤ bytes.length := by
    rw [hbytes, List.length_append, index.length_head]
    exact Nat.le_add_right _ _
  have hheader : decodeSearchIndexHeader bytes = .ok index.header := by
    rw [hbytes, List.append_assoc] at hlength ⊢
    exact decodeSearchIndexHeader_append _ _ hlength
  have hstop : checkedAdd searchIndexHeaderLen index.header.directoryLen.toNat
      "search directory offset overflow" = .ok index.sectionsStart := by
    rw [checkedAdd, hfits.directoryLen_eq]
    exact if_pos (hwithin.trans_lt hlength)
  have hslice : sliceOf bytes searchIndexHeaderLen index.sectionsStart =
      .ok index.directoryBytes := by
    have hlen := index.length_directoryBytes
    rw [sliceOf, if_pos ⟨Nat.le_add_right _ _, hwithin⟩, hbytes, List.append_assoc,
      ← index.header.length_bytes, List.drop_left, index.header.length_bytes,
      SearchIndex.sectionsStart, Nat.add_sub_cancel_left, ← hlen, List.take_left]
  rw [decodeSearchIndex, hheader, Outcome.ok_bind, hstop, Outcome.ok_bind,
    if_neg (Nat.not_lt_of_le hwithin), hslice, Outcome.ok_bind,
    decodeSearchIndexDirectory_eq hfits, Outcome.ok_bind]
  rfl

/-- An index comes back from its bytes if its maps are valid. -/
theorem decodeSearchIndex_layout {index : SearchIndex}
    (hvalid : ∀ group ∈ index.groups, fst.validate group.fstBytes) (hfits : index.Fits) :
    decodeSearchIndex fst index.layout = .ok index := by
  have hlength := hfits.length_lt
  have hlayout : index.layout =
      index.header.bytes ++ index.directoryBytes ++ index.sections.flatten := rfl
  have hsections : index.sections.flatten =
      (index.termKeyGroups.flatMap SearchRowGroup.sections).flatten ++
        (index.termValueGroups.flatMap SearchRowGroup.sections).flatten := by
    rw [SearchIndex.sections, SearchIndex.groups, List.flatMap_append, List.flatten_append]
  obtain ⟨hkeysValid, hvaluesValid⟩ := List.forall_mem_append.1 hvalid
  obtain ⟨hkeyInfos, hvalueInfos⟩ := List.forall_mem_append.1 hfits.termInfos
  rw [decodeSearchIndex_append hfits hlayout hlength]
  rw [hsections, ← List.append_assoc] at hlayout
  have hkeys : decodeFullGroups fst index.layout index.directory.termKeyGroups =
      .ok index.termKeyGroups :=
    decodeFullGroups_eq hkeysValid hkeyInfos hlayout index.length_head hlength
  rw [← List.append_nil (_ ++ (index.termValueGroups.flatMap _).flatten)] at hlayout
  have hvalues : decodeFullGroups fst index.layout index.directory.termValueGroups =
      .ok index.termValueGroups :=
    decodeFullGroups_eq hvaluesValid hvalueInfos hlayout (by
      rw [List.length_append, index.length_head, length_flatten_sections]) hlength
  rw [hkeys, Outcome.ok_bind, hvalues]
  rfl

/-! Indexes that are built. -/

/-- What is added to an index. -/
inductive SearchAddition where
  | path (row : UInt32) (path : String)
  | valuePosition (row : UInt32) (path token : String) (position : UInt32)

def MutableSearchIndex.add (index : MutableSearchIndex) : SearchAddition → MutableSearchIndex
  | .path row path => index.addPath row path
  | .valuePosition row path token position => index.addValuePosition row path token position

/-- An index is what the builder makes of some additions. -/
def FstLib.Builds (fst : FstLib) (index : SearchIndex) : Prop :=
  ∃ (rowCount : Nat) (additions : List SearchAddition),
    (additions.foldl MutableSearchIndex.add (.new rowCount)).finish fst = .ok index

/-- What the library writes are maps. -/
def FstLib.WritesMaps (fst : FstLib) : Prop :=
  ∀ builder bytes, fst.intoInner builder = .ok bytes → fst.validate bytes

theorem orContext_eq_ok_iff {result : Except String α} {context : String} {value : α} :
    orContext result context = .ok value ↔ result = .ok value := by
  cases result with
  | ok other => simp [orContext]
  | error message => simp [orContext]

theorem validate_of_encodeRowGroup (hfst : fst.WritesMaps) {entries : List TermEntry}
    {includePositions : Bool} {group : SearchRowGroup}
    (h : encodeRowGroup fst includePositions entries = .ok group) :
    fst.validate group.fstBytes := by
  rw [encodeRowGroup] at h
  obtain ⟨encoder, -, h⟩ := Outcome.bind_eq_ok_iff.1 h
  obtain ⟨bytes, hbytes, h⟩ := Outcome.bind_eq_ok_iff.1 h
  cases h
  exact hfst _ _ (orContext_eq_ok_iff.1 hbytes)

theorem validate_of_groupsFrom (hfst : fst.WritesMaps) {includePositions : Bool}
    {entries current : List TermEntry} {groups result : List SearchRowGroup}
    {postingsBytes rawTermBytes : Nat} (hgroups : ∀ group ∈ groups, fst.validate group.fstBytes)
    (h : groupsFrom fst includePositions groups current postingsBytes rawTermBytes entries =
      .ok result) : ∀ group ∈ result, fst.validate group.fstBytes := by
  have hpush {current : List TermEntry} {group : SearchRowGroup}
      {groups : List SearchRowGroup} (hgroups : ∀ group ∈ groups, fst.validate group.fstBytes)
      (h : encodeRowGroup fst includePositions current = .ok group) :
      ∀ other ∈ groups ++ [group], fst.validate other.fstBytes :=
    List.forall_mem_append.2
      ⟨hgroups, List.forall_mem_singleton.2 (validate_of_encodeRowGroup hfst h)⟩
  induction entries generalizing groups current postingsBytes rawTermBytes with
  | nil =>
    rw [groupsFrom] at h
    split at h
    · obtain ⟨group, hgroup, h⟩ := Outcome.bind_eq_ok_iff.1 h
      cases h
      exact hpush hgroups hgroup
    · cases h
      exact hgroups
  | cons entry entries ih =>
    rw [groupsFrom] at h
    obtain ⟨bytes, -, h⟩ := Outcome.bind_eq_ok_iff.1 h
    dsimp only at h
    split at h
    · obtain ⟨group, hgroup, h⟩ := Outcome.bind_eq_ok_iff.1 h
      exact ih (hpush hgroups hgroup) h
    · exact ih hgroups h

/-- The maps of an index that is built are valid. -/
theorem FstLib.Builds.validate (hfst : fst.WritesMaps) {index : SearchIndex}
    (h : fst.Builds index) : ∀ group ∈ index.groups, fst.validate group.fstBytes := by
  obtain ⟨rowCount, additions, h⟩ := h
  rw [MutableSearchIndex.finish] at h
  obtain ⟨keys, hkeys, h⟩ := Outcome.bind_eq_ok_iff.1 h
  obtain ⟨values, hvalues, h⟩ := Outcome.bind_eq_ok_iff.1 h
  cases h
  exact List.forall_mem_append.2 ⟨validate_of_groupsFrom hfst (by simp) hkeys,
    validate_of_groupsFrom hfst (by simp) hvalues⟩

/-- The directory says how long it is, and where each section lies: one behind the other, from the
end of the directory to the end of the bytes. -/
def SearchIndex.LaidOut (index : SearchIndex) (bytes : List UInt8) : Prop :=
  ∃ header directory, decodeSearchIndexHeader bytes = .ok header ∧
    decodeSearchIndexDirectory header
      ((bytes.drop searchIndexHeaderLen).take header.directoryLen.toNat) = .ok directory ∧
    (directory.termKeyGroups ++ directory.termValueGroups).flatMap
        SearchIndexGroupDirectory.ranges =
      placedFrom (searchIndexHeaderLen + header.directoryLen.toNat) index.sections ∧
    bytes.drop (searchIndexHeaderLen + header.directoryLen.toNat) = index.sections.flatten

theorem SearchIndex.Fits.laidOut {index : SearchIndex} (h : index.Fits) :
    index.LaidOut index.layout := by
  have hlength := h.length_lt
  have hlayout : index.layout =
      index.header.bytes ++ index.directoryBytes ++ index.sections.flatten := rfl
  have hlen := index.length_directoryBytes
  refine ⟨index.header, index.directory, ?_, ?_, ?_, ?_⟩
  · rw [hlayout, List.append_assoc] at hlength ⊢
    exact decodeSearchIndexHeader_append _ _ hlength
  · rw [h.directoryLen_eq, hlayout, List.append_assoc, ← index.header.length_bytes, List.drop_left,
      ← hlen, List.take_left]
    exact decodeSearchIndexDirectory_eq h
  · rw [index.directory_groups, flatMap_ranges_directoriesFrom, h.directoryLen_eq]
    rfl
  · rw [h.directoryLen_eq, hlayout]
    exact (congrArg (List.drop · _) index.length_head.symm).trans List.drop_left

/-- A library whose maps are kept as their keys, one behind the other. -/
def FstLib.keyList : FstLib where
  Builder := List (List UInt8)
  memory := []
  insert keys key _ :=
    if keys.all fun other => (compare other key).isLT then .ok (keys ++ [key])
    else .error "out of order"
  intoInner keys := .ok keys.flatten
  validate _ := true

/-- Nothing is added to an index of two rows. -/
theorem builds_empty : FstLib.keyList.Builds ⟨2, [], []⟩ := by
  refine ⟨2, [], ?_⟩
  have hkeys : buildKeyEntries .empty [] = [] := by
    rw [buildKeyEntries, buildEntries, radixSortOccurrences, radixSortedOccurrences]
    rfl
  have hvalues : buildValueEntries .empty [] = [] := by
    rw [buildValueEntries, buildEntries, radixSortOccurrences, radixSortedOccurrences]
    rfl
  simp only [List.foldl_nil, MutableSearchIndex.finish, MutableSearchIndex.new, hkeys, hvalues]
  rfl

end KevinDb
