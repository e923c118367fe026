import KevinDb.Search.RoundTrip

namespace KevinDb
set_option autoImplicit true

variable {fst : FstLib}

/-! Decoders that do not panic. -/

theorem readFrom_returns {read : Read α} {P : α → Prop} {bytes : List UInt8}
    (h : ReadsSafely read P) (hlength : bytes.length < 2 ^ 63) : (readFrom bytes read).Returns P := by
  rw [readFrom]
  apply (h (.new bytes) ⟨Nat.zero_le _, hlength⟩).bind
  intro result hresult
  exact hresult.1

namespace ByteReader

/-- The shift stays below 32, since the loop ends with an error where it would not. -/
theorem safe_vintFrom {shift : Nat} (hshift : shift < 32) (value : UInt32) :
    ReadsSafely (readVintFrom shift value) fun _ => True := by
  rw [readVintFrom_eq hshift]
  apply safe_u8.bind
  intro byte _
  dsimp only
  split
  · exact .pure trivial
  · split
    · exact .bail _
    next hnext => exact safe_vintFrom (Nat.lt_of_not_le hnext) _
termination_by 32 - shift

theorem safe_vint : ReadsSafely readVint fun _ => True := safe_vintFrom (by decide) 0

end ByteReader

/-- Filling leaves enough bits for a value, and fewer than one byte more. -/
theorem fillBits_returns {width : Nat} (hwidth : width ≤ 32) (bytes : List UInt8) :
    ∀ {accumulator bits : Nat}, bits < width + 8 →
      (fillBits width accumulator bits bytes).Returns fun result =>
        width ≤ result.2.1 ∧ result.2.1 < width + 8 := by
  induction bytes with
  | nil =>
    intro accumulator bits hbits
    rw [fillBits]
    split
    · exact trivial
    next hfull => exact ⟨Nat.le_of_not_lt hfull, hbits⟩
  | cons byte bytes ih =>
    intro accumulator bits hbits
    rw [fillBits]
    split
    next hless =>
      rw [shiftLeft, if_pos (by omega), Outcome.ok_bind, addBelow, if_pos (by omega),
        Outcome.ok_bind]
      exact ih (by omega)
    next hfull => exact ⟨Nat.le_of_not_lt hfull, hbits⟩

theorem unpackFrom_returns {width mask : Nat} (hwidth : width ≤ 32) (count : Nat) :
    ∀ {accumulator bits : Nat} {bytes : List UInt8}, bits < 8 →
      (unpackFrom width mask count accumulator bits bytes).Returns fun _ => True := by
  induction count with
  | zero =>
    intro accumulator bits bytes _
    exact trivial
  | succ count ih =>
    intro accumulator bits bytes hbits
    rw [unpackFrom]
    apply (fillBits_returns hwidth bytes (by omega)).bind
    rintro ⟨accumulator', bits', bytes'⟩ ⟨hfull, hbits'⟩
    dsimp only at hfull hbits' ⊢
    rw [shiftRight, if_pos (by omega), Outcome.ok_bind, subWithin, if_pos hfull, Outcome.ok_bind]
    exact (ih (by omega)).bind fun _ _ => trivial

/-- Packed values of any width, in any bytes, are unpacked or refused. -/
theorem unpackBits_returns (bytes : List UInt8) (count width : Nat) :
    (unpackBits bytes count width).Returns fun _ => True := by
  rw [unpackBits]
  split
  · exact trivial
  next hwidth =>
    split
    · exact trivial
    · rw [unpackMask_eq (by omega), Outcome.ok_bind]
      exact unpackFrom_returns (by omega) count (by decide)

namespace ByteReader

theorem safe_blocks (blocks : Nat) (previous : UInt32) :
    ReadsSafely (readBlocks blocks previous) fun _ => True := by
  induction blocks generalizing previous with
  | zero => exact .pure trivial
  | succ blocks ih =>
    rw [readBlocks]
    apply safe_u8.bind
    intro width _
    apply (safe_slice _).bind
    intro packed _
    apply ReadsSafely.bind (.lift (unpackBits_returns packed blockLen width.toNat))
    intro deltas _
    exact (ih _).bind fun _ _ => .pure trivial

theorem safe_tail (count : Nat) (previous : UInt32) :
    ReadsSafely (readTail count previous) fun _ => True := by
  induction count generalizing previous with
  | zero => exact .pure trivial
  | succ count ih =>
    rw [readTail]
    apply safe_vint.bind
    intro delta _
    exact (ih _).bind fun _ _ => .pure trivial

theorem safe_u32List (count : Nat) : ReadsSafely (readU32List count) fun _ => True := by
  apply (safe_blocks _ _).bind
  intro values _
  exact (safe_tail _ _).bind fun _ _ => .pure trivial

theorem safe_times {read : Read α} (h : ReadsSafely read fun _ => True) (count : Nat) :
    ReadsSafely (readTimes read count) fun _ => True := by
  induction count with
  | zero => exact .pure trivial
  | succ count ih =>
    rw [readTimes]
    apply h.bind
    intro value _
    exact ih.bind fun _ _ => .pure trivial

theorem safe_range : ReadsSafely readRange fun _ => True :=
  safe_u64.bind fun _ _ => safe_u64.bind fun _ _ => .pure trivial

theorem safe_groupDirectory : ReadsSafely readGroupDirectory fun _ => True := by
  apply safe_vec.bind
  intro minTerm _
  apply safe_vec.bind
  intro maxTerm _
  apply safe_u32.bind
  intro termInfoCount _
  apply safe_range.bind
  intro fst _
  apply safe_range.bind
  intro termInfos _
  apply safe_range.bind
  intro postings _
  exact safe_range.bind fun _ _ => .pure trivial

theorem safe_termInfo : ReadsSafely readTermInfo fun _ => True := by
  apply safe_u32.bind
  intro docCount _
  apply safe_u32.bind
  intro postingsOffset _
  apply safe_u32.bind
  intro postingsLen _
  apply safe_u32.bind
  intro positionsOffset _
  exact safe_u32.bind fun _ _ => .pure trivial

theorem safe_header : ReadsSafely readHeader fun _ => True := by
  apply (safe_expectBytes magic).bind
  intro _ _
  apply safe_u32.bind
  intro rowCount _
  apply safe_u32.bind
  intro termKeyGroupCount _
  apply safe_u32.bind
  intro termValueGroupCount _
  exact safe_u32.bind fun _ _ => .pure trivial

end ByteReader

theorem safe_positions (rows : List UInt32) (positionsByRow : Table UInt32 (List UInt32)) :
    ReadsSafely (readPositions rows positionsByRow) fun _ => True := by
  induction rows generalizing positionsByRow with
  | nil => exact .pure trivial
  | cons row rows ih =>
    rw [readPositions]
    apply ByteReader.safe_vint.bind
    intro count _
    apply (ByteReader.safe_u32List _).bind
    intro positions _
    exact ih _

/-- What is read safely, up to the end of the bytes, is decoded without a panic. -/
theorem readFrom_done_returns {read : Read α} {bytes : List UInt8}
    (h : ReadsSafely read fun _ => True) (hlength : bytes.length < 2 ^ 63) :
    (readFrom bytes do
      let value ← read
      ByteReader.expectDone
      return value).Returns fun _ => True := by
  apply readFrom_returns _ hlength
  apply h.bind
  intro value _
  exact ByteReader.safe_expectDone.bind fun _ _ => .pure trivial

section decoders

variable {bytes : List UInt8}

theorem decodeU32List_returns (hlength : bytes.length < 2 ^ 63) (count : Nat) :
    (decodeU32List bytes count).Returns fun _ => True :=
  readFrom_done_returns (ByteReader.safe_u32List count) hlength

theorem decodePositions_returns (hlength : bytes.length < 2 ^ 63) (rows : List UInt32) :
    (decodePositions bytes rows).Returns fun _ => True :=
  readFrom_done_returns (safe_positions rows ∅) hlength

theorem decodeSearchIndexHeader_returns (hlength : bytes.length < 2 ^ 63) :
    (decodeSearchIndexHeader bytes).Returns fun _ => True :=
  readFrom_returns ByteReader.safe_header hlength

theorem decodeSearchIndexDirectory_returns (hlength : bytes.length < 2 ^ 63)
    (header : SearchIndexHeader) :
    (decodeSearchIndexDirectory header bytes).Returns fun _ => True := by
  rw [decodeSearchIndexDirectory]
  split
  · exact trivial
  · apply readFrom_returns _ hlength
    apply (ByteReader.safe_times ByteReader.safe_groupDirectory _).bind
    intro termKeyGroups _
    apply (ByteReader.safe_times ByteReader.safe_groupDirectory _).bind
    intro termValueGroups _
    exact ByteReader.safe_expectDone.bind fun _ _ => .pure trivial

theorem decodeSearchTermInfos_returns (hlength : bytes.length < 2 ^ 63) (expectedCount : Nat) :
    (decodeSearchTermInfos bytes expectedCount).Returns fun _ => True := by
  rw [decodeSearchTermInfos, checkedMul]
  split
  · rw [Outcome.ok_bind]
    split
    · exact trivial
    · exact readFrom_done_returns (ByteReader.safe_times ByteReader.safe_termInfo _) hlength
  · exact trivial

theorem decodeLoadedGroup_returns (hlength : bytes.length < 2 ^ 63)
    (directory : SearchIndexGroupDirectory) (fstBytes postings positions : List UInt8) :
    (decodeLoadedGroup fst directory fstBytes bytes postings positions).Returns fun _ => True := by
  rw [decodeLoadedGroup]
  split
  · exact trivial
  · exact (decodeSearchTermInfos_returns hlength _).bind fun _ _ => trivial

/-- Any range is cut out of the bytes or refused. -/
theorem sliceRange_returns (bytes : List UInt8) (range : SearchIndexRange) :
    (sliceRange bytes range).Returns fun slice => slice.length ≤ bytes.length := by
  simp only [sliceRange, checkedAdd]
  split
  · rw [Outcome.ok_bind]
    split
    · exact trivial
    next hwithin =>
      rw [sliceOf, if_pos ⟨Nat.le_add_right _ _, Nat.le_of_not_lt hwithin⟩]
      change ((bytes.drop range.offset.toNat).take _).length ≤ bytes.length
      rw [List.length_take, List.length_drop]
      omega
  · exact trivial

theorem decodeFullGroup_returns (hlength : bytes.length < 2 ^ 63)
    (group : SearchIndexGroupDirectory) :
    (decodeFullGroup fst bytes group).Returns fun _ => True := by
  apply (sliceRange_returns bytes group.fst).bind
  intro fstBytes _
  apply (sliceRange_returns bytes group.termInfos).bind
  intro termInfos htermInfos
  apply (sliceRange_returns bytes group.postings).bind
  intro postings _
  apply (sliceRange_returns bytes group.positions).bind
  intro positions _
  exact decodeLoadedGroup_returns (htermInfos.trans_lt hlength) group _ _ _

theorem decodeFullGroups_returns (hlength : bytes.length < 2 ^ 63)
    (groups : List SearchIndexGroupDirectory) :
    (decodeFullGroups fst bytes groups).Returns fun _ => True := by
  induction groups with
  | nil => exact trivial
  | cons group groups ih =>
    rw [decodeFullGroups, List.mapM_cons]
    apply (decodeFullGroup_returns hlength group).bind
    intro group _
    exact ih.bind fun _ _ => trivial

theorem decodeSearchIndex_returns (hlength : bytes.length < 2 ^ 63) :
    (decodeSearchIndex fst bytes).Returns fun _ => True := by
  apply (decodeSearchIndexHeader_returns hlength).bind
  intro header _
  rw [checkedAdd]
  split
  · rw [Outcome.ok_bind]
    split
    · exact trivial
    next hwithin =>
      have hdirectory : ((bytes.drop searchIndexHeaderLen).take
          (searchIndexHeaderLen + header.directoryLen.toNat - searchIndexHeaderLen)).length <
            2 ^ 63 := by
        rw [List.length_take, List.length_drop]
        omega
      rw [sliceOf, if_pos ⟨Nat.le_add_right _ _, Nat.le_of_not_lt hwithin⟩, Outcome.ok_bind]
      apply (decodeSearchIndexDirectory_returns hdirectory header).bind
      intro directory _
      apply (decodeFullGroups_returns hlength directory.termKeyGroups).bind
      intro termKeyGroups _
      exact (decodeFullGroups_returns hlength directory.termValueGroups).bind fun _ _ => trivial
  · exact trivial

end decoders

/-! Prefixes of an encoding. -/

/-- A function reads on by so many bytes, if it has a value. -/
def Takes (read : Read α) (len : Nat) : Prop :=
  ∀ reader value reader', read.run reader = .ok (value, reader') →
    reader'.bytes = reader.bytes ∧ reader'.offset = reader.offset + len

theorem Takes.pure (value : α) : Takes (pure value) 0 := by
  rintro reader value' reader' h
  cases h
  exact ⟨rfl, rfl⟩

theorem Takes.lift (outcome : Outcome α) : Takes (liftM outcome : Read α) 0 := by
  intro reader value reader' h
  change (outcome >>= fun value => Outcome.ok (value, reader)) = _ at h
  obtain ⟨_, -, h⟩ := Outcome.bind_eq_ok_iff.1 h
  cases h
  exact ⟨rfl, rfl⟩

theorem Takes.bind {read : Read α} {next : α → Read β} {len len' : Nat} (h : Takes read len)
    (hnext : ∀ value, Takes (next value) len') : Takes (read >>= next) (len + len') := by
  intro reader result reader'' hrun
  rw [StateT.run_bind] at hrun
  obtain ⟨⟨value, reader'⟩, hread, hrun⟩ := Outcome.bind_eq_ok_iff.1 hrun
  obtain ⟨hbytes, hoffset⟩ := h _ _ _ hread
  obtain ⟨hbytes', hoffset'⟩ := hnext _ _ _ _ hrun
  rw [hbytes', hbytes, hoffset', hoffset, Nat.add_assoc]
  exact ⟨rfl, rfl⟩

namespace ByteReader

theorem takes_slice (len : Nat) : Takes (readSlice len) len := by
  intro reader slice reader' h
  simp only [readSlice, StateT.run_bind, StateT.run_get, Outcome.pure_eq, Outcome.ok_bind,
    StateT.run_monadLift, monadLift_self, bind_pure_comp, checkedAdd] at h
  split at h
  · simp only [Outcome.ok_bind] at h
    split at h
    · cases h
    · obtain ⟨slice', -, h⟩ := Outcome.bind_eq_ok_iff.1 h
      cases h
      exact ⟨rfl, rfl⟩
  · cases h

theorem takes_u32 : Takes readU32 4 :=
  (takes_slice 4).bind fun _ => (Takes.lift _).bind fun _ => .pure _

theorem takes_expectBytes (expected : List UInt8) :
    Takes (expectBytes expected) expected.length := by
  change Takes (expectBytes expected) (expected.length + 0)
  apply (takes_slice expected.length).bind
  intro actual
  split
  · intro _ _ _ h
    cases h
  · exact .pure _

theorem takes_header : Takes readHeader searchIndexHeaderLen := by
  change Takes readHeader (magic.length + (4 + (4 + (4 + (4 + 0)))))
  apply (takes_expectBytes magic).bind
  intro _
  apply takes_u32.bind
  intro rowCount
  apply takes_u32.bind
  intro termKeyGroupCount
  apply takes_u32.bind
  intro termValueGroupCount
  exact takes_u32.bind fun _ => .pure _

end ByteReader

/-- Bytes with a header are as long as one. -/
theorem length_of_decodeSearchIndexHeader {bytes : List UInt8} {header : SearchIndexHeader}
    (hlength : bytes.length < 2 ^ 63) (h : decodeSearchIndexHeader bytes = .ok header) :
    searchIndexHeaderLen ≤ bytes.length := by
  rw [decodeSearchIndexHeader, readFrom] at h
  obtain ⟨⟨header', reader⟩, hread, -⟩ := Outcome.bind_eq_ok_iff.1 h
  have hsafe := ByteReader.safe_header (.new bytes) ⟨Nat.zero_le _, hlength⟩
  rw [hread] at hsafe
  obtain ⟨hbytes, hoffset⟩ := ByteReader.takes_header _ _ _ hread
  have hwithin := hsafe.2.1.offset_le
  rw [hbytes, hoffset] at hwithin
  exact (Nat.zero_add _).symm.trans_le hwithin

/-- The last section of some groups ends where all of them do. -/
theorem exists_last_section {groups : List SearchRowGroup} (hne : groups ≠ []) {offset : Nat}
    (hsize : offset + sizeOfGroups groups < 2 ^ 64) :
    ∃ directory ∈ directoriesFrom offset groups,
      directory.positions.offset.toNat + directory.positions.len.toNat =
        offset + sizeOfGroups groups := by
  induction groups generalizing offset with
  | nil => exact absurd rfl hne
  | cons group groups ih =>
    have hsplit : offset + sizeOfGroups (group :: groups) =
        offset + group.size + sizeOfGroups groups := by
      rw [sizeOfGroups, List.map_cons, List.sum_cons, ← Nat.add_assoc]
      rfl
    rw [hsplit] at hsize ⊢
    rw [directoriesFrom]
    by_cases hlast : groups = []
    · subst hlast
      have hgroup : group.size = group.fstBytes.length +
          (encodeSearchTermInfos group.termInfos).length + group.postings.length +
            group.positions.length := rfl
      have hzero : sizeOfGroups [] = 0 := rfl
      refine ⟨_, List.mem_cons_self, ?_⟩
      simp only [SearchRowGroup.directoryAt]
      rw [UInt64.toNat_ofNat_of_lt' (by change _ < 2 ^ 64; omega),
        UInt64.toNat_ofNat_of_lt' (by change _ < 2 ^ 64; omega)]
      omega
    · obtain ⟨directory, hdirectory, hend⟩ := ih hlast hsize
      exact ⟨directory, List.mem_cons_of_mem _ hdirectory, hend⟩

/-- A group whose sections are not all there is not decoded. -/
theorem end_le_of_decodeFullGroup {bytes : List UInt8} {directory : SearchIndexGroupDirectory}
    {group : SearchRowGroup} (h : decodeFullGroup fst bytes directory = .ok group) :
    directory.positions.offset.toNat + directory.positions.len.toNat ≤ bytes.length := by
  rw [decodeFullGroup] at h
  obtain ⟨_, -, h⟩ := Outcome.bind_eq_ok_iff.1 h
  obtain ⟨_, -, h⟩ := Outcome.bind_eq_ok_iff.1 h
  obtain ⟨_, -, h⟩ := Outcome.bind_eq_ok_iff.1 h
  obtain ⟨positions, hpositions, -⟩ := Outcome.bind_eq_ok_iff.1 h
  simp only [sliceRange, checkedAdd] at hpositions
  split at hpositions
  · rw [Outcome.ok_bind] at hpositions
    split at hpositions
    · cases hpositions
    next hwithin => exact Nat.le_of_not_lt hwithin
  · cases hpositions

/-- The beginning of an encoding, but not all of it, is no encoding. -/
theorem decodeSearchIndex_take_ne_ok {index result : SearchIndex} (hfits : index.Fits) {n : Nat}
    (hlength : index.layout.length < 2 ^ 63) (hn : n < index.layout.length) :
    decodeSearchIndex fst (index.layout.take n) ≠ .ok result := by
  intro h
  have hlayout : index.layout =
      index.header.bytes ++ index.directoryBytes ++ index.sections.flatten := rfl
  have htake : (index.layout.take n).length = n := by
    rw [List.length_take, Nat.min_eq_left (Nat.le_of_lt hn)]
  have hshort : (index.layout.take n).length < 2 ^ 63 := htake.trans_lt (hn.trans hlength)
  by_cases hhead : index.sectionsStart ≤ n
  · have hsplit : index.layout.take n = index.header.bytes ++ index.directoryBytes ++
        index.sections.flatten.take (n - index.sectionsStart) := by
      rw [hlayout, List.take_append, index.length_head,
        List.take_of_length_le (by rwa [index.length_head])]
    rw [decodeSearchIndex_append hfits hsplit (hshort.trans (by decide))] at h
    obtain ⟨keys, hkeys, h⟩ := Outcome.bind_eq_ok_iff.1 h
    obtain ⟨values, hvalues, -⟩ := Outcome.bind_eq_ok_iff.1 h
    rw [index.length_layout] at hn
    have hne : index.groups ≠ [] := by
      intro hnil
      rw [hnil] at hn
      exact absurd hn (Nat.not_lt_of_le hhead)
    obtain ⟨directory, hdirectory, hend⟩ := exists_last_section hne hfits.sections
    rw [← index.directory_groups, List.mem_append] at hdirectory
    obtain ⟨group, hgroup⟩ : ∃ group, decodeFullGroup fst (index.layout.take n) directory =
        .ok group :=
      hdirectory.elim (Outcome.exists_ok_of_mapM hkeys) (Outcome.exists_ok_of_mapM hvalues)
    have hwithin := end_le_of_decodeFullGroup hgroup
    rw [hend, htake] at hwithin
    exact absurd hn (Nat.not_lt_of_le hwithin)
  · rw [decodeSearchIndex] at h
    obtain ⟨header, hheader, h⟩ := Outcome.bind_eq_ok_iff.1 h
    have hlong := length_of_decodeSearchIndexHeader hshort hheader
    rw [htake] at hlong
    have hsplit : index.layout.take n = index.header.bytes ++
        (index.directoryBytes ++ index.sections.flatten).take (n - searchIndexHeaderLen) := by
      rw [hlayout, List.append_assoc, List.take_append, index.header.length_bytes,
        List.take_of_length_le (by rwa [index.header.length_bytes])]
    have hsame : header = index.header := by
      rw [hsplit] at hheader hshort
      rw [decodeSearchIndexHeader_append _ _ (hshort.trans (by decide))] at hheader
      exact (Outcome.ok.inj hheader).symm
    obtain ⟨stop, hstop, h⟩ := Outcome.bind_eq_ok_iff.1 h
    obtain ⟨-, rfl⟩ := Outcome.ok_or_error_eq_ok_iff.1 hstop
    have hbeyond : searchIndexHeaderLen + index.directoryLen > n := Nat.lt_of_not_le hhead
    rw [hsame, hfits.directoryLen_eq, htake, if_pos hbeyond] at h
    cases h

/-- The decoders refuse every beginning of an encoding that is not all of it, and none of them
panics, whatever the bytes. -/
theorem search_index_decoders_reject (fst : FstLib) (bytes : Slice UInt8 1) :
    (∀ index, fst.Builds index → encodeSearchIndex index = .ok bytes.elements →
      ∀ n, n < bytes.elements.length →
        ∃ message, decodeSearchIndex fst (bytes.elements.take n) = .error message) ∧
    decodeSearchIndex fst bytes.elements ≠ .panic ∧
    decodeSearchIndexHeader bytes.elements ≠ .panic ∧
    (∀ header, decodeSearchIndexDirectory header bytes.elements ≠ .panic) ∧
    (∀ groups, decodeFullGroups fst bytes.elements groups ≠ .panic) ∧
    (∀ directory fstBytes postings positions,
      decodeLoadedGroup fst directory fstBytes bytes.elements postings positions ≠ .panic) ∧
    (∀ count, decodeSearchTermInfos bytes.elements count ≠ .panic) ∧
    (∀ count, decodeU32List bytes.elements count ≠ .panic) ∧
    ∀ rows, decodePositions bytes.elements rows ≠ .panic := by
  have hlength : bytes.elements.length < 2 ^ 63 := by
    have := bytes.bytes_lt
    omega
  refine ⟨?_, (decodeSearchIndex_returns hlength).ne_panic,
    (decodeSearchIndexHeader_returns hlength).ne_panic,
    fun header => (decodeSearchIndexDirectory_returns hlength header).ne_panic,
    fun groups => (decodeFullGroups_returns hlength groups).ne_panic,
    fun directory _ _ _ => (decodeLoadedGroup_returns hlength directory _ _ _).ne_panic,
    fun count => (decodeSearchTermInfos_returns hlength count).ne_panic,
    fun count => (decodeU32List_returns hlength count).ne_panic,
    fun rows => (decodePositions_returns hlength rows).ne_panic⟩
  intro index _ hencoded n hn
  obtain ⟨hfits, hlayout⟩ := encodeSearchIndex_eq_ok_iff.1 hencoded
  rw [hlayout] at hn hlength ⊢
  have hshort : (index.layout.take n).length < 2 ^ 63 :=
    (List.length_take_le _ _).trans_lt (hn.trans hlength)
  have hreturns : (decodeSearchIndex fst (index.layout.take n)).Returns fun _ => True :=
    decodeSearchIndex_returns hshort
  cases hdecoded : decodeSearchIndex fst (index.layout.take n) with
  | ok result => exact absurd hdecoded (decodeSearchIndex_take_ne_ok hfits hlength hn)
  | error message => exact ⟨message, rfl⟩
  | panic => exact absurd hdecoded hreturns.ne_panic

end KevinDb
