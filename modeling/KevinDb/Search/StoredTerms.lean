import KevinDb.Search.Matching
import KevinDb.Search.RowGroups

namespace KevinDb
set_option autoImplicit true
open Std

/-- What the library promises: the map that a builder writes has the pairs that were inserted. -/
structure FstMaps.Keeps (fst : FstMaps) (pairs : fst.Builder → List (List UInt8 × Nat)) : Prop where
  memory : pairs fst.memory = []
  insert : ∀ builder key value builder', fst.insert builder key value = .ok builder' →
    pairs builder' = pairs builder ++ [(key, value)]
  validate : ∀ builder bytes, fst.intoInner builder = .ok bytes → fst.validate bytes
  stream : ∀ builder bytes, fst.intoInner builder = .ok bytes → fst.stream bytes = pairs builder
  get : ∀ builder bytes, fst.intoInner builder = .ok bytes →
    ∀ key, fst.get bytes key = (pairs builder).lookup key
  startsWith : ∀ builder bytes, fst.intoInner builder = .ok bytes → ∀ front : String,
    fst.startsWith bytes front =
      (pairs builder).filter fun pair => (utf8Bytes front.toList).isPrefixOf pair.1

theorem FstMaps.Keeps.writesMaps {fst : FstMaps} {pairs : fst.Builder → List (List UInt8 × Nat)}
    (h : fst.Keeps pairs) : fst.toFstLib.WritesMaps := h.validate

theorem checkedRange_eq_some {offset len : UInt32} {bytes slice : List UInt8} :
    checkedRange offset len bytes = some slice ↔
      ∃ front back, bytes = front ++ slice ++ back ∧ front.length = offset.toNat ∧
        slice.length = len.toNat := by
  rw [checkedRange]
  constructor
  · intro h
    split at h
    next hle =>
      cases h
      refine ⟨bytes.take offset.toNat, bytes.drop (offset.toNat + len.toNat), ?_, ?_, ?_⟩
      · rw [List.extract_eq_take_drop, Nat.add_sub_cancel_left, List.append_assoc, ← List.drop_drop,
          List.take_append_drop, List.take_append_drop]
      · rw [List.length_take]
        omega
      · rw [List.extract_eq_take_drop, List.length_take, List.length_drop]
        omega
    · cases h
  · rintro ⟨front, back, rfl, hfront, hslice⟩
    rw [if_pos (by simp only [List.length_append]; omega), ← hfront, ← hslice,
      List.extract_eq_take_drop, Nat.add_sub_cancel_left, List.append_assoc, List.drop_left,
      List.take_left]

theorem checkedRange_append {offset len : UInt32} {bytes slice : List UInt8}
    (h : checkedRange offset len bytes = some slice) (back : List UInt8) :
    checkedRange offset len (bytes ++ back) = some slice := by
  obtain ⟨front, rest, rfl, hfront, hslice⟩ := checkedRange_eq_some.1 h
  exact checkedRange_eq_some.2 ⟨front, rest ++ back, by simp, hfront, hslice⟩

/-- The info says where the rows and the positions of an entry are. -/
structure TermInfo.Describes (includePositions : Bool) (postings positions : List UInt8)
    (entry : TermEntry) (info : TermInfo) : Prop where
  docCount : info.docCount.toNat = entry.rows.length
  postings : ∃ bytes, encodeU32List entry.rows = .ok bytes ∧
    checkedRange info.postingsOffset info.postingsLen postings = some bytes
  positions : ∃ bytes, entry.encodedPositions includePositions = .ok bytes ∧
    checkedRange info.positionsOffset info.positionsLen positions = some bytes

theorem TermInfo.Describes.append {includePositions : Bool} {postings positions : List UInt8}
    {entry : TermEntry} {info : TermInfo} (h : info.Describes includePositions postings positions entry)
    (postings' positions' : List UInt8) :
    info.Describes includePositions (postings ++ postings') (positions ++ positions') entry := by
  obtain ⟨hcount, ⟨rows, hrows, hpostings⟩, bytes, hbytes, hpositions⟩ := h
  exact ⟨hcount, ⟨rows, hrows, checkedRange_append hpostings _⟩, bytes, hbytes,
    checkedRange_append hpositions _⟩

/-- The terms of entries with their ordinals. -/
def ordinals (entries : List TermEntry) : List (List UInt8 × Nat) :=
  entries.zipIdx.map fun (entry, ordinal) => (entry.term, ordinal)

theorem ordinals_append (entries : List TermEntry) (entry : TermEntry) :
    ordinals (entries ++ [entry]) = ordinals entries ++ [(entry.term, entries.length)] := by
  rw [ordinals, List.zipIdx_append, List.map_append, ← ordinals, Nat.zero_add]
  rfl

theorem checkedU32_toNat {n : Nat} {label : String} {value : UInt32}
    (h : checkedU32 n label = .ok value) : value.toNat = n := by
  obtain ⟨hn, rfl⟩ := checkedU32_eq_ok_iff.1 h
  exact UInt32.toNat_ofNat_of_lt' hn

/-- What one turn of the loop of `encode_row_group` adds. -/
theorem GroupEncoder.push_eq_ok {fst : FstLib} {includePositions : Bool}
    {encoder encoder' : GroupEncoder fst} {entry : TermEntry}
    (h : encoder.push includePositions entry = .ok encoder') :
    ∃ builder encodedPostings encodedPositions info,
      fst.insert encoder.fst entry.term encoder.termInfos.length = .ok builder ∧
      encodeU32List entry.rows = .ok encodedPostings ∧
      entry.encodedPositions includePositions = .ok encodedPositions ∧
      TermInfo.docCount info = UInt32.ofNat entry.rows.length ∧ entry.rows.length < 2 ^ 32 ∧
      info.postingsOffset.toNat = encoder.postings.length ∧
      info.postingsLen.toNat = encodedPostings.length ∧
      info.positionsOffset.toNat = encoder.positions.length ∧
      info.positionsLen.toNat = encodedPositions.length ∧
      encoder' = ⟨builder, encoder.termInfos ++ [info], encoder.postings ++ encodedPostings,
        encoder.positions ++ encodedPositions⟩ := by
  rw [GroupEncoder.push] at h
  obtain ⟨builder, hbuilder, h⟩ := Outcome.bind_eq_ok_iff.1 h
  obtain ⟨postingsOffset, hpostingsOffset, h⟩ := Outcome.bind_eq_ok_iff.1 h
  obtain ⟨encodedPostings, hpostings, h⟩ := Outcome.bind_eq_ok_iff.1 h
  obtain ⟨postingsLen, hpostingsLen, h⟩ := Outcome.bind_eq_ok_iff.1 h
  obtain ⟨positionsOffset, hpositionsOffset, h⟩ := Outcome.bind_eq_ok_iff.1 h
  obtain ⟨encodedPositions, hpositions, h⟩ := Outcome.bind_eq_ok_iff.1 h
  obtain ⟨positionsLen, hpositionsLen, h⟩ := Outcome.bind_eq_ok_iff.1 h
  obtain ⟨docCount, hdocCount, h⟩ := Outcome.bind_eq_ok_iff.1 h
  cases h
  obtain ⟨hcount, rfl⟩ := checkedU32_eq_ok_iff.1 hdocCount
  exact ⟨builder, encodedPostings, encodedPositions, _, orContext_eq_ok_iff.1 hbuilder, hpostings,
    hpositions, rfl, hcount, checkedU32_toNat hpostingsOffset, checkedU32_toNat hpostingsLen,
    checkedU32_toNat hpositionsOffset, checkedU32_toNat hpositionsLen, rfl⟩

section encoding

variable {fst : FstMaps} {pairs : fst.Builder → List (List UInt8 × Nat)} {includePositions : Bool}

/-- What the loop of `encode_row_group` has after some entries. -/
structure GroupEncoder.Encodes (pairs : fst.Builder → List (List UInt8 × Nat))
    (includePositions : Bool) (encoder : GroupEncoder fst.toFstLib) (entries : List TermEntry) :
    Prop where
  pairs : pairs encoder.fst = ordinals entries
  infos : List.Forall₂ (fun entry info =>
    TermInfo.Describes includePositions encoder.postings encoder.positions entry info)
      entries encoder.termInfos

theorem GroupEncoder.Encodes.push {encoder encoder' : GroupEncoder fst.toFstLib}
    {entries : List TermEntry} {entry : TermEntry} (hfst : fst.Keeps pairs)
    (h : encoder.Encodes pairs includePositions entries)
    (hpush : encoder.push includePositions entry = .ok encoder') :
    encoder'.Encodes pairs includePositions (entries ++ [entry]) := by
  obtain ⟨builder, encodedPostings, encodedPositions, info, hbuilder, hpostings, hpositions, hcount,
    hrows, hpostingsOffset, hpostingsLen, hpositionsOffset, hpositionsLen, rfl⟩ :=
      GroupEncoder.push_eq_ok hpush
  constructor
  · change pairs builder = _
    rw [hfst.insert _ _ _ _ hbuilder, h.pairs, ordinals_append, h.infos.length_eq]
  · apply List.rel_append
    · exact h.infos.imp fun entry info hinfo => hinfo.append _ _
    · refine .cons ⟨?_, ⟨encodedPostings, hpostings, ?_⟩, encodedPositions, hpositions, ?_⟩ .nil
      · rw [hcount]
        exact UInt32.toNat_ofNat_of_lt' hrows
      · exact checkedRange_eq_some.2 ⟨encoder.postings, [], by rw [List.append_nil],
          hpostingsOffset.symm, hpostingsLen.symm⟩
      · exact checkedRange_eq_some.2 ⟨encoder.positions, [], by rw [List.append_nil],
          hpositionsOffset.symm, hpositionsLen.symm⟩

theorem GroupEncoder.Encodes.foldlM {encoder encoder' : GroupEncoder fst.toFstLib}
    {done entries : List TermEntry} (hfst : fst.Keeps pairs)
    (h : encoder.Encodes pairs includePositions done)
    (hfold : entries.foldlM (GroupEncoder.push includePositions) encoder = .ok encoder') :
    encoder'.Encodes pairs includePositions (done ++ entries) := by
  induction entries generalizing encoder done with
  | nil =>
    cases hfold
    rwa [List.append_nil]
  | cons entry entries ih =>
    rw [List.foldlM_cons] at hfold
    obtain ⟨next, hnext, hfold⟩ := Outcome.bind_eq_ok_iff.1 hfold
    rw [← List.singleton_append, ← List.append_assoc]
    exact ih (h.push hfst hnext) hfold

/-- A group holds entries: its map has their terms with their ordinals, and its infos describe them. -/
structure SearchRowGroup.Holds (fst : FstMaps) (includePositions : Bool) (group : SearchRowGroup)
    (entries : List TermEntry) : Prop where
  validate : fst.validate group.fstBytes
  stream : fst.stream group.fstBytes = ordinals entries
  get : ∀ key, fst.get group.fstBytes key = (ordinals entries).lookup key
  startsWith : ∀ front : String, fst.startsWith group.fstBytes front =
    (ordinals entries).filter fun pair => (utf8Bytes front.toList).isPrefixOf pair.1
  infos : List.Forall₂ (fun entry info =>
    TermInfo.Describes includePositions group.postings group.positions entry info)
      entries group.termInfos

/-- A group holds the entries it is made of. -/
theorem holds_of_encodeRowGroup {entries : List TermEntry} {group : SearchRowGroup}
    (hfst : fst.Keeps pairs)
    (h : encodeRowGroup fst.toFstLib includePositions entries = .ok group) :
    group.Holds fst includePositions entries := by
  rw [encodeRowGroup] at h
  obtain ⟨encoder, hencoder, h⟩ := Outcome.bind_eq_ok_iff.1 h
  obtain ⟨bytes, hbytes, h⟩ := Outcome.bind_eq_ok_iff.1 h
  cases h
  have hbytes := orContext_eq_ok_iff.1 hbytes
  have hstart : GroupEncoder.Encodes pairs includePositions
      (⟨fst.memory, [], [], []⟩ : GroupEncoder fst.toFstLib) [] := ⟨hfst.memory, .nil⟩
  obtain ⟨hpairs, hinfos⟩ := hstart.foldlM hfst hencoder
  rw [List.nil_append] at hpairs hinfos
  refine ⟨hfst.validate _ _ hbytes, ?_, fun key => ?_, fun front => ?_, hinfos⟩
  · rw [hfst.stream _ _ hbytes, hpairs]
  · rw [hfst.get _ _ hbytes, hpairs]
  · rw [hfst.startsWith _ _ hbytes, hpairs]

end encoding

/-! Reading what a group holds. -/

/-- The rows ascend, and so do the positions of each, of which there are less than `2^32`. -/
structure TermEntry.Ordered (entry : TermEntry) : Prop where
  rows : entry.rows.Pairwise (· < ·)
  positions : ∀ row ∈ entry.rows, (positionsOf entry.positionsByRow row).Pairwise (· < ·) ∧
    (positionsOf entry.positionsByRow row).length < 2 ^ 32

/-- What is read of an entry. -/
def TermEntry.decoded (includePositions : Bool) (entry : TermEntry) : DecodedTerm where
  path := termPath entry.term
  rows := entry.rows.toFinset
  positionsByRow := if includePositions then insertPositions entry.positionsByRow entry.rows ∅ else ∅

theorem mem_ordinals {entries : List TermEntry} {pair : List UInt8 × Nat} :
    pair ∈ ordinals entries ↔ ∃ entry, entries[pair.2]? = some entry ∧ entry.term = pair.1 := by
  obtain ⟨term, ordinal⟩ := pair
  simp only [ordinals, List.mem_map, Prod.exists, List.mem_zipIdx_iff_getElem?, Prod.mk.injEq]
  constructor
  · rintro ⟨entry, _, hget, rfl, rfl⟩
    exact ⟨entry, hget, rfl⟩
  · rintro ⟨entry, hget, rfl⟩
    exact ⟨entry, ordinal, hget, rfl, rfl⟩

theorem find_ordinals (entries : List TermEntry) (ordinal : Nat) :
    (ordinals entries).find? (fun pair => pair.2 = ordinal) =
      entries[ordinal]?.map fun entry => (entry.term, ordinal) := by
  have hfrom (start : Nat) (ordinal : Nat) :
      ((entries.zipIdx start).map fun (entry, ordinal) => (entry.term, ordinal)).find?
        (fun pair => pair.2 = start + ordinal) =
          entries[ordinal]?.map fun entry => (entry.term, start + ordinal) := by
    induction entries generalizing start ordinal with
    | nil => rfl
    | cons entry entries ih =>
      rw [List.zipIdx_cons, List.map_cons]
      cases ordinal with
      | zero => rw [List.find?_cons_of_pos (by simp)]; rfl
      | succ ordinal =>
        rw [List.find?_cons_of_neg (by simp), ← Nat.add_assoc, Nat.add_right_comm, ih,
          List.getElem?_cons_succ]
  have hzero := hfrom 0 ordinal
  rw [Nat.zero_add] at hzero
  exact hzero

variable {fst : FstMaps} {built includePositions : Bool} {group : SearchRowGroup}
  {entries : List TermEntry}

theorem putVint_ne_nil (value : Nat) : putVint value ≠ [] := by
  rw [putVint]
  split
  · exact List.cons_ne_nil _ _
  · exact List.cons_ne_nil _ _

theorem groupTermPositions_eq {entry : TermEntry} {info : TermInfo} (hordered : entry.Ordered)
    (hinfo : info.Describes built group.postings group.positions entry)
    (hbuilt : includePositions → built) :
    groupTermPositions group info entry.rows includePositions =
      some (entry.decoded includePositions).positionsByRow := by
  rw [groupTermPositions, TermEntry.decoded]
  obtain ⟨-, -, bytes, hbytes, hrange⟩ := hinfo
  cases includePositions with
  | false => rfl
  | true =>
    rw [TermEntry.encodedPositions, if_pos (hbuilt rfl)] at hbytes
    obtain ⟨front, back, hpositions, -, hlength⟩ := checkedRange_eq_some.1 hrange
    have hlt := info.positionsLen.toNat_lt
    have hdecoded := readFrom_done (reads_positions hordered.positions ∅ hbytes) (by omega)
    rw [← decodePositions] at hdecoded
    by_cases hempty : 0 < info.positionsLen
    · rw [if_pos (by simpa using hempty), hrange, Option.bind_eq_bind, Option.bind_some, hdecoded]
      rfl
    · -- Nothing is written only if there are no rows.
      have hnil : bytes = [] := by
        have hzero : info.positionsLen.toNat = 0 := by
          have := UInt32.lt_iff_toNat_lt.not.1 hempty
          simpa using this
        exact List.length_eq_zero_iff.1 (hlength.trans hzero)
      have hrows : entry.rows = [] := by
        rw [hnil] at hbytes
        cases hrows : entry.rows with
        | nil => rfl
        | cons row rows =>
          rw [hrows] at hbytes
          obtain ⟨encoded, rest, -, -, hcons⟩ := encodePositions_cons hbytes
          simp only [List.nil_eq, List.append_eq_nil_iff] at hcons
          exact absurd hcons.1.1 (putVint_ne_nil _)
      rw [if_neg (by simpa using hempty), hrows]
      rfl

theorem termByOrdinal_eq (h : group.Holds fst built entries) (ordinal : Nat) :
    termByOrdinal fst group ordinal = entries[ordinal]?.map TermEntry.term := by
  rw [termByOrdinal, FstMaps.open?, if_pos h.validate, h.stream, Option.bind_eq_bind,
    Option.bind_some, find_ordinals]
  cases entries[ordinal]? with
  | none => rfl
  | some entry => rfl

/-- The rows of an entry are read from where its info says. -/
theorem TermInfo.Describes.decodeRows {postings positions : List UInt8} {entry : TermEntry}
    {info : TermInfo} (h : info.Describes built postings positions entry)
    (hrows : entry.rows.Pairwise (· < ·)) :
    ∃ bytes, checkedRange info.postingsOffset info.postingsLen postings = some bytes ∧
      decodeU32List bytes info.docCount.toNat = .ok entry.rows := by
  obtain ⟨hcount, ⟨bytes, hbytes, hrange⟩, -⟩ := h
  have hlt : entry.rows.length * 4 < 2 ^ 63 := by
    have := info.docCount.toNat_lt
    omega
  obtain ⟨out, hout, hdecoded⟩ := decodeU32List_encodeU32List ⟨entry.rows, hlt⟩
    (hrows.imp UInt32.le_of_lt)
  dsimp only at hout hdecoded
  rw [hbytes, Outcome.ok.injEq] at hout
  subst hout
  exact ⟨bytes, hrange, hcount ▸ hdecoded⟩

/-- An ordinal leads to the entry at its place. -/
theorem groupTermByOrdinal_eq (h : group.Holds fst built entries)
    (hordered : ∀ entry ∈ entries, entry.Ordered) (hbuilt : includePositions → built)
    (ordinal : Nat) : groupTermByOrdinal fst group ordinal includePositions =
      entries[ordinal]?.map (TermEntry.decoded includePositions) := by
  rw [groupTermByOrdinal]
  by_cases hlt : ordinal < entries.length
  · have hinfoLt : ordinal < group.termInfos.length := h.infos.length_eq ▸ hlt
    have hdescribes : group.termInfos[ordinal].Describes built group.postings group.positions
        entries[ordinal] := List.Forall₂.get h.infos hlt hinfoLt
    have hentry := hordered _ (List.getElem_mem hlt)
    obtain ⟨bytes, hrange, hrows⟩ := hdescribes.decodeRows hentry.rows
    rw [List.getElem?_eq_getElem hinfoLt, termByOrdinal_eq h, List.getElem?_eq_getElem hlt]
    simp only [Option.bind_eq_bind, Option.bind_some, Option.map_some, hrange, hrows,
      Outcome.toOption, groupTermPositions_eq hentry hdescribes hbuilt]
    rfl
  · have hinfoLe : group.termInfos.length ≤ ordinal := h.infos.length_eq ▸ Nat.le_of_not_lt hlt
    rw [List.getElem?_eq_none hinfoLe, List.getElem?_eq_none (Nat.le_of_not_lt hlt)]
    rfl

/-! What is found in a group. -/

theorem lookup_ordinals (entries : List TermEntry) (key : List UInt8) :
    ((ordinals entries).lookup key).bind (entries[·]?) = entries.find? (·.term = key) := by
  have hfrom (front : List TermEntry) : (((entries.zipIdx front.length).map fun (entry, ordinal) =>
      (entry.term, ordinal)).lookup key).bind ((front ++ entries)[·]?) =
        entries.find? (·.term = key) := by
    induction entries generalizing front with
    | nil => rfl
    | cons entry entries ih =>
      rw [List.zipIdx_cons, List.map_cons, List.lookup_cons]
      by_cases hkey : key = entry.term
      · rw [beq_iff_eq.2 hkey, List.find?_cons_of_pos (by simpa using hkey.symm)]
        simp
      · have hrest := ih (front ++ [entry])
        rw [List.length_append, List.length_singleton, List.append_assoc,
          List.singleton_append] at hrest
        rw [beq_eq_false_iff_ne.2 hkey, List.find?_cons_of_neg (by simpa using Ne.symm hkey)]
        exact hrest
  exact hfrom []

theorem filterMap_ordinals (entries : List TermEntry) (p : List UInt8 → Bool) :
    ((ordinals entries).filter fun pair => p pair.1).filterMap (fun pair => entries[pair.2]?) =
      entries.filter fun entry => p entry.term := by
  have hfrom (front : List TermEntry) : (((entries.zipIdx front.length).map fun (entry, ordinal) =>
      (entry.term, ordinal)).filter fun pair => p pair.1).filterMap
        (fun pair => (front ++ entries)[pair.2]?) = entries.filter fun entry => p entry.term := by
    induction entries generalizing front with
    | nil => rfl
    | cons entry entries ih =>
      have hrest := ih (front ++ [entry])
      rw [List.length_append, List.length_singleton, List.append_assoc,
        List.singleton_append] at hrest
      have hget : (front ++ entry :: entries)[front.length]? = some entry := by simp
      rw [List.zipIdx_cons, List.map_cons]
      cases hp : p entry.term with
      | false =>
        rw [List.filter_cons_of_neg (by simp [hp]), List.filter_cons_of_neg (by simp [hp]), hrest]
      | true =>
        rw [List.filter_cons_of_pos (by simp [hp]), List.filter_cons_of_pos (by simp [hp]),
          List.filterMap_cons]
        simp only [hget, hrest]
  exact hfrom []

theorem groupExactTermRows_eq (h : group.Holds fst built entries)
    (hordered : ∀ entry ∈ entries, entry.Ordered) (hbuilt : includePositions → built)
    (key : List UInt8) : groupExactTermRows fst group key includePositions =
      (entries.find? (·.term = key)).map (TermEntry.decoded includePositions) := by
  rw [groupExactTermRows, FstMaps.open?, if_pos h.validate, Option.bind_eq_bind, Option.bind_some,
    h.get, ← lookup_ordinals, Option.map_bind]
  apply bind_congr
  intro ordinal
  exact groupTermByOrdinal_eq h hordered hbuilt ordinal

theorem groupPrefixTerms_eq (h : group.Holds fst built entries)
    (hordered : ∀ entry ∈ entries, entry.Ordered) (hbuilt : includePositions → built)
    (front : List Char) : groupPrefixTerms fst group (utf8Bytes front) includePositions =
      (entries.filter fun entry => (utf8Bytes front).isPrefixOf entry.term).map
        (TermEntry.decoded includePositions) := by
  have hfound := filterMap_ordinals entries fun key => (utf8Bytes front).isPrefixOf key
  rw [groupPrefixTerms, FstMaps.open?, if_pos h.validate, fromUtf8_utf8Bytes]
  simp only [h.startsWith, String.toList_ofList, groupTermByOrdinal_eq h hordered hbuilt]
  rw [← hfound, List.map_filterMap]

end KevinDb
