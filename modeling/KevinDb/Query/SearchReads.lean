import KevinDb.Query.SearchLoad
import KevinDb.Search.RoundTrip
import KevinDb.Search.StoredTerms

namespace KevinDb
set_option autoImplicit true
open Std

/-! Loads. -/

namespace Load

variable {load : Load α} {f : α → Load β} {value : α} {result : β} {outcome : Outcome α}
  {count count' : Nat}

/-- A load has a value, whatever was read before. -/
def Gives (load : Load α) (value : α) : Prop := ∀ stats, (load stats).1 = .ok value

/-- A load makes so many requests at most, all of them for ranges. -/
structure Requests (load : Load α) (count : Nat) : Prop where
  getRanges : ∀ stats, (load stats).2.getRangesRequests ≤ stats.getRangesRequests + count
  others : ∀ stats, (load stats).2.getRequests = stats.getRequests ∧
    (load stats).2.headRequests = stats.headRequests ∧
      (load stats).2.listRequests = stats.listRequests

theorem gives_pure (value : α) : (pure value : Load α).Gives value := fun _ => rfl

theorem gives_ofOutcome (h : outcome = .ok value) : (ofOutcome outcome).Gives value := fun _ => h

theorem bind_apply (stats : ObjectStoreReadSnapshot) : (load >>= f) stats =
    match load stats with
    | (.ok value, stats) => f value stats
    | (.error message, stats) => (.error message, stats)
    | (.panic, stats) => (.panic, stats) := rfl

theorem Gives.bind (h : load.Gives value) (hf : (f value).Gives result) :
    (load >>= f).Gives result := by
  intro stats
  have hload : load stats = (.ok value, (load stats).2) := Prod.ext (h stats) rfl
  rw [bind_apply, hload]
  exact hf _

theorem Gives.withContext {context : String} (h : load.Gives value) :
    (load.withContext context).Gives value := by
  intro stats
  rw [Load.withContext, h stats]
  rfl

theorem requests_ofOutcome (outcome : Outcome α) : (ofOutcome outcome).Requests 0 :=
  ⟨fun _ => Nat.le_refl _, fun _ => ⟨rfl, rfl, rfl⟩⟩

theorem requests_pure (value : α) : (pure value : Load α).Requests 0 :=
  requests_ofOutcome (.ok value)

theorem Requests.mono (h : load.Requests count) (hle : count ≤ count') : load.Requests count' :=
  ⟨fun stats => (h.getRanges stats).trans (Nat.add_le_add_left hle _), h.others⟩

theorem Requests.bind (h : load.Requests count) (hf : ∀ value, (f value).Requests count') :
    (load >>= f).Requests (count + count') := by
  have hbind (stats : ObjectStoreReadSnapshot) :
      ((load >>= f) stats).2 = (load stats).2 ∨
        ∃ value, ((load >>= f) stats).2 = (f value (load stats).2).2 := by
    rw [bind_apply]
    rcases load stats with ⟨value | message | _, stats⟩
    · exact .inr ⟨value, rfl⟩
    · exact .inl rfl
    · exact .inl rfl
  constructor
  · intro stats
    have hfirst := h.getRanges stats
    rcases hbind stats with heq | ⟨value, heq⟩
    · rw [heq]
      omega
    · have hnext := (hf value).getRanges (load stats).2
      rw [heq]
      omega
  · intro stats
    rcases hbind stats with heq | ⟨value, heq⟩
    · rw [heq]
      exact h.others stats
    · obtain ⟨hget, hhead, hlist⟩ := (hf value).others (load stats).2
      rw [heq, hget, hhead, hlist]
      exact h.others stats

theorem Requests.withContext {context : String} (h : load.Requests count) :
    (load.withContext context).Requests count :=
  ⟨h.getRanges, h.others⟩

end Load

/-! Ranges of an object. -/

/-- A store returns the bytes of the ranges of an object. -/
def StoreReturns (getRanges : List ByteRange → Except String (List (List UInt8)))
    (bytes : List UInt8) : Prop :=
  ∀ ranges : List ByteRange, (∀ range ∈ ranges, range.Within bytes.length) →
    getRanges ranges = .ok (ranges.map fun range => bytes.extract range.start range.stop)

/-- The bytes of a range. -/
def ByteRange.read (bytes : List UInt8) (range : ByteRange) : List UInt8 :=
  bytes.extract range.start range.stop

section ranges

variable {getRanges : List ByteRange → Except String (List (List UInt8))} {bytes part : List UInt8}
  {ranges ranges' ranges'' : List ByteRange}

/-- Writing the bytes of ranges at their places, in any order, gives the bytes of each. -/
theorem foldl_set_eq {indexed : List (ByteRange × Nat)} (hperm : indexed.Perm ranges.zipIdx) :
    indexed.foldl (fun chunks entry => chunks.set entry.2 (entry.1.read bytes))
      (ranges.map fun _ => []) = ranges.map (ByteRange.read bytes) := by
  have hmem (entry : ByteRange × Nat) : entry ∈ indexed ↔ ranges[entry.2]? = some entry.1 := by
    rw [hperm.mem_iff, List.mem_zipIdx_iff_getElem?]
  apply List.ext_getElem?
  intro i
  rw [getElem?_foldl_set (ByteRange.read bytes) (fun entry hentry => (hmem entry).1 hentry)
    (List.length_map _), List.getElem?_map, List.getElem?_map]
  split
  · rfl
  next hnone =>
    cases hrange : ranges[i]? with
    | none => rfl
    | some range =>
      exact absurd (List.mem_map_of_mem (f := Prod.snd) ((hmem (range, i)).2 hrange)) hnone

theorem gives_loadRanges (hstore : StoreReturns getRanges bytes)
    (hranges : ∀ range ∈ ranges, range.Within bytes.length) :
    (loadRanges getRanges ranges).Gives (ranges.map (ByteRange.read bytes)) := by
  intro stats
  rw [loadRanges, readRanges]
  by_cases hempty : ranges = []
  · rw [hempty]
    rfl
  · have hrun := coalesceRanges_coalesces hranges
    have hperm := List.perm_insertionSort ByteRange.before ranges.zipIdx
    have hdone : ∀ indexed ∈ ranges.zipIdx.insertionSort ByteRange.before,
        indexed.1.Within bytes.length ∧
          indexed.2 < (ranges.map fun _ => ([] : List UInt8)).length := by
      intro indexed hindexed
      have hget := List.mem_zipIdx_iff_getElem?.1 (hperm.mem_iff.1 hindexed)
      rw [List.length_map]
      exact ⟨hranges _ (List.mem_of_getElem? hget), (List.getElem?_eq_some_iff.1 hget).1⟩
    rw [if_neg (by simpa using hempty)]
    dsimp only
    rw [hstore _ hrun.within]
    dsimp only
    rw [readPlans_eq hrun.covers hrun.within hdone]
    exact congrArg Outcome.ok (foldl_set_eq hperm)

theorem requests_loadRanges (getRanges : List ByteRange → Except String (List (List UInt8)))
    (ranges : List ByteRange) : (loadRanges getRanges ranges).Requests 1 := by
  have hstats (stats : ObjectStoreReadSnapshot) :
      (loadRanges getRanges ranges stats).2 = stats ∨ ∃ bytesRead,
        (loadRanges getRanges ranges stats).2 = { stats with
          getRangesRequests := saturatingAdd stats.getRangesRequests 1
          bytesRead } := by
    rw [loadRanges, readRanges]
    by_cases hempty : ranges.isEmpty = true
    · rw [if_pos hempty]
      exact .inl rfl
    · rw [if_neg hempty]
      dsimp only
      cases getRanges (coalesceRanges ranges).1 with
      | error message => exact .inr ⟨stats.bytesRead, rfl⟩
      | ok chunks => exact .inr ⟨_, rfl⟩
  constructor
  · intro stats
    rcases hstats stats with heq | ⟨bytesRead, heq⟩
    · rw [heq]
      exact Nat.le_succ _
    · rw [heq]
      exact min_le_left _ _
  · intro stats
    rcases hstats stats with heq | ⟨bytesRead, heq⟩
    · rw [heq]
      exact ⟨rfl, rfl, rfl⟩
    · rw [heq]
      exact ⟨rfl, rfl, rfl⟩

theorem gives_loadOneRange (hstore : StoreReturns getRanges bytes) {range : ByteRange}
    (hrange : range.Within bytes.length) (hpart : range.read bytes = part) :
    (loadOneRange getRanges range).Gives part := by
  apply (gives_loadRanges hstore (List.forall_mem_singleton.2 hrange)).bind
  apply Load.gives_ofOutcome
  rw [List.map_singleton, hpart]
  rfl

theorem requests_loadOneRange (getRanges : List ByteRange → Except String (List (List UInt8)))
    (range : ByteRange) : (loadOneRange getRanges range).Requests 1 :=
  (requests_loadRanges getRanges [range]).bind fun _ => Load.requests_ofOutcome _

/-- The range at a place reads some bytes. -/
def ReadsAt (bytes : List UInt8) (ranges : List ByteRange) (index : Nat) (part : List UInt8) :
    Prop :=
  ∃ range, ranges[index]? = some range ∧ range.read bytes = part

/-- More ranges are planned, all of them in the object. -/
structure RangesGrow (bytes : List UInt8) (ranges ranges' : List ByteRange) : Prop where
  front : ranges <+: ranges'
  within : ∀ range ∈ ranges', range.Within bytes.length

theorem RangesGrow.trans (h : RangesGrow bytes ranges ranges')
    (h' : RangesGrow bytes ranges' ranges'') : RangesGrow bytes ranges ranges'' :=
  ⟨h.front.trans h'.front, h'.within⟩

theorem ReadsAt.mono {index : Nat} (h : ReadsAt bytes ranges index part)
    (hgrow : RangesGrow bytes ranges ranges') : ReadsAt bytes ranges' index part := by
  obtain ⟨range, hget, hread⟩ := h
  obtain ⟨rest, rfl⟩ := hgrow.front
  refine ⟨range, ?_, hread⟩
  rw [List.getElem?_append_left (List.getElem?_eq_some_iff.1 hget).1, hget]

/-- The chunk at the place of a range. -/
theorem ReadsAt.chunk {index : Nat} (h : ReadsAt bytes ranges index part) :
    (ranges.map (ByteRange.read bytes))[index]? = some part := by
  obtain ⟨range, hget, hread⟩ := h
  rw [List.getElem?_map, hget, Option.map_some, hread]

/-- A range of the directory has some bytes of the object. -/
def SearchIndexRange.Locates (range : SearchIndexRange) (bytes part : List UInt8) : Prop :=
  ∃ front rest, bytes = front ++ part ++ rest ∧ range.offset.toNat = front.length ∧
    range.len.toNat = part.length

theorem SearchIndexRange.Locates.asRange {range : SearchIndexRange}
    (h : range.Locates bytes part) (hlength : bytes.length < 2 ^ 64) :
    range.asRange.Within bytes.length ∧ range.asRange.read bytes = part := by
  obtain ⟨front, rest, rfl, hoffset, hlen⟩ := h
  simp only [List.length_append] at hlength
  have hstop : range.asRange.stop = front.length + part.length := by
    change min (range.offset.toNat + range.len.toNat) (2 ^ 64 - 1) = _
    rw [hoffset, hlen]
    omega
  constructor
  · rw [ByteRange.Within, hstop]
    change range.offset.toNat ≤ _ ∧ _
    rw [hoffset, List.length_append, List.length_append]
    omega
  · rw [ByteRange.read, hstop]
    change List.extract _ range.offset.toNat _ = part
    rw [hoffset, List.extract_eq_take_drop, Nat.add_sub_cancel_left, List.append_assoc,
      List.drop_left, List.take_left]

/-- A range that is pushed reads its bytes. -/
theorem pushRange_spec {range : SearchIndexRange} (hlocates : range.Locates bytes part)
    (hlength : bytes.length < 2 ^ 64) (hranges : ∀ range ∈ ranges, range.Within bytes.length) :
    RangesGrow bytes ranges (pushRange ranges range).2 ∧
      ReadsAt bytes (pushRange ranges range).2 (pushRange ranges range).1 part := by
  obtain ⟨hwithin, hread⟩ := hlocates.asRange hlength
  refine ⟨⟨List.prefix_append _ _, ?_⟩, range.asRange, List.getElem?_concat_length, hread⟩
  exact List.forall_mem_append.2 ⟨hranges, List.forall_mem_singleton.2 hwithin⟩

/-- A part of what a range has is located by the range of it. -/
theorem subrange_eq {base : SearchIndexRange} {offset len : UInt32} {slice : List UInt8}
    (hbase : base.Locates bytes part) (hlength : bytes.length < 2 ^ 64)
    (hslice : checkedRange offset len part = some slice) :
    ∃ range, subrange base offset len = .ok range ∧ range.Locates bytes slice := by
  obtain ⟨front, rest, rfl, hoffset, hlen⟩ := hbase
  obtain ⟨before, after, rfl, hbefore, hpart⟩ := checkedRange_eq_some.1 hslice
  simp only [List.length_append] at hlength hlen
  have hstart : checkedAdd base.offset.toNat offset.toNat "search term range offset overflow" =
      .ok (base.offset.toNat + offset.toNat) := if_pos (by omega)
  have hstop : checkedAdd (base.offset.toNat + offset.toNat) len.toNat
      "search term range end overflow" = .ok (base.offset.toNat + offset.toNat + len.toNat) :=
    if_pos (by omega)
  have hend : checkedAdd base.offset.toNat base.len.toNat "search group range end overflow" =
      .ok (base.offset.toNat + base.len.toNat) := if_pos (by omega)
  have hstartNat : (UInt64.ofNat (base.offset.toNat + offset.toNat)).toNat =
      base.offset.toNat + offset.toNat := UInt64.toNat_ofNat_of_lt' (by change _ < 2 ^ 64; omega)
  have hlenNat : (UInt64.ofNat len.toNat).toNat = len.toNat :=
    UInt64.toNat_ofNat_of_lt' (len.toNat_lt.trans (by decide))
  refine ⟨⟨UInt64.ofNat (base.offset.toNat + offset.toNat), UInt64.ofNat len.toNat⟩, ?_,
    front ++ before, after ++ rest, by simp, ?_, ?_⟩
  · rw [subrange, hstart, Outcome.ok_bind, hstop, Outcome.ok_bind, hend, Outcome.ok_bind,
      if_neg (by omega)]
    rfl
  · rw [hstartNat, List.length_append, hoffset, hbefore]
  · rw [hlenNat, hpart]

end ranges

/-! The directory. -/

/-- An entry of the directory is that of a group, whose sections are where it says. -/
structure SearchIndexGroupDirectory.Describes (directory : SearchIndexGroupDirectory)
    (bytes : List UInt8) (group : SearchRowGroup) : Prop where
  minTerm : directory.minTerm = group.minTerm
  maxTerm : directory.maxTerm = group.maxTerm
  termInfoCount : directory.termInfoCount.toNat = group.termInfos.length
  fst : directory.fst.Locates bytes group.fstBytes
  termInfos : directory.termInfos.Locates bytes (encodeSearchTermInfos group.termInfos)
  postings : directory.postings.Locates bytes group.postings
  positions : directory.positions.Locates bytes group.positions

theorem describes_directoryAt {group : SearchRowGroup} {front rest : List UInt8}
    (hinfos : group.termInfos.length < 2 ^ 32)
    (hlength : (front ++ group.sections.flatten ++ rest).length < 2 ^ 64) :
    (group.directoryAt front.length).Describes (front ++ group.sections.flatten ++ rest) group := by
  have hsections : group.sections.flatten = group.fstBytes ++
      (encodeSearchTermInfos group.termInfos ++ (group.postings ++ group.positions)) := by
    simp [SearchRowGroup.sections]
  rw [hsections] at hlength ⊢
  simp only [List.length_append] at hlength
  have hnat {n : Nat} (hn : n < 2 ^ 64) : (UInt64.ofNat n).toNat = n := UInt64.toNat_ofNat_of_lt' hn
  refine ⟨rfl, rfl, UInt32.toNat_ofNat_of_lt' hinfos, ?_, ?_, ?_, ?_⟩
  · exact ⟨front, encodeSearchTermInfos group.termInfos ++ (group.postings ++ group.positions) ++
      rest, by simp only [List.append_assoc], hnat (by omega), hnat (by omega)⟩
  · refine ⟨front ++ group.fstBytes, group.postings ++ group.positions ++ rest,
      by simp only [List.append_assoc], ?_, hnat (by omega)⟩
    rw [List.length_append]
    exact hnat (by omega)
  · refine ⟨front ++ group.fstBytes ++ encodeSearchTermInfos group.termInfos,
      group.positions ++ rest, by simp only [List.append_assoc], ?_, hnat (by omega)⟩
    rw [List.length_append, List.length_append]
    exact hnat (by omega)
  · refine ⟨front ++ group.fstBytes ++ encodeSearchTermInfos group.termInfos ++ group.postings,
      rest, by simp only [List.append_assoc], ?_, hnat (by omega)⟩
    rw [List.length_append, List.length_append, List.length_append]
    exact hnat (by omega)

/-- The entries of groups whose sections lie one behind the other. -/
theorem describes_directoriesFrom {groups : List SearchRowGroup} {bytes front rest : List UInt8}
    {start : Nat} (hinfos : ∀ group ∈ groups, group.termInfos.length < 2 ^ 32)
    (hbytes : bytes = front ++ (groups.flatMap SearchRowGroup.sections).flatten ++ rest)
    (hstart : front.length = start) (hlength : bytes.length < 2 ^ 64) :
    List.Forall₂ (SearchIndexGroupDirectory.Describes · bytes) (directoriesFrom start groups)
      groups := by
  induction groups generalizing front start with
  | nil => exact .nil
  | cons group groups ih =>
    obtain ⟨hinfo, hinfos⟩ := List.forall_mem_cons.1 hinfos
    rw [List.flatMap_cons, List.flatten_append, ← List.append_assoc] at hbytes
    apply List.Forall₂.cons
    · rw [hbytes, List.append_assoc] at hlength ⊢
      rw [← hstart]
      exact describes_directoryAt hinfo hlength
    · exact ih hinfos hbytes (by rw [List.length_append, group.length_sections, hstart])

/-- The entries of the groups of an index in its bytes. -/
theorem SearchIndex.Fits.describes {index : SearchIndex} (hfits : index.Fits) :
    List.Forall₂ (SearchIndexGroupDirectory.Describes · index.layout)
        index.directory.termKeyGroups index.termKeyGroups ∧
      List.Forall₂ (SearchIndexGroupDirectory.Describes · index.layout)
        index.directory.termValueGroups index.termValueGroups := by
  have hlayout : index.layout = index.header.bytes ++ index.directoryBytes ++
      (index.termKeyGroups.flatMap SearchRowGroup.sections).flatten ++
        (index.termValueGroups.flatMap SearchRowGroup.sections).flatten := by
    rw [List.append_assoc _ (List.flatten _), ← List.flatten_append, ← List.flatMap_append]
    rfl
  obtain ⟨hkeys, hvalues⟩ := List.forall_mem_append.1 hfits.termInfos
  constructor
  · exact describes_directoriesFrom hkeys hlayout index.length_head hfits.length_lt
  · rw [← List.append_nil (_ ++ (index.termValueGroups.flatMap _).flatten)] at hlayout
    apply describes_directoriesFrom hvalues hlayout _ hfits.length_lt
    rw [List.length_append, index.length_head, length_flatten_sections]

theorem gives_loadSearchIndexDirectory
    {getRanges : List ByteRange → Except String (List (List UInt8))} {index : SearchIndex}
    (hfits : index.Fits) (hstore : StoreReturns getRanges index.layout) :
    (loadSearchIndexDirectory getRanges).Gives index.directory := by
  have hlayout : index.layout =
      index.header.bytes ++ index.directoryBytes ++ index.sections.flatten := rfl
  have hlength := hfits.length_lt
  have hheader := index.header.length_bytes
  have hdirectory := index.length_directoryBytes
  have hlen := hfits.directoryLen_eq
  have hhead : headerRange.read index.layout = index.header.bytes := by
    change index.layout.extract 0 searchIndexHeaderLen = _
    rw [hlayout, List.append_assoc, List.extract_eq_take_drop, ← hheader, List.drop_zero,
      Nat.sub_zero, List.take_left]
  have hsize : searchIndexHeaderLen + index.directoryLen ≤ index.layout.length := by
    rw [hlayout, List.length_append, index.length_head]
    exact Nat.le_add_right _ _
  have hwithin : headerRange.Within index.layout.length :=
    ⟨Nat.zero_le _, (Nat.le_add_right _ _).trans hsize⟩
  apply (gives_loadOneRange hstore hwithin hhead).bind
  apply @Load.Gives.bind _ _ _ _ index.header
  · apply Load.gives_ofOutcome
    have hdecoded := decodeSearchIndexHeader_append index.header [] (by
      rw [List.append_nil, hheader]
      decide)
    rwa [List.append_nil] at hdecoded
  apply @Load.Gives.bind _ _ _ _ index.directoryBytes
  · split
    next hzero =>
      have hnil : index.directoryBytes = [] := by
        rw [← List.length_eq_zero_iff, hdirectory, ← hlen, hzero]
        rfl
      rw [hnil]
      exact Load.gives_pure []
    · have hstop : (directoryRange index.header).stop = searchIndexHeaderLen + index.directoryLen := by
        change min (searchIndexHeaderLen + index.header.directoryLen.toNat) (2 ^ 64 - 1) = _
        rw [hlen]
        omega
      apply gives_loadOneRange hstore
      · rw [ByteRange.Within, hstop]
        exact ⟨Nat.le_add_right _ _, hsize⟩
      · rw [ByteRange.read, hstop]
        change index.layout.extract searchIndexHeaderLen _ = _
        rw [hlayout, List.append_assoc, List.extract_eq_take_drop, Nat.add_sub_cancel_left,
          ← hheader, List.drop_left, ← hdirectory, List.take_left]
  · exact Load.gives_ofOutcome (decodeSearchIndexDirectory_eq hfits)

theorem requests_loadSearchIndexDirectory
    (getRanges : List ByteRange → Except String (List (List UInt8))) :
    (loadSearchIndexDirectory getRanges).Requests 2 := by
  change Load.Requests _ (1 + (0 + (1 + 0)))
  apply (requests_loadOneRange getRanges _).bind
  intro headerBytes
  apply (Load.requests_ofOutcome _).bind
  intro header
  apply Load.Requests.bind _ fun _ => Load.requests_ofOutcome _
  split
  · exact (Load.requests_pure []).mono (Nat.zero_le 1)
  · exact requests_loadOneRange getRanges _

end KevinDb
