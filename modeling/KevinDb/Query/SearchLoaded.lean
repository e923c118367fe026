import KevinDb.Query.SearchLoadedGroups
import KevinDb.Search.Direct

namespace KevinDb
set_option autoImplicit true
open Std

/-! Slices of dictionaries. -/

/-- The terms of a group at ordinals that are selected. -/
def SearchRowGroup.slices (group : SearchRowGroup) (ordinals : Table Nat Bool) :
    List SearchIndexTermSlice :=
  ordinals.toList.filterMap fun (ordinal, includePositions) =>
    group.termInfos[ordinal]?.map fun info => { ordinal, info, includePositions }

section slices

variable {groups : List SearchRowGroup} {group : SearchRowGroup} {chosen : List Nat}
  {selected : SelectedTerms} {slice : SearchIndexGroupTermSlices}

theorem mem_slices {ordinals : Table Nat Bool} {term : SearchIndexTermSlice} :
    term ∈ group.slices ordinals ↔ ordinals[term.ordinal]? = some term.includePositions ∧
      group.termInfos[term.ordinal]? = some term.info := by
  obtain ⟨ordinal, info, includePositions⟩ := term
  simp only [SearchRowGroup.slices, List.mem_filterMap, Prod.exists, Option.map_eq_some_iff,
    TreeMap.mem_toList_iff_getElem?_eq_some]
  constructor
  · rintro ⟨_, _, hget, _, hinfo, heq⟩
    cases heq
    exact ⟨hget, hinfo⟩
  · rintro ⟨hget, hinfo⟩
    exact ⟨ordinal, includePositions, hget, info, hinfo, rfl⟩

theorem slicesTerms_slices (group : SearchRowGroup) (ordinals : Table Nat Bool) :
    SlicesTerms group (group.slices ordinals) := by
  refine ⟨fun term hterm => (mem_slices.1 hterm).2, ?_⟩
  apply TreeMap.ordered_keys_toList.filterMap
  rintro ⟨ordinal, includePositions⟩ ⟨ordinal', includePositions'⟩ hlt term hterm term' hterm'
  obtain ⟨info, -, rfl⟩ := Option.map_eq_some_iff.1 hterm
  obtain ⟨info', -, rfl⟩ := Option.map_eq_some_iff.1 hterm'
  exact Nat.compare_eq_lt.1 hlt

/-- A slice is of a group that is chosen and has terms at the ordinals selected in it. -/
theorem mem_materializeTermSlices (slice : SearchIndexGroupTermSlices) :
    slice ∈ materializeTermSlices (dictionariesOf groups chosen) selected ↔
      ∃ ordinals group, selected[slice.groupIndex]? = some ordinals ∧ slice.groupIndex ∈ chosen ∧
        groups[slice.groupIndex]? = some group ∧ group.slices ordinals ≠ [] ∧
          slice = ⟨slice.groupIndex, group.fstBytes, UInt32.ofNat group.termInfos.length,
            group.slices ordinals⟩ := by
  rw [materializeTermSlices, List.mem_filterMap]
  simp only [Prod.exists, TreeMap.mem_toList_iff_getElem?_eq_some, groupTermSlices,
    find?_dictionariesOf, Option.bind_eq_bind, Option.bind_eq_some_iff]
  constructor
  · rintro ⟨groupIndex, ordinals, hselected, dictionary, hdictionary, hslice⟩
    split at hdictionary
    next hchosen =>
      obtain ⟨group, hget, rfl⟩ := Option.map_eq_some_iff.1 hdictionary
      change (if (group.slices ordinals).isEmpty then none else some _) = _ at hslice
      split at hslice
      · cases hslice
      next hne =>
        cases hslice
        exact ⟨ordinals, group, hselected, hchosen, hget, by simpa using hne, rfl⟩
    · cases hdictionary
  · rintro ⟨ordinals, group, hselected, hchosen, hget, hne, hslice⟩
    refine ⟨slice.groupIndex, ordinals, hselected, group.dictionary slice.groupIndex, ?_, ?_⟩
    · rw [if_pos hchosen, hget, Option.map_some]
    · change (if (group.slices ordinals).isEmpty then none else some _) = _
      rw [if_neg (by simpa using hne), hslice]
      rfl

theorem pairwise_materializeTermSlices (dictionaries : List SearchIndexGroupDictionary)
    (selected : SelectedTerms) :
    (materializeTermSlices dictionaries selected).Pairwise fun slice slice' =>
      slice.groupIndex < slice'.groupIndex := by
  apply TreeMap.ordered_keys_toList.filterMap
  rintro ⟨groupIndex, ordinals⟩ ⟨groupIndex', ordinals'⟩ hlt slice hslice slice' hslice'
  have hindex (entry : Nat × Table Nat Bool) (slice : SearchIndexGroupTermSlices)
      (h : groupTermSlices dictionaries entry = some slice) : slice.groupIndex = entry.1 := by
    rw [groupTermSlices, Option.bind_eq_bind, Option.bind_eq_some_iff] at h
    obtain ⟨dictionary, -, h⟩ := h
    dsimp only at h
    split at h
    · cases h
    · cases h
      rfl
  rw [hindex _ _ hslice, hindex _ _ hslice']
  exact Nat.compare_eq_lt.1 hlt

end slices

/-! Groups of an index that is built. -/

/-- A group holds entries, and its infos are stacked. -/
def SearchRowGroup.IsBuilt (fst : FstMaps) (built : Bool) (group : SearchRowGroup) : Prop :=
  (∃ entries, group.Holds fst built entries ∧ ∀ entry ∈ entries, TermEntry.Ordered entry) ∧
    Stacked group.termInfos group.postings group.positions

section built

variable {fst : FstMaps} {pairs : fst.Builder → List (List UInt8 × Nat)} {built : Bool}
  {groups : List SearchRowGroup} {group : SearchRowGroup} {entries : List TermEntry}

theorem GroupsHold.isBuilt (hfst : fst.Keeps pairs) (h : GroupsHold fst built groups entries) :
    ∀ group ∈ groups, group.IsBuilt fst built := by
  obtain ⟨⟨pieces, rfl, hpieces⟩, -, hordered⟩ := h
  intro group hgroup
  obtain ⟨index, hget⟩ := List.mem_iff_getElem?.1 hgroup
  obtain ⟨piece, hpiece, hencode⟩ := exists_rel_getElem? hpieces hget
  refine ⟨⟨piece, holds_of_encodeRowGroup hfst hencode, fun entry hentry => ?_⟩,
    stacked_of_encodeRowGroup hencode⟩
  exact hordered entry (List.mem_flatten_of_mem (List.mem_of_getElem? hpiece) hentry)

theorem SearchRowGroup.IsBuilt.pathsAgree (h : group.IsBuilt fst built) :
    group.PathsAgree fst built := by
  obtain ⟨⟨entries, hholds, hordered⟩, -⟩ := h
  intro front pair hpair includePositions hbuilt term hterm
  rw [hholds.startsWith] at hpair
  obtain ⟨entry, hget, hkey⟩ := mem_ordinals.1 (List.mem_filter.1 hpair).1
  rw [groupTermByOrdinal_eq hholds hordered hbuilt, hget, Option.map_some, Option.some.injEq] at hterm
  rw [← hterm, ← hkey]
  rfl

end built

/-! Parts of an index. -/

/-- A value under ascending numbers is found under its own. -/
theorem find?_of_ascending {key : α → Nat} {values : List α} {value : α}
    (hascending : values.Pairwise fun value value' => key value < key value')
    (hvalue : value ∈ values) : values.find? (key · = key value) = some value := by
  induction values with
  | nil => cases hvalue
  | cons first values ih =>
    obtain ⟨hfirst, hrest⟩ := List.pairwise_cons.1 hascending
    rcases List.mem_cons.1 hvalue with rfl | hvalue
    · exact List.find?_cons_of_pos (decide_eq_true rfl)
    · rw [List.find?_cons_of_neg (by simpa using (hfirst value hvalue).ne)]
      exact ih hrest hvalue

/-- Values under ascending numbers, number by number. -/
theorem filterMap_find? {key : α → Nat} {values : List α} {count : Nat}
    (hascending : values.Pairwise fun value value' => key value < key value')
    (hbound : ∀ value ∈ values, key value < count) :
    (List.range count).filterMap (fun number => values.find? (key · = number)) = values := by
  have hfind {number : Nat} {value : α} (h : values.find? (key · = number) = some value) :
      value ∈ values ∧ key value = number :=
    ⟨List.mem_of_find?_eq_some h, of_decide_eq_true (List.find?_some (p := (key · = number)) h)⟩
  have hirrefl : Std.Irrefl fun value value' : α => key value < key value' :=
    ⟨fun _ => Nat.lt_irrefl _⟩
  have hantisymm : Std.Antisymm fun value value' : α => key value < key value' :=
    ⟨fun _ _ hlt hgt => absurd hgt (Nat.lt_asymm hlt)⟩
  have hsorted : ((List.range count).filterMap fun number =>
      values.find? (key · = number)).Pairwise fun value value' => key value < key value' := by
    apply List.pairwise_lt_range.filterMap
    intro number number' hlt value hvalue value' hvalue'
    rw [(hfind hvalue).2, (hfind hvalue').2]
    exact hlt
  apply hsorted.eq_of_mem_iff hascending
  intro value
  rw [List.mem_filterMap]
  constructor
  · rintro ⟨number, -, h⟩
    exact (hfind h).1
  · intro hvalue
    exact ⟨key value, List.mem_range.2 (hbound value hvalue), find?_of_ascending hascending hvalue⟩

theorem filterMap_zipIdx_find? {key : α → Nat} {values : List α} {groups : List β}
    (hascending : values.Pairwise fun value value' => key value < key value')
    (hbound : ∀ value ∈ values, key value < groups.length) :
    groups.zipIdx.filterMap (fun entry => values.find? (key · = entry.2)) = values := by
  have h := filterMap_find? hascending hbound
  rwa [List.range_eq_range', ← List.zipIdx_map_snd, List.filterMap_map] at h

section parts

variable {fst : FstMaps} {built : Bool} {bytes : List UInt8}
  {directories : List SearchIndexGroupDirectory} {groups : List SearchRowGroup}
  {ranges : List ByteRange} {chosen : List Nat} {selected : SelectedTerms}

/-- A part is a group with the data of the terms of a slice. -/
def SearchIndexGroupTermSlices.Loads (groups : List SearchRowGroup) (built : Bool)
    (slice : SearchIndexGroupTermSlices) (part : SearchRowGroup) : Prop :=
  ∃ group data, groups[slice.groupIndex]? = some group ∧ slice.Slices group ∧
    data.Has group built slice.terms ∧ part = group.loadedWith data

/-- What is planned for a slice is put together and decoded. -/
theorem exists_loadedPart {slice : SearchIndexGroupTermSlices} {plan : TermDataGroupPlan}
    (hdirectories : List.Forall₂ (SearchIndexGroupDirectory.Describes · bytes) directories groups)
    (hgroups : ∀ group ∈ groups, group.IsBuilt fst built)
    (hplan : plan.PlansFor bytes groups ranges built slice) :
    ∃ chunk part, materializeTermDataGroup (ranges.map (ByteRange.read bytes)) plan = .ok chunk ∧
      decodeGroupChunk fst directories chunk = .ok part ∧ slice.Loads groups built part := by
  obtain ⟨hgroupIndex, hfst, hcount, group, hget, hslice, hterms⟩ := hplan
  obtain ⟨⟨entries, hholds, hordered⟩, hstacked⟩ := hgroups group (List.mem_of_getElem? hget)
  obtain ⟨data, hdata, hhas⟩ := exists_termData hslice hstacked hterms
  obtain ⟨directory, hdirectory, hdescribes⟩ := exists_rel_getElem? hdirectories hget
  refine ⟨⟨slice.groupIndex, group.fstBytes, encodeSearchTermInfos data.infos, data.postings,
    data.positions⟩, group.loadedWith data, ?_, ?_, group, data, hget, hslice, hhas, rfl⟩
  · rw [materializeTermDataGroup, hcount, hdata, hgroupIndex, hfst, hslice.fstBytes]
    rfl
  · have hdecoded : decodeSearchTermInfos (encodeSearchTermInfos data.infos)
        directory.termInfoCount.toNat = .ok data.infos := by
      rw [hdescribes.termInfoCount, ← hhas.length]
      apply decodeSearchTermInfos_encode
      rw [length_encodeSearchTermInfos, hhas.length, ← hdescribes.termInfoCount]
      have := directory.termInfoCount.toNat_lt
      omega
    rw [decodeGroupChunk, hdirectory, someOr, Outcome.ok_bind, decodeLoadedGroup, hholds.validate]
    dsimp only
    rw [hdecoded, hdescribes.minTerm, hdescribes.maxTerm]
    rfl

/-- The parts of the slices, group by group. -/
theorem exists_loadedParts {slices : List SearchIndexGroupTermSlices}
    {plans : List TermDataGroupPlan}
    (hdirectories : List.Forall₂ (SearchIndexGroupDirectory.Describes · bytes) directories groups)
    (hgroups : ∀ group ∈ groups, group.IsBuilt fst built)
    (hplans : List.Forall₂ (TermDataGroupPlan.PlansFor bytes groups ranges built) slices plans) :
    ∃ chunks parts,
      materializeTermDataGroups (ranges.map (ByteRange.read bytes)) plans = .ok chunks ∧
        chunks.mapM (decodeGroupChunk fst directories) = .ok parts ∧
          List.Forall₂ (SearchIndexGroupTermSlices.Loads groups built) slices parts := by
  induction hplans with
  | nil => exact ⟨[], [], rfl, rfl, .nil⟩
  | cons hplan _ ih =>
    obtain ⟨chunk, part, hchunk, hpart, hloads⟩ := exists_loadedPart hdirectories hgroups hplan
    obtain ⟨chunks, parts, hchunks, hparts, hrest⟩ := ih
    refine ⟨chunk :: chunks, part :: parts, ?_, ?_, .cons hloads hrest⟩
    · rw [materializeTermDataGroups, List.mapM_cons, hchunk, Outcome.ok_bind,
        ← materializeTermDataGroups, hchunks]
      rfl
    · rw [List.mapM_cons, hpart, Outcome.ok_bind, hparts]
      rfl

/-- What is selected in a group that is chosen is covered. -/
def Covers (chosen : List Nat) (selected : SelectedTerms) (groupIndex ordinal : Nat)
    (includePositions : Bool) : Prop :=
  groupIndex ∈ chosen ∧ Selects selected groupIndex ordinal includePositions

/-- The parts that are loaded cover what is selected. -/
theorem partsOf_loaded {parts : List SearchRowGroup}
    (hgroups : ∀ group ∈ groups, group.IsBuilt fst built)
    (hparts : List.Forall₂ (SearchIndexGroupTermSlices.Loads groups built)
      (materializeTermSlices (dictionariesOf groups chosen) selected) parts) :
    PartsOf fst built (Covers chosen selected) groups parts := by
  have hascending := pairwise_materializeTermSlices (dictionariesOf groups chosen) selected
  have hmem (slice : SearchIndexGroupTermSlices) :
      slice ∈ materializeTermSlices (dictionariesOf groups chosen) selected ↔ _ :=
    mem_materializeTermSlices slice
  generalize materializeTermSlices (dictionariesOf groups chosen) selected = slices at *
  obtain ⟨hlength, hloads⟩ := List.forall₂_iff_zip.1 hparts
  have hfst : (slices.zip parts).map Prod.fst = slices := List.map_fst_zip hlength.le
  have hsnd : (slices.zip parts).map Prod.snd = parts := List.map_snd_zip hlength.ge
  have hzip : (slices.zip parts).Pairwise fun pair pair' =>
      pair.1.groupIndex < pair'.1.groupIndex := by
    rw [← List.pairwise_map (f := Prod.fst) (R := fun slice slice' :
      SearchIndexGroupTermSlices => slice.groupIndex < slice'.groupIndex), hfst]
    exact hascending
  have hbound : ∀ pair ∈ slices.zip parts, pair.1.groupIndex < groups.length := by
    rintro ⟨slice, part⟩ hpair
    obtain ⟨group, -, hget, -⟩ := hloads hpair
    exact (List.getElem?_eq_some_iff.1 hget).1
  refine ⟨fun groupIndex => ((slices.zip parts).find? (·.1.groupIndex = groupIndex)).map Prod.snd,
    ?_, fun groupIndex group hget => ⟨fun hnone ordinal includePositions hbuilt hcovered => ?_,
      fun part hpart => ?_⟩⟩
  · have hall := congrArg (List.map Prod.snd) (filterMap_zipIdx_find? hzip hbound)
    rw [List.map_filterMap, hsnd] at hall
    exact hall.symm
  · obtain ⟨hchosen, flag, hflag, -⟩ := hcovered
    -- There is no slice, so there is no info at the ordinal.
    rw [groupTermByOrdinal]
    cases hinfo : group.termInfos[ordinal]? with
    | none => rfl
    | some info =>
      cases hselected : selected[groupIndex]? with
      | none => simp [hselected] at hflag
      | some ordinals =>
        rw [hselected, Option.getD_some] at hflag
        have hterm : (⟨ordinal, info, flag⟩ : SearchIndexTermSlice) ∈ group.slices ordinals :=
          mem_slices.2 ⟨hflag, hinfo⟩
        have hslice := (hmem ⟨groupIndex, group.fstBytes, UInt32.ofNat group.termInfos.length,
          group.slices ordinals⟩).2
            ⟨ordinals, group, hselected, hchosen, hget, List.ne_nil_of_mem hterm, rfl⟩
        rw [← hfst, List.mem_map] at hslice
        obtain ⟨pair, hpair, heq⟩ := hslice
        rw [Option.map_eq_none_iff, List.find?_eq_none] at hnone
        exact absurd (by rw [heq]; exact decide_eq_true rfl) (hnone pair hpair)
  · obtain ⟨⟨slice, part⟩, hfind, rfl⟩ := Option.map_eq_some_iff.1 hpart
    have hpair := List.mem_of_find?_eq_some hfind
    have hindex : slice.groupIndex = groupIndex := by simpa using List.find?_some hfind
    subst hindex
    obtain ⟨group', data, hget', hslices, hhas, rfl⟩ := hloads hpair
    rw [hget, Option.some.injEq] at hget'
    subst hget'
    have hslice : slice ∈ slices := hfst ▸ List.mem_map_of_mem hpair
    obtain ⟨ordinals, group', hselected, -, hget', -, hterms⟩ := (hmem slice).1 hslice
    rw [hget, Option.some.injEq] at hget'
    subst hget'
    obtain ⟨⟨entries, hholds, hordered⟩, -⟩ := hgroups group (List.mem_of_getElem? hget)
    refine isPart_loadedWith hholds hordered hslices.terms hhas ?_
    rintro ordinal includePositions ⟨-, flag, hflag, hasked⟩ hlt
    rw [hselected, Option.getD_some] at hflag
    rw [hterms]
    exact ⟨⟨ordinal, group.termInfos[ordinal], flag⟩,
      mem_slices.2 ⟨hflag, List.getElem?_eq_getElem hlt⟩, rfl, hasked⟩

theorem exists_slices (hinfos : ∀ group ∈ groups, group.termInfos.length < 2 ^ 32) :
    ∀ slice ∈ materializeTermSlices (dictionariesOf groups chosen) selected,
      ∃ group, groups[slice.groupIndex]? = some group ∧ slice.Slices group := by
  intro slice hslice
  obtain ⟨ordinals, group, -, -, hget, -, heq⟩ := (mem_materializeTermSlices _).1 hslice
  refine ⟨group, hget, ?_⟩
  rw [heq]
  exact ⟨rfl, UInt32.toNat_ofNat_of_lt' (hinfos group (List.mem_of_getElem? hget)),
    slicesTerms_slices group ordinals⟩

end parts

/-! Loading. -/

section loading

variable {fst : FstMaps} {index : SearchIndex}

/-- The groups of an index are built, those of the values with positions. -/
structure SearchIndex.IsBuilt (fst : FstMaps) (index : SearchIndex) : Prop where
  keys : ∀ group ∈ index.termKeyGroups, group.IsBuilt fst false
  values : ∀ group ∈ index.termValueGroups, group.IsBuilt fst true

theorem SearchIndex.IsBuilt.validate (h : index.IsBuilt fst) :
    ∀ group ∈ index.groups, fst.validate group.fstBytes := by
  rw [SearchIndex.groups, List.forall_mem_append]
  constructor
  · intro group hgroup
    obtain ⟨⟨entries, hholds, -⟩, -⟩ := h.keys group hgroup
    exact hholds.validate
  · intro group hgroup
    obtain ⟨⟨entries, hholds, -⟩, -⟩ := h.values group hgroup
    exact hholds.validate

section object

variable {getRanges : List ByteRange → Except String (List (List UInt8))}

/-- The data of slices is loaded and decoded. -/
theorem exists_gives_loadTermSlices (slices : SearchIndexTermSlices) (hbuilt : index.IsBuilt fst)
    (hfits : index.Fits) (hstore : StoreReturns getRanges index.layout)
    (hkeys : ∀ slice ∈ slices.termKeyGroups, ∃ group,
      index.termKeyGroups[slice.groupIndex]? = some group ∧ slice.Slices group)
    (hvalues : ∀ slice ∈ slices.termValueGroups, ∃ group,
      index.termValueGroups[slice.groupIndex]? = some group ∧ slice.Slices group) :
    ∃ chunks part, (loadTermSlices getRanges index.directory slices).Gives chunks ∧
      decodeSearchIndexChunks fst index.directory chunks = .ok part ∧
      part.rowCount = index.rowCount ∧
      List.Forall₂ (SearchIndexGroupTermSlices.Loads index.termKeyGroups false)
        slices.termKeyGroups part.termKeyGroups ∧
      List.Forall₂ (SearchIndexGroupTermSlices.Loads index.termValueGroups true)
        slices.termValueGroups part.termValueGroups := by
  obtain ⟨hkeyDirectories, hvalueDirectories⟩ := hfits.describes
  have hlength := hfits.length_lt
  obtain ⟨keyPlans, keyRanges, hkeyPlans, hgrowKeys, hkeysFor⟩ :=
    planTermDataRanges_spec false hkeyDirectories hlength
      (fun group hgroup => (hbuilt.keys group hgroup).2) hkeys (List.forall_mem_nil _)
  obtain ⟨valuePlans, ranges, hvaluePlans, hgrowValues, hvaluesFor⟩ :=
    planTermDataRanges_spec true hvalueDirectories hlength
      (fun group hgroup => (hbuilt.values group hgroup).2) hvalues hgrowKeys.within
  obtain ⟨keyChunks, keyParts, hkeyChunks, hkeyParts, hkeyLoads⟩ := exists_loadedParts
    hkeyDirectories hbuilt.keys (hkeysFor.imp fun _ _ hplan => hplan.mono hgrowValues)
  obtain ⟨valueChunks, valueParts, hvalueChunks, hvalueParts, hvalueLoads⟩ :=
    exists_loadedParts hvalueDirectories hbuilt.values hvaluesFor
  refine ⟨⟨keyChunks, valueChunks⟩, ⟨index.rowCount, keyParts, valueParts⟩, ?_, ?_, rfl, hkeyLoads,
    hvalueLoads⟩
  · apply (Load.gives_ofOutcome hkeyPlans).bind
    apply (Load.gives_ofOutcome hvaluePlans).bind
    apply (gives_loadRanges hstore hgrowValues.within).bind
    apply (Load.gives_ofOutcome hkeyChunks).bind
    apply (Load.gives_ofOutcome hvalueChunks).bind
    exact Load.gives_pure _
  · rw [decodeSearchIndexChunks, hkeyParts, Outcome.ok_bind, hvalueParts]
    rfl

/-- What a predicate looks up is selected and covered. -/
theorem covers_selected (fst : FstMaps) (hfits : index.Fits) (predicate : SearchPredicate) :
    let selection := selectSearchIndexGroups index.directory predicate
    let selected := selectTermsForPredicate fst
      (dictionariesOf index.termKeyGroups selection.termKeyGroups.toList)
      (dictionariesOf index.termValueGroups selection.termValueGroups.toList) (∅, ∅) predicate
    (∀ pattern ∈ predicate.patterns, CoversPattern fst
      (Covers selection.termKeyGroups.toList selected.1) index.termKeyGroups pattern) ∧
    ∀ request ∈ predicate.requests, CoversRequest fst
      (Covers selection.termValueGroups.toList selected.2) index.termValueGroups request := by
  obtain ⟨hkeys, hvalues⟩ := hfits.describes
  intro selection selected
  constructor
  · intro pattern hpattern groupIndex group hget hmay ordinal hordinal
    obtain ⟨directory, hdirectory, hdescribes⟩ := exists_rel_getElem? hkeys hget
    rw [← hdescribes.minTerm, ← hdescribes.maxTerm] at hmay
    have hchosen : groupIndex ∈ selection.termKeyGroups.toList := by
      rw [TreeSet.mem_toList]
      exact (mem_selectGroupsForPredicate _ predicate).2.2
        (.inr ⟨pattern, hpattern, directory, hdirectory, hmay⟩)
    refine ⟨hchosen, (@selects_selectTermsForPredicate fst _ _ _ _ false _ predicate).1.2
      (.inr ⟨pattern, hpattern, ?_⟩)⟩
    exact foundIn_dictionariesOf.2 ⟨hchosen, group, hget, hordinal⟩
  · intro request hrequest groupIndex group hget hmay ordinal hordinal
    obtain ⟨directory, hdirectory, hdescribes⟩ := exists_rel_getElem? hvalues hget
    rw [← hdescribes.minTerm, ← hdescribes.maxTerm] at hmay
    have hchosen : groupIndex ∈ selection.termValueGroups.toList := by
      rw [TreeSet.mem_toList]
      exact (mem_selectGroupsForPredicate _ predicate).1.2
        (.inr ⟨request, hrequest, directory, hdirectory, hmay⟩)
    refine ⟨hchosen, (selects_selectTermsForPredicate _ predicate).2.2
      (.inr ⟨request, hrequest, ?_, fun h => h⟩)⟩
    exact foundIn_dictionariesOf.2 ⟨hchosen, group, hget, hordinal⟩

end object

/-- What is loaded of an index for a predicate finds what the index finds. -/
theorem gives_loadMatchingRows
    {getRanges : String → List ByteRange → Except String (List (List UInt8))}
    {segment : IndexedSegment} {uri : String} (hbuilt : index.IsBuilt fst) (hfits : index.Fits)
    (huri : segment.searchIndexUri = some uri)
    (hversion : segment.searchIndexSchemaVersion = searchIndexSchemaVersion)
    (hstore : StoreReturns (getRanges uri) index.layout) (predicate : SearchPredicate) :
    (loadMatchingRows getRanges fst segment predicate).Gives (index.matchingRows fst predicate) := by
  obtain ⟨hkeyInfos, hvalueInfos⟩ := List.forall_mem_append.1 hfits.termInfos
  obtain ⟨hpatterns, hrequests⟩ := covers_selected fst hfits predicate
  obtain ⟨chunks, part, hchunks, hpart, hrowCount, hkeyLoads, hvalueLoads⟩ :=
    exists_gives_loadTermSlices (selectSearchIndexTerms fst predicate
      (dictionariesOf index.termKeyGroups
        (selectSearchIndexGroups index.directory predicate).termKeyGroups.toList)
      (dictionariesOf index.termValueGroups
        (selectSearchIndexGroups index.directory predicate).termValueGroups.toList))
      hbuilt hfits hstore (exists_slices hkeyInfos) (exists_slices hvalueInfos)
  have hsame : part.matchingRows fst predicate = index.matchingRows fst predicate :=
    matchingRows_parts (fun group hgroup => (hbuilt.keys group hgroup).pathsAgree)
      (fun group hgroup => (hbuilt.values group hgroup).pathsAgree) hrowCount
      (partsOf_loaded hbuilt.keys hkeyLoads) (partsOf_loaded hbuilt.values hvalueLoads) predicate
      hpatterns hrequests
  rw [loadMatchingRows, huri]
  dsimp only
  rw [if_neg (not_not_intro hversion)]
  apply (gives_loadSearchIndexDirectory hfits hstore).bind
  apply @Load.Gives.bind _ _ _ _ chunks
  · apply (gives_loadSelectedDictionaries hfits hstore hbuilt.validate _).withContext.bind
    exact hchunks
  · apply (Load.gives_ofOutcome hpart).bind
    rw [hsame]
    exact Load.gives_pure _

/-- An index that is built of additions has groups that are built. -/
theorem SearchIndex.Indexes.isBuilt {pairs : fst.Builder → List (List UInt8 × Nat)}
    {additions : List SearchAddition} (hfst : fst.Keeps pairs) (h : index.Indexes fst additions) :
    index.IsBuilt fst := by
  obtain ⟨⟨keys, hkeys, -⟩, values, hvalues, -⟩ := h
  exact ⟨hkeys.isBuilt hfst, hvalues.isBuilt hfst⟩

/-- For a predicate, the rows that are found in the parts that are loaded of an index are those that
are found in all of it. -/
theorem load_matching_rows_eq {pairs : fst.Builder → List (List UInt8 × Nat)} {rowCount : Nat}
    {additions : List SearchAddition} {bytes : List UInt8}
    {getRanges : String → List ByteRange → Except String (List (List UInt8))}
    {segment : IndexedSegment} {uri : String} (hfst : fst.Keeps pairs)
    (hadditions : additions.length < 2 ^ 32)
    (hfinish : (additions.foldl MutableSearchIndex.add (.new rowCount)).finish fst.toFstLib =
      .ok index)
    (hencode : encodeSearchIndex index = .ok bytes) (huri : segment.searchIndexUri = some uri)
    (hversion : segment.searchIndexSchemaVersion = searchIndexSchemaVersion)
    (hstore : StoreReturns (getRanges uri) bytes) (predicate : SearchPredicate)
    (stats : ObjectStoreReadSnapshot) :
    decodeSearchIndex fst.toFstLib bytes = .ok index ∧
      (loadMatchingRows getRanges fst segment predicate stats).1 =
        .ok (index.matchingRows fst predicate) := by
  obtain ⟨hfits, rfl⟩ := encodeSearchIndex_eq_ok_iff.1 hencode
  have hbuilt := (indexes_of_finish hadditions hfinish).2.isBuilt hfst
  exact ⟨decodeSearchIndex_layout hbuilt.validate hfits,
    gives_loadMatchingRows hbuilt hfits huri hversion hstore predicate stats⟩

/-- A phrase and a path, in an index of two rows. -/
theorem load_matching_rows_eq_two :
    let additions : List SearchAddition := [.path 0 "name", .valuePosition 0 "name" "root" 0,
      .valuePosition 0 "name" "span" 1, .path 1 "kind", .valuePosition 1 "kind" "span" 0]
    let predicate : SearchPredicate :=
      .and [.text .all (.parse "\"root span\""), .not (.jsonKey "kind")]
    let segment : IndexedSegment := ⟨"a.vortex", some "a.search.fst", searchIndexSchemaVersion⟩
    ∃ index bytes, (additions.foldl MutableSearchIndex.add (.new 2)).finish
        FstMaps.pairList.toFstLib = .ok index ∧ encodeSearchIndex index = .ok bytes ∧
      (loadMatchingRows (fun _ ranges => .ok (ranges.map (ByteRange.read bytes))) .pairList segment
        predicate ⟨0, 0, 0, 0, 0⟩).1 = .ok (index.matchingRows .pairList predicate) := by
  intro additions predicate segment
  have hbuilds : (((additions.foldl MutableSearchIndex.add (.new 2)).finish
      FstMaps.pairList.toFstLib).toOption.bind fun index =>
        (encodeSearchIndex index).toOption).isSome := by
    decide +kernel
  obtain ⟨bytes, hbytes⟩ := Option.isSome_iff_exists.1 hbuilds
  obtain ⟨index, hindex, hencode⟩ := Option.bind_eq_some_iff.1 hbytes
  have hfinish := Outcome.eq_ok_of_toOption hindex
  have hencode := Outcome.eq_ok_of_toOption hencode
  exact ⟨index, bytes, hfinish, hencode, (load_matching_rows_eq FstMaps.pairList_keeps (by decide)
    hfinish hencode rfl rfl (fun _ _ => rfl) predicate _).2⟩

end loading

end KevinDb
