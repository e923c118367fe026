import KevinDb.Query.SearchReads
import KevinDb.Search.Requests

namespace KevinDb
set_option autoImplicit true
open Std

/-- What stands at a place of lists that are related. -/
theorem exists_rel_getElem? {R : α → β → Prop} {values : List α} {results : List β}
    (h : List.Forall₂ R values results) {index : Nat} {result : β}
    (hget : results[index]? = some result) : ∃ value, values[index]? = some value ∧ R value result := by
  induction h generalizing index with
  | nil => cases hget
  | @cons first _ _ _ hfirst _ ih =>
    cases index with
    | zero => exact ⟨first, rfl, Option.some.inj hget ▸ hfirst⟩
    | succ index => exact ih hget

/-- Computations whose results are known one by one. -/
theorem Outcome.mapM_eq_ok {f : α → Outcome β} {values : List α} {results : List β}
    (h : List.Forall₂ (fun value result => f value = .ok result) values results) :
    values.mapM f = .ok results := by
  induction h with
  | nil => rfl
  | cons hfirst _ ih =>
    rw [List.mapM_cons, hfirst, Outcome.ok_bind, ih]
    rfl

/-! Dictionaries. -/

/-- The dictionary of a group. -/
def SearchRowGroup.dictionary (group : SearchRowGroup) (groupIndex : Nat) :
    SearchIndexGroupDictionary :=
  ⟨groupIndex, group.fstBytes, group.termInfos⟩

/-- The dictionaries of the groups that are selected. -/
def dictionariesOf (groups : List SearchRowGroup) (selected : List Nat) :
    List SearchIndexGroupDictionary :=
  selected.filterMap fun groupIndex => groups[groupIndex]?.map (·.dictionary groupIndex)

/-- A plan reads the dictionary of a group. -/
structure DictionaryRangePlan.PlansFor (bytes : List UInt8) (groups : List SearchRowGroup)
    (ranges : List ByteRange) (plan : DictionaryRangePlan)
    (dictionary : SearchIndexGroupDictionary) : Prop where
  group : ∃ group, groups[plan.groupIndex]? = some group ∧
    dictionary = group.dictionary plan.groupIndex
  fst : ReadsAt bytes ranges plan.fst dictionary.fstBytes
  termInfos : ReadsAt bytes ranges plan.termInfos (encodeSearchTermInfos dictionary.termInfos)

section dictionaries

variable {fst : FstMaps} {bytes : List UInt8} {directories : List SearchIndexGroupDirectory}
  {groups : List SearchRowGroup} {ranges ranges' : List ByteRange}

theorem DictionaryRangePlan.PlansFor.mono {plan : DictionaryRangePlan}
    {dictionary : SearchIndexGroupDictionary} (h : plan.PlansFor bytes groups ranges dictionary)
    (hgrow : RangesGrow bytes ranges ranges') : plan.PlansFor bytes groups ranges' dictionary :=
  ⟨h.group, h.fst.mono hgrow, h.termInfos.mono hgrow⟩

/-- The plans read the dictionaries of the groups there are. -/
theorem planDictionaryRanges_spec
    (hdirectories : List.Forall₂ (SearchIndexGroupDirectory.Describes · bytes) directories groups)
    (hlength : bytes.length < 2 ^ 64) (groupIndexes : List Nat)
    (hranges : ∀ range ∈ ranges, range.Within bytes.length) :
    RangesGrow bytes ranges (planDictionaryRanges directories ranges groupIndexes).2 ∧
      List.Forall₂ (DictionaryRangePlan.PlansFor bytes groups
          (planDictionaryRanges directories ranges groupIndexes).2)
        (planDictionaryRanges directories ranges groupIndexes).1
        (dictionariesOf groups groupIndexes) := by
  induction groupIndexes generalizing ranges with
  | nil => exact ⟨⟨List.prefix_rfl, hranges⟩, .nil⟩
  | cons groupIndex groupIndexes ih =>
    rw [planDictionaryRanges, dictionariesOf, List.filterMap_cons]
    cases hget : groups[groupIndex]? with
    | none =>
      have hnone : directories[groupIndex]? = none := by
        rw [List.getElem?_eq_none_iff] at hget ⊢
        exact hdirectories.length_eq ▸ hget
      rw [hnone]
      exact ih hranges
    | some group =>
      obtain ⟨directory, hdirectory, hdescribes⟩ := exists_rel_getElem? hdirectories hget
      rw [hdirectory]
      obtain ⟨hfst, hreadsFst⟩ := pushRange_spec hdescribes.fst hlength hranges
      obtain ⟨hinfos, hreadsInfos⟩ := pushRange_spec hdescribes.termInfos hlength hfst.within
      obtain ⟨hrest, hplans⟩ := ih hinfos.within
      have hgrow := hinfos.trans hrest
      exact ⟨hfst.trans hgrow,
        .cons ⟨⟨group, hget, rfl⟩, hreadsFst.mono hgrow, hreadsInfos.mono hrest⟩ hplans⟩

theorem materializeDictionary_eq {plan : DictionaryRangePlan}
    {dictionary : SearchIndexGroupDictionary}
    (hdirectories : List.Forall₂ (SearchIndexGroupDirectory.Describes · bytes) directories groups)
    (hlength : bytes.length < 2 ^ 64) (hvalid : ∀ group ∈ groups, fst.validate group.fstBytes)
    (hplan : plan.PlansFor bytes groups ranges dictionary) :
    materializeDictionary fst (ranges.map (ByteRange.read bytes)) directories plan =
      .ok dictionary := by
  obtain ⟨⟨group, hget, rfl⟩, hfst, htermInfos⟩ := hplan
  obtain ⟨directory, hdirectory, hdescribes⟩ := exists_rel_getElem? hdirectories hget
  have hdecoded : decodeSearchTermInfos (encodeSearchTermInfos group.termInfos)
      group.termInfos.length = .ok group.termInfos := by
    apply decodeSearchTermInfos_encode
    obtain ⟨front, rest, hbytes, -⟩ := hdescribes.termInfos
    rw [hbytes, List.length_append, List.length_append] at hlength
    omega
  rw [materializeDictionary, hdirectory, someOr, Outcome.ok_bind, chunkAt, hfst.chunk]
  dsimp only
  rw [Outcome.ok_bind, chunkAt, htermInfos.chunk]
  dsimp only
  rw [Outcome.ok_bind, decodeSearchGroupDictionary, SearchRowGroup.dictionary,
    hvalid group (List.mem_of_getElem? hget), hdescribes.termInfoCount]
  dsimp only
  rw [hdecoded]
  rfl

theorem materializeDictionaries_eq {plans : List DictionaryRangePlan}
    {dictionaries : List SearchIndexGroupDictionary}
    (hdirectories : List.Forall₂ (SearchIndexGroupDirectory.Describes · bytes) directories groups)
    (hlength : bytes.length < 2 ^ 64) (hvalid : ∀ group ∈ groups, fst.validate group.fstBytes)
    (hplans : List.Forall₂ (DictionaryRangePlan.PlansFor bytes groups ranges) plans dictionaries) :
    materializeDictionaries fst (ranges.map (ByteRange.read bytes)) directories plans =
      .ok dictionaries :=
  Outcome.mapM_eq_ok <| hplans.imp fun _ _ hplan =>
    materializeDictionary_eq hdirectories hlength hvalid hplan

theorem gives_loadSelectedDictionaries
    {getRanges : List ByteRange → Except String (List (List UInt8))} {index : SearchIndex}
    (hfits : index.Fits) (hstore : StoreReturns getRanges index.layout)
    (hvalid : ∀ group ∈ index.groups, fst.validate group.fstBytes)
    (selection : SearchIndexGroupSelection) :
    (loadSelectedDictionaries getRanges fst index.directory selection).Gives
      ⟨dictionariesOf index.termKeyGroups selection.termKeyGroups.toList,
        dictionariesOf index.termValueGroups selection.termValueGroups.toList⟩ := by
  obtain ⟨hkeys, hvalues⟩ := hfits.describes
  obtain ⟨hvalidKeys, hvalidValues⟩ := List.forall_mem_append.1 hvalid
  have hlength := hfits.length_lt
  have hnil : ∀ range ∈ ([] : List ByteRange), range.Within index.layout.length := by simp
  obtain ⟨hgrowKeys, hkeyPlans⟩ :=
    planDictionaryRanges_spec hkeys hlength selection.termKeyGroups.toList hnil
  obtain ⟨hgrowValues, hvaluePlans⟩ :=
    planDictionaryRanges_spec hvalues hlength selection.termValueGroups.toList hgrowKeys.within
  apply (gives_loadRanges hstore hgrowValues.within).bind
  apply (Load.gives_ofOutcome (materializeDictionaries_eq hkeys hlength hvalidKeys
    (hkeyPlans.imp fun _ _ hplan => hplan.mono hgrowValues))).bind
  apply (Load.gives_ofOutcome
    (materializeDictionaries_eq hvalues hlength hvalidValues hvaluePlans)).bind
  exact Load.gives_pure _

theorem requests_loadSelectedDictionaries
    (getRanges : List ByteRange → Except String (List (List UInt8)))
    (directory : SearchIndexDirectory) (selection : SearchIndexGroupSelection) :
    (loadSelectedDictionaries getRanges fst directory selection).Requests 1 := by
  change Load.Requests _ (1 + (0 + (0 + 0)))
  apply (requests_loadRanges getRanges _).bind
  intro chunks
  apply (Load.requests_ofOutcome _).bind
  intro termKeyGroups
  apply (Load.requests_ofOutcome _).bind
  intro termValueGroups
  exact Load.requests_pure _

/-- The dictionary that is found for a group. -/
theorem find?_dictionariesOf (groups : List SearchRowGroup) (selected : List Nat)
    (groupIndex : Nat) :
    (dictionariesOf groups selected).find? (·.groupIndex = groupIndex) =
      if groupIndex ∈ selected then groups[groupIndex]?.map (·.dictionary groupIndex)
      else none := by
  rw [dictionariesOf]
  induction selected with
  | nil => rfl
  | cons first selected ih =>
    rw [List.filterMap_cons]
    by_cases heq : first = groupIndex
    · subst heq
      rw [if_pos List.mem_cons_self]
      cases hget : groups[first]? with
      | none =>
        rw [hget] at ih
        rw [Option.map_none]
        dsimp only
        rw [ih, Option.map_none, ite_self]
      | some group =>
        rw [Option.map_some]
        dsimp only
        rw [List.find?_cons_of_pos (by simp [SearchRowGroup.dictionary])]
    · simp only [List.mem_cons, Ne.symm heq, false_or]
      cases groups[first]? with
      | none => exact ih
      | some group =>
        rw [Option.map_some]
        dsimp only
        rw [List.find?_cons_of_neg (by simp [SearchRowGroup.dictionary, heq]), ih]

/-- What is found in the dictionaries is found in a group that is selected. -/
theorem foundIn_dictionariesOf {selected : List Nat} {find : List UInt8 → List Nat}
    {groupIndex ordinal : Nat} :
    FoundIn (dictionariesOf groups selected) find groupIndex ordinal ↔
      groupIndex ∈ selected ∧ ∃ group, groups[groupIndex]? = some group ∧
        ordinal ∈ find group.fstBytes := by
  rw [FoundIn, dictionariesOf]
  simp only [List.mem_filterMap, Option.map_eq_some_iff]
  constructor
  · rintro ⟨_, ⟨_, hselected, group, hget, rfl⟩, rfl, hfound⟩
    exact ⟨hselected, group, hget, hfound⟩
  · rintro ⟨hselected, group, hget, hfound⟩
    exact ⟨_, ⟨groupIndex, hselected, group, hget, rfl⟩, rfl, hfound⟩

end dictionaries

end KevinDb
