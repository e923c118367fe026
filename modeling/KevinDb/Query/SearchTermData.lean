import KevinDb.Query.SearchDictionaries
import KevinDb.Search.Parts

namespace KevinDb
set_option autoImplicit true
open Std

/-! Infos. -/

/-- What an info points to ends before what another one points to begins. -/
structure TermInfo.EndsBefore (info info' : TermInfo) : Prop where
  postings : info.postingsOffset.toNat + info.postingsLen.toNat ≤ info'.postingsOffset.toNat
  positions : info.positionsOffset.toNat + info.positionsLen.toNat ≤ info'.positionsOffset.toNat

theorem exists_checkedRange {offset len : UInt32} {bytes : List UInt8}
    (h : offset.toNat + len.toNat ≤ bytes.length) :
    ∃ chunk, checkedRange offset len bytes = some chunk := ⟨_, if_pos h⟩

/-- What infos point to lies one behind the other. -/
structure Stacked (infos : List TermInfo) (postings positions : List UInt8) : Prop where
  pairwise : infos.Pairwise TermInfo.EndsBefore
  postings : ∀ info ∈ infos,
    info.postingsOffset.toNat + info.postingsLen.toNat ≤ postings.length
  positions : ∀ info ∈ infos,
    info.positionsOffset.toNat + info.positionsLen.toNat ≤ positions.length

theorem Stacked.push {fst : FstLib} {includePositions : Bool} {encoder encoder' : GroupEncoder fst}
    {entry : TermEntry} (h : Stacked encoder.termInfos encoder.postings encoder.positions)
    (hpush : encoder.push includePositions entry = .ok encoder') :
    Stacked encoder'.termInfos encoder'.postings encoder'.positions := by
  obtain ⟨builder, encodedPostings, encodedPositions, info, -, -, -, -, -, hpostingsOffset,
    hpostingsLen, hpositionsOffset, hpositionsLen, rfl⟩ := GroupEncoder.push_eq_ok hpush
  constructor
  · apply List.pairwise_append.2
    refine ⟨h.pairwise, List.pairwise_singleton _ _, fun before hbefore other hother => ?_⟩
    rw [List.mem_singleton.1 hother]
    constructor
    · exact hpostingsOffset ▸ h.postings before hbefore
    · exact hpositionsOffset ▸ h.positions before hbefore
  · dsimp only
    rw [List.forall_mem_append, List.forall_mem_singleton, List.length_append, hpostingsOffset,
      hpostingsLen]
    exact ⟨fun before hbefore => (h.postings before hbefore).trans (Nat.le_add_right _ _),
      Nat.le_refl _⟩
  · dsimp only
    rw [List.forall_mem_append, List.forall_mem_singleton, List.length_append, hpositionsOffset,
      hpositionsLen]
    exact ⟨fun before hbefore => (h.positions before hbefore).trans (Nat.le_add_right _ _),
      Nat.le_refl _⟩

/-- The infos of a group that is built are stacked. -/
theorem stacked_of_encodeRowGroup {fst : FstLib} {includePositions : Bool}
    {entries : List TermEntry} {group : SearchRowGroup}
    (h : encodeRowGroup fst includePositions entries = .ok group) :
    Stacked group.termInfos group.postings group.positions := by
  have hloop (encoder encoder' : GroupEncoder fst)
      (hstacked : Stacked encoder.termInfos encoder.postings encoder.positions)
      (hfold : entries.foldlM (GroupEncoder.push includePositions) encoder = .ok encoder') :
      Stacked encoder'.termInfos encoder'.postings encoder'.positions := by
    clear h
    induction entries generalizing encoder with
    | nil =>
      cases hfold
      exact hstacked
    | cons entry entries ih =>
      rw [List.foldlM_cons] at hfold
      obtain ⟨next, hnext, hfold⟩ := Outcome.bind_eq_ok_iff.1 hfold
      exact ih next (hstacked.push hnext) hfold
  rw [encodeRowGroup] at h
  obtain ⟨encoder, hencoder, h⟩ := Outcome.bind_eq_ok_iff.1 h
  obtain ⟨bytes, -, h⟩ := Outcome.bind_eq_ok_iff.1 h
  cases h
  exact hloop _ encoder ⟨.nil, by simp, by simp⟩ hencoder

/-! Slices. -/

/-- The positions of a term are loaded. -/
def SearchIndexTermSlice.loadsPositions (allowPositions : Bool) (term : SearchIndexTermSlice) :
    Bool :=
  allowPositions && term.includePositions && term.info.positionsLen > 0

/-- The terms are terms of a group, in the order of their ordinals. -/
structure SlicesTerms (group : SearchRowGroup) (terms : List SearchIndexTermSlice) : Prop where
  infos : ∀ term ∈ terms, group.termInfos[term.ordinal]? = some term.info
  ascending : terms.Pairwise fun term term' => term.ordinal < term'.ordinal

/-- A slice has terms of its group. -/
structure SearchIndexGroupTermSlices.Slices (group : SearchRowGroup)
    (slice : SearchIndexGroupTermSlices) : Prop where
  fstBytes : slice.fstBytes = group.fstBytes
  termInfoCount : slice.termInfoCount.toNat = group.termInfos.length
  terms : SlicesTerms group slice.terms

theorem SlicesTerms.endsBefore {group : SearchRowGroup} {terms : List SearchIndexTermSlice}
    (h : SlicesTerms group terms)
    (hstacked : Stacked group.termInfos group.postings group.positions) :
    terms.Pairwise fun term term' => term.info.EndsBefore term'.info := by
  apply h.ascending.imp_of_mem
  intro term term' hterm hterm' hlt
  obtain ⟨hbound, hinfo⟩ := List.getElem?_eq_some_iff.1 (h.infos term hterm)
  obtain ⟨hbound', hinfo'⟩ := List.getElem?_eq_some_iff.1 (h.infos term' hterm')
  rw [← hinfo, ← hinfo']
  exact List.pairwise_iff_getElem.1 hstacked.pairwise _ _ hbound hbound' hlt

/-! Plans of terms. -/

/-- A plan reads the data of a term. -/
structure TermDataPlan.PlansFor (bytes : List UInt8) (ranges : List ByteRange)
    (group : SearchRowGroup) (allowPositions : Bool) (term : SearchIndexTermSlice)
    (plan : TermDataPlan) : Prop where
  ordinal : plan.ordinal = term.ordinal
  info : plan.info = term.info
  postings : ∃ chunk, checkedRange term.info.postingsOffset term.info.postingsLen group.postings =
    some chunk ∧ ReadsAt bytes ranges plan.postings chunk
  positions : if term.loadsPositions allowPositions then
      ∃ place chunk, plan.positions = some place ∧
        checkedRange term.info.positionsOffset term.info.positionsLen group.positions =
          some chunk ∧ ReadsAt bytes ranges place chunk
    else plan.positions = none

/-- A plan reads the data of a slice. -/
structure TermDataGroupPlan.PlansFor (bytes : List UInt8) (groups : List SearchRowGroup)
    (ranges : List ByteRange) (allowPositions : Bool) (slice : SearchIndexGroupTermSlices)
    (plan : TermDataGroupPlan) : Prop where
  groupIndex : plan.groupIndex = slice.groupIndex
  fstBytes : plan.fstBytes = slice.fstBytes
  termInfoCount : plan.termInfoCount = slice.termInfoCount
  terms : ∃ group, groups[slice.groupIndex]? = some group ∧ slice.Slices group ∧
    List.Forall₂ (TermDataPlan.PlansFor bytes ranges group allowPositions) slice.terms plan.terms

section plans

variable {bytes : List UInt8} {directories : List SearchIndexGroupDirectory}
  {groups : List SearchRowGroup} {group : SearchRowGroup} {ranges ranges' : List ByteRange}
  {allowPositions : Bool}

theorem TermDataPlan.PlansFor.mono {term : SearchIndexTermSlice} {plan : TermDataPlan}
    (h : plan.PlansFor bytes ranges group allowPositions term)
    (hgrow : RangesGrow bytes ranges ranges') :
    plan.PlansFor bytes ranges' group allowPositions term := by
  obtain ⟨hordinal, hinfo, ⟨chunk, hchunk, hreads⟩, hpositions⟩ := h
  refine ⟨hordinal, hinfo, ⟨chunk, hchunk, hreads.mono hgrow⟩, ?_⟩
  split at hpositions
  next hloads =>
    obtain ⟨place, chunk, hplace, hchunk, hreads⟩ := hpositions
    rw [if_pos hloads]
    exact ⟨place, chunk, hplace, hchunk, hreads.mono hgrow⟩
  next hloads =>
    rw [if_neg hloads]
    exact hpositions

theorem TermDataGroupPlan.PlansFor.mono {slice : SearchIndexGroupTermSlices}
    {plan : TermDataGroupPlan} (h : plan.PlansFor bytes groups ranges allowPositions slice)
    (hgrow : RangesGrow bytes ranges ranges') :
    plan.PlansFor bytes groups ranges' allowPositions slice := by
  obtain ⟨hgroupIndex, hfst, hcount, group, hget, hslices, hterms⟩ := h
  exact ⟨hgroupIndex, hfst, hcount, group, hget, hslices, hterms.imp fun _ _ hplan => hplan.mono hgrow⟩

theorem planTerm_spec (allowPositions : Bool) {directory : SearchIndexGroupDirectory}
    {term : SearchIndexTermSlice} (hdirectory : directory.Describes bytes group) (hlength : bytes.length < 2 ^ 64)
    (hstacked : Stacked group.termInfos group.postings group.positions)
    (hterm : term.info ∈ group.termInfos) (hranges : ∀ range ∈ ranges, range.Within bytes.length) :
    ∃ plan ranges', planTerm directory allowPositions ranges term = .ok (plan, ranges') ∧
      RangesGrow bytes ranges ranges' ∧ plan.PlansFor bytes ranges' group allowPositions term := by
  obtain ⟨postings, hpostings⟩ := exists_checkedRange (hstacked.postings _ hterm)
  obtain ⟨positions, hpositions⟩ := exists_checkedRange (hstacked.positions _ hterm)
  obtain ⟨range, hrange, hlocates⟩ := subrange_eq hdirectory.postings hlength hpostings
  obtain ⟨hgrow, hreads⟩ := pushRange_spec hlocates hlength hranges
  rw [planTerm, hrange, Outcome.ok_bind]
  dsimp only
  by_cases hloads : term.loadsPositions allowPositions = true
  · obtain ⟨range', hrange', hlocates'⟩ := subrange_eq hdirectory.positions hlength hpositions
    obtain ⟨hgrow', hreads'⟩ := pushRange_spec hlocates' hlength hgrow.within
    have hif := hloads
    rw [SearchIndexTermSlice.loadsPositions] at hif
    rw [if_pos hif, hrange', Outcome.ok_bind]
    refine ⟨_, _, rfl, hgrow.trans hgrow', rfl, rfl, ⟨_, hpostings, hreads.mono hgrow'⟩, ?_⟩
    rw [if_pos hloads]
    exact ⟨_, _, rfl, hpositions, hreads'⟩
  · have hif := hloads
    rw [SearchIndexTermSlice.loadsPositions] at hif
    rw [if_neg hif]
    refine ⟨_, _, rfl, hgrow, rfl, rfl, ⟨_, hpostings, hreads⟩, ?_⟩
    rw [if_neg hloads]

theorem planTerms_spec (allowPositions : Bool) {directory : SearchIndexGroupDirectory}
    {terms : List SearchIndexTermSlice} (hdirectory : directory.Describes bytes group) (hlength : bytes.length < 2 ^ 64)
    (hstacked : Stacked group.termInfos group.postings group.positions)
    (hterms : ∀ term ∈ terms, term.info ∈ group.termInfos)
    (hranges : ∀ range ∈ ranges, range.Within bytes.length) :
    ∃ plans ranges', planTerms directory allowPositions ranges terms = .ok (plans, ranges') ∧
      RangesGrow bytes ranges ranges' ∧
        List.Forall₂ (TermDataPlan.PlansFor bytes ranges' group allowPositions) terms plans := by
  induction terms generalizing ranges with
  | nil => exact ⟨[], ranges, rfl, ⟨List.prefix_rfl, hranges⟩, .nil⟩
  | cons term terms ih =>
    obtain ⟨hterm, hterms⟩ := List.forall_mem_cons.1 hterms
    obtain ⟨plan, ranges', hplan, hgrow, hfor⟩ :=
      planTerm_spec allowPositions hdirectory hlength hstacked hterm hranges
    obtain ⟨plans, ranges'', hplans, hgrow', hfors⟩ := ih hterms hgrow.within
    rw [planTerms, hplan, Outcome.ok_bind]
    dsimp only
    rw [hplans]
    exact ⟨plan :: plans, ranges'', rfl, hgrow.trans hgrow', .cons (hfor.mono hgrow') hfors⟩

/-- The data of the terms of slices is planned. -/
theorem planTermDataRanges_spec (allowPositions : Bool) {slices : List SearchIndexGroupTermSlices}
    (hdirectories : List.Forall₂ (SearchIndexGroupDirectory.Describes · bytes) directories groups)
    (hlength : bytes.length < 2 ^ 64)
    (hstacked : ∀ group ∈ groups, Stacked group.termInfos group.postings group.positions)
    (hslices : ∀ slice ∈ slices, ∃ group, groups[slice.groupIndex]? = some group ∧ slice.Slices group)
    (hranges : ∀ range ∈ ranges, range.Within bytes.length) :
    ∃ plans ranges', planTermDataRanges directories allowPositions ranges slices =
        .ok (plans, ranges') ∧ RangesGrow bytes ranges ranges' ∧
      List.Forall₂ (TermDataGroupPlan.PlansFor bytes groups ranges' allowPositions) slices plans := by
  induction slices generalizing ranges with
  | nil => exact ⟨[], ranges, rfl, ⟨List.prefix_rfl, hranges⟩, .nil⟩
  | cons slice slices ih =>
    obtain ⟨⟨group, hget, hslice⟩, hslices⟩ := List.forall_mem_cons.1 hslices
    obtain ⟨directory, hdirectory, hdescribes⟩ := exists_rel_getElem? hdirectories hget
    obtain ⟨terms, ranges', hterms, hgrow, hfor⟩ :=
      planTerms_spec allowPositions hdescribes hlength
        (hstacked group (List.mem_of_getElem? hget))
        (fun term hterm => List.mem_of_getElem? (hslice.terms.infos term hterm)) hranges
    obtain ⟨plans, ranges'', hplans, hgrow', hfors⟩ := ih hslices hgrow.within
    rw [planTermDataRanges, planTermDataGroup, hdirectory, someOr, Outcome.ok_bind, hterms,
      Outcome.ok_bind]
    dsimp only
    rw [Outcome.pure_eq, Outcome.ok_bind]
    dsimp only
    rw [hplans]
    exact ⟨_, ranges'', rfl, hgrow.trans hgrow', .cons ⟨rfl, rfl, rfl, group, hget, hslice,
      hfor.imp fun _ _ hplan => hplan.mono hgrow'⟩ hfors⟩

end plans

end KevinDb
