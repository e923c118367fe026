import KevinDb.Query.SearchTermData

namespace KevinDb
set_option autoImplicit true
open Std

/-! Data that is put together. -/

/-- An info points to the data of a term where it was moved. -/
structure TermInfo.Moves (group : SearchRowGroup) (allowPositions : Bool)
    (term : SearchIndexTermSlice) (postings positions : List UInt8) (info : TermInfo) : Prop where
  docCount : info.docCount = term.info.docCount
  postings : ∃ chunk,
    checkedRange term.info.postingsOffset term.info.postingsLen group.postings = some chunk ∧
      checkedRange info.postingsOffset info.postingsLen postings = some chunk
  positions : if term.loadsPositions allowPositions then
      0 < info.positionsLen ∧ ∃ chunk,
        checkedRange term.info.positionsOffset term.info.positionsLen group.positions =
          some chunk ∧ checkedRange info.positionsOffset info.positionsLen positions = some chunk
    else info.positionsLen = 0

/-- The data has the terms done, and no others. -/
structure TermData.Has (group : SearchRowGroup) (allowPositions : Bool)
    (done : List SearchIndexTermSlice) (data : TermData) : Prop where
  length : data.infos.length = group.termInfos.length
  others : ∀ ordinal < group.termInfos.length, (∀ term ∈ done, term.ordinal ≠ ordinal) →
    data.infos[ordinal]? = some defaultTermInfo
  found : ∀ term ∈ done, ∃ info, data.infos[term.ordinal]? = some info ∧
    info.Moves group allowPositions term data.postings data.positions

section data

variable {bytes : List UInt8} {ranges : List ByteRange} {group : SearchRowGroup}
  {allowPositions : Bool} {term : SearchIndexTermSlice} {done terms : List SearchIndexTermSlice}
  {data : TermData}

theorem TermInfo.Moves.append {postings positions : List UInt8} {info : TermInfo}
    (h : info.Moves group allowPositions term postings positions)
    (postings' positions' : List UInt8) :
    info.Moves group allowPositions term (postings ++ postings') (positions ++ positions') := by
  obtain ⟨hcount, ⟨chunk, hchunk, hmoved⟩, hpositions⟩ := h
  refine ⟨hcount, ⟨chunk, hchunk, checkedRange_append hmoved _⟩, ?_⟩
  split at hpositions
  next hloads =>
    obtain ⟨hpos, chunk, hchunk, hmoved⟩ := hpositions
    rw [if_pos hloads]
    exact ⟨hpos, chunk, hchunk, checkedRange_append hmoved _⟩
  next hloads =>
    rw [if_neg hloads]
    exact hpositions

/-- What is pushed behind some bytes is found there. -/
theorem checkedRange_concat {front chunk : List UInt8} (hfront : front.length < 2 ^ 32)
    (hchunk : chunk.length < 2 ^ 32) :
    checkedRange (UInt32.ofNat front.length) (UInt32.ofNat chunk.length) (front ++ chunk) =
      some chunk :=
  checkedRange_eq_some.2 ⟨front, [], by rw [List.append_nil],
    (UInt32.toNat_ofNat_of_lt' hfront).symm, (UInt32.toNat_ofNat_of_lt' hchunk).symm⟩

theorem checkedU32_eq {n : Nat} (h : n < 2 ^ 32) (label : String) :
    checkedU32 n label = .ok (UInt32.ofNat n) := if_pos h

/-- The positions that are added, with their length. -/
theorem addPositions_spec {plan : TermDataPlan} {positions : List UInt8}
    (hplan : plan.PlansFor bytes ranges group allowPositions term)
    (hfits : positions.length ≤ term.info.positionsOffset.toNat) :
    ∃ chunk, TermData.addPositions (ranges.map (ByteRange.read bytes)) positions plan.positions =
        .ok (positions ++ chunk, UInt32.ofNat chunk.length) ∧ chunk.length < 2 ^ 32 ∧
      (positions ++ chunk).length ≤
        term.info.positionsOffset.toNat + term.info.positionsLen.toNat ∧
      if term.loadsPositions allowPositions then 0 < chunk.length ∧
        checkedRange term.info.positionsOffset term.info.positionsLen group.positions = some chunk
      else chunk = [] := by
  have hpositions := hplan.positions
  split at hpositions
  next hloads =>
    obtain ⟨place, chunk, hplace, hchunk, hreads⟩ := hpositions
    obtain ⟨-, -, -, -, hlen⟩ := checkedRange_eq_some.1 hchunk
    have hlt := term.info.positionsLen.toNat_lt
    have hpos : 0 < term.info.positionsLen.toNat := by
      rw [SearchIndexTermSlice.loadsPositions, Bool.and_eq_true, decide_eq_true_eq] at hloads
      exact UInt32.lt_iff_toNat_lt.1 hloads.2
    refine ⟨chunk, ?_, by omega, ?_, ?_⟩
    · rw [hplace, TermData.addPositions, hreads.chunk, someOr, Outcome.ok_bind,
        checkedU32_eq (by omega), Outcome.ok_bind]
      rfl
    · rw [List.length_append]
      omega
    · rw [if_pos hloads]
      exact ⟨by omega, hchunk⟩
  next hloads =>
    refine ⟨[], ?_, by decide, ?_, ?_⟩
    · rw [hpositions, TermData.addPositions, List.append_nil]
      rfl
    · rw [List.append_nil]
      omega
    · rw [if_neg hloads]

/-- One turn of the loop adds the data of a term behind what there is. -/
theorem TermData.Has.add {plan : TermDataPlan} (h : data.Has group allowPositions done)
    (hplan : plan.PlansFor bytes ranges group allowPositions term)
    (hterm : group.termInfos[term.ordinal]? = some term.info)
    (hnew : ∀ other ∈ done, other.ordinal ≠ term.ordinal)
    (hpostings : data.postings.length ≤ term.info.postingsOffset.toNat)
    (hpositions : data.positions.length ≤ term.info.positionsOffset.toNat) :
    ∃ data', TermData.add (ranges.map (ByteRange.read bytes)) data plan = .ok data' ∧
      data'.Has group allowPositions (done ++ [term]) ∧
      data'.postings.length ≤ term.info.postingsOffset.toNat + term.info.postingsLen.toNat ∧
      data'.positions.length ≤ term.info.positionsOffset.toNat + term.info.positionsLen.toNat := by
  obtain ⟨chunk, hchunk, hreads⟩ := hplan.postings
  obtain ⟨positions, hadd, hpositionsLt, hpositionsLe, hloaded⟩ := addPositions_spec hplan hpositions
  obtain ⟨-, -, -, -, hlen⟩ := checkedRange_eq_some.1 hchunk
  have hoffsetLt := term.info.postingsOffset.toNat_lt
  have hlenLt := term.info.postingsLen.toNat_lt
  have hpositionsOffsetLt := term.info.positionsOffset.toNat_lt
  have hbound : term.ordinal < data.infos.length := by
    rw [h.length]
    exact (List.getElem?_eq_some_iff.1 hterm).1
  have hpostingsLt : data.postings.length < 2 ^ 32 := by omega
  have hpositionsStart : data.positions.length < 2 ^ 32 := by omega
  have hchunkLt : chunk.length < 2 ^ 32 := by omega
  refine ⟨⟨data.infos.set term.ordinal ⟨term.info.docCount, UInt32.ofNat data.postings.length,
    UInt32.ofNat chunk.length, UInt32.ofNat data.positions.length,
    UInt32.ofNat positions.length⟩, data.postings ++ chunk, data.positions ++ positions⟩,
    ?_, ⟨?_, ?_, ?_⟩, ?_, hpositionsLe⟩
  · rw [TermData.add, checkedU32_eq hpostingsLt, Outcome.ok_bind, hreads.chunk, someOr,
      Outcome.ok_bind, checkedU32_eq hpositionsStart, Outcome.ok_bind, hadd, Outcome.ok_bind,
      hplan.ordinal, hplan.info]
    dsimp only
    rw [if_pos hbound, checkedU32_eq hchunkLt]
    rfl
  · rw [List.length_set]
    exact h.length
  · intro ordinal hordinal hothers
    rw [List.forall_mem_append, List.forall_mem_singleton] at hothers
    rw [List.getElem?_set_ne hothers.2]
    exact h.others ordinal hordinal hothers.1
  · intro other hother
    rcases List.mem_append.1 hother with hother | hother
    · obtain ⟨info, hinfo, hmoves⟩ := h.found other hother
      exact ⟨info, by rwa [List.getElem?_set_ne (Ne.symm (hnew other hother))], hmoves.append _ _⟩
    · rw [List.mem_singleton.1 hother]
      refine ⟨_, List.getElem?_set_self hbound, rfl,
        ⟨chunk, hchunk, checkedRange_concat hpostingsLt hchunkLt⟩, ?_⟩
      split at hloaded
      next hloads =>
        rw [if_pos hloads]
        refine ⟨?_, positions, hloaded.2, checkedRange_concat hpositionsStart hpositionsLt⟩
        rw [UInt32.lt_iff_toNat_lt, UInt32.toNat_ofNat_of_lt' hpositionsLt]
        exact hloaded.1
      next hloads =>
        rw [if_neg hloads, hloaded]
        rfl
  · rw [List.length_append]
    omega

theorem TermData.Has.foldlM {plans : List TermDataPlan} (h : data.Has group allowPositions done)
    (hplans : List.Forall₂ (TermDataPlan.PlansFor bytes ranges group allowPositions) terms plans)
    (hinfos : ∀ term ∈ terms, group.termInfos[term.ordinal]? = some term.info)
    (hascending : (done ++ terms).Pairwise fun term term' => term.ordinal < term'.ordinal)
    (hbefore : terms.Pairwise fun term term' => term.info.EndsBefore term'.info)
    (hfits : ∀ term ∈ terms, data.postings.length ≤ term.info.postingsOffset.toNat ∧
      data.positions.length ≤ term.info.positionsOffset.toNat) :
    ∃ data', plans.foldlM (TermData.add (ranges.map (ByteRange.read bytes))) data = .ok data' ∧
      data'.Has group allowPositions (done ++ terms) := by
  induction hplans generalizing done data with
  | nil =>
    rw [List.append_nil]
    exact ⟨data, rfl, h⟩
  | @cons term plan terms plans hplan _ ih =>
    obtain ⟨hinfo, hinfos⟩ := List.forall_mem_cons.1 hinfos
    obtain ⟨⟨hpostings, hpositions⟩, -⟩ := List.forall_mem_cons.1 hfits
    obtain ⟨hfirst, hrest⟩ := List.pairwise_cons.1 hbefore
    have hnew : ∀ other ∈ done, other.ordinal ≠ term.ordinal := fun other hother =>
      ((List.pairwise_append.1 hascending).2.2 other hother term List.mem_cons_self).ne
    obtain ⟨data', hadd, hhas, hpostings', hpositions'⟩ :=
      h.add hplan hinfo hnew hpostings hpositions
    rw [List.append_cons] at hascending
    obtain ⟨data'', hfold, hhas'⟩ := ih hhas hinfos hascending hrest fun other hother => by
      obtain ⟨hpostingsLe, hpositionsLe⟩ := hfirst other hother
      exact ⟨hpostings'.trans hpostingsLe, hpositions'.trans hpositionsLe⟩
    rw [List.foldlM_cons, hadd, Outcome.ok_bind, List.append_cons]
    exact ⟨data'', hfold, hhas'⟩

/-- The data of the terms of a slice. -/
theorem exists_termData {slice : SearchIndexGroupTermSlices} {plans : List TermDataPlan}
    (hslice : slice.Slices group)
    (hstacked : Stacked group.termInfos group.postings group.positions)
    (hplans : List.Forall₂ (TermDataPlan.PlansFor bytes ranges group allowPositions) slice.terms
      plans) :
    ∃ data, plans.foldlM (TermData.add (ranges.map (ByteRange.read bytes)))
        ⟨List.replicate slice.termInfoCount.toNat defaultTermInfo, [], []⟩ = .ok data ∧
      data.Has group allowPositions slice.terms := by
  have hstart : TermData.Has group allowPositions []
      ⟨List.replicate slice.termInfoCount.toNat defaultTermInfo, [], []⟩ := by
    rw [hslice.termInfoCount]
    refine ⟨List.length_replicate, fun ordinal hordinal _ => ?_, by simp⟩
    exact List.getElem?_replicate_of_lt hordinal
  exact hstart.foldlM hplans hslice.terms.infos hslice.terms.ascending
    (hslice.terms.endsBefore hstacked) fun _ _ => ⟨Nat.zero_le _, Nat.zero_le _⟩

end data

/-! Groups that are loaded. -/

/-- A group with the data that was loaded of it. -/
def SearchRowGroup.loadedWith (group : SearchRowGroup) (data : TermData) : SearchRowGroup :=
  { group with
    termInfos := data.infos
    postings := data.postings
    positions := data.positions }

section loaded

variable {fst : FstMaps} {built includePositions : Bool} {group : SearchRowGroup}
  {entries : List TermEntry} {terms : List SearchIndexTermSlice} {data : TermData} {ordinal : Nat}

theorem groupTermByOrdinal_eq_some {info : TermInfo} {key chunk : List UInt8} {rows : List UInt32}
    {positions : Table UInt32 (List UInt32)} (hinfo : group.termInfos[ordinal]? = some info)
    (hkey : termByOrdinal fst group ordinal = some key)
    (hchunk : checkedRange info.postingsOffset info.postingsLen group.postings = some chunk)
    (hrows : decodeU32List chunk info.docCount.toNat = .ok rows)
    (hpositions : groupTermPositions group info rows includePositions = some positions) :
    groupTermByOrdinal fst group ordinal includePositions =
      some ⟨termPath key, rows.toFinset, positions⟩ := by
  rw [groupTermByOrdinal, hinfo, hkey]
  simp only [Option.bind_eq_bind, Option.bind_some, hchunk, hrows, Outcome.toOption, hpositions]
  rfl

theorem groupTermPositions_of_zero {info : TermInfo} (h : info.positionsLen = 0)
    (rows : List UInt32) (includePositions : Bool) :
    groupTermPositions group info rows includePositions = some ∅ := by
  rw [groupTermPositions, h, if_neg (by simp)]

/-- An entry has its info, and a key in the map. -/
theorem SearchRowGroup.Holds.entry (h : group.Holds fst built entries)
    (hordered : ∀ entry ∈ entries, entry.Ordered) {info : TermInfo}
    (hinfo : group.termInfos[ordinal]? = some info) :
    ∃ entry, entries[ordinal]? = some entry ∧ entry.Ordered ∧
      info.Describes built group.postings group.positions entry ∧
        termByOrdinal fst group ordinal = some entry.term := by
  obtain ⟨entry, hentry, hdescribes⟩ := exists_rel_getElem? h.infos hinfo
  refine ⟨entry, hentry, hordered entry (List.mem_of_getElem? hentry), hdescribes, ?_⟩
  rw [termByOrdinal_eq h, hentry, Option.map_some]

/-- The rows and the positions of a term that was loaded are those of the entry, and the positions are
left out if they were not asked for. -/
theorem groupTermByOrdinal_moved {term : SearchIndexTermSlice} {info : TermInfo} {entry : TermEntry}
    (hordered : entry.Ordered)
    (hdescribes : term.info.Describes built group.postings group.positions entry)
    (hkey : termByOrdinal fst group ordinal = some entry.term)
    (hinfo : data.infos[ordinal]? = some info)
    (hmoves : info.Moves group built term data.postings data.positions)
    (hbuilt : includePositions → built) :
    ∃ positions, groupTermByOrdinal fst (group.loadedWith data) ordinal includePositions =
        some ⟨termPath entry.term, entry.rows.toFinset, positions⟩ ∧
      ((includePositions → term.includePositions) →
        positions = (entry.decoded includePositions).positionsByRow) := by
  obtain ⟨hcount, ⟨chunk, hchunk, hmoved⟩, hpositions⟩ := hmoves
  obtain ⟨bytes, hbytes, hrows⟩ := hdescribes.decodeRows hordered.rows
  rw [hchunk, Option.some.injEq] at hbytes
  subst hbytes
  rw [← hcount] at hrows
  have hfound (positions : Table UInt32 (List UInt32)) (hpositions : groupTermPositions
      (group.loadedWith data) info entry.rows includePositions = some positions) :
      groupTermByOrdinal fst (group.loadedWith data) ordinal includePositions =
        some ⟨termPath entry.term, entry.rows.toFinset, positions⟩ :=
    groupTermByOrdinal_eq_some hinfo hkey hmoved hrows hpositions
  have hdecoded := groupTermPositions_eq hordered hdescribes hbuilt
  split at hpositions
  next hloads =>
    -- The positions were moved, and are decoded as they were before.
    obtain ⟨hpos, chunk', hchunk', hmoved'⟩ := hpositions
    rw [SearchIndexTermSlice.loadsPositions, Bool.and_eq_true, decide_eq_true_eq] at hloads
    refine ⟨_, hfound _ ?_, fun _ => rfl⟩
    rw [← hdecoded, groupTermPositions, groupTermPositions]
    simp only [hpos, hloads.2, decide_true, Bool.and_true, hchunk']
    rw [SearchRowGroup.loadedWith, hmoved']
  next hloads =>
    refine ⟨∅, hfound _ (groupTermPositions_of_zero hpositions _ _), fun hasked => ?_⟩
    rw [← Option.some.injEq, ← hdecoded, groupTermPositions]
    split
    next hwanted =>
      rw [Bool.and_eq_true, decide_eq_true_eq] at hwanted
      rw [SearchIndexTermSlice.loadsPositions, hbuilt hwanted.1, hasked hwanted.1] at hloads
      simp [hwanted.2] at hloads
    · rfl

/-- A group with the data of some terms is a part of the group that covers them. -/
theorem isPart_loadedWith {covered : Nat → Bool → Prop} (hholds : group.Holds fst built entries)
    (hordered : ∀ entry ∈ entries, entry.Ordered) (hterms : SlicesTerms group terms)
    (hhas : data.Has group built terms)
    (hcovered : ∀ ordinal (includePositions : Bool), covered ordinal includePositions →
      ordinal < group.termInfos.length → ∃ term ∈ terms, term.ordinal = ordinal ∧
        (includePositions → term.includePositions)) :
    group.IsPart fst built (group.loadedWith data) covered := by
  have hout {ordinal : Nat} (hle : group.termInfos.length ≤ ordinal) (includePositions : Bool) :
      groupTermByOrdinal fst (group.loadedWith data) ordinal includePositions = none ∧
        groupTermByOrdinal fst group ordinal includePositions = none := by
    have hle' : data.infos.length ≤ ordinal := hhas.length ▸ hle
    constructor
    · rw [groupTermByOrdinal, SearchRowGroup.loadedWith, List.getElem?_eq_none hle']
      rfl
    · rw [groupTermByOrdinal, List.getElem?_eq_none hle]
      rfl
  refine ⟨rfl, rfl, rfl, fun ordinal includePositions hbuilt h => ?_,
    fun ordinal includePositions hbuilt => ?_⟩
  · rcases Nat.lt_or_ge ordinal group.termInfos.length with hlt | hge
    · obtain ⟨term, hterm, rfl, hasked⟩ := hcovered ordinal includePositions h hlt
      obtain ⟨info, hinfo, hmoves⟩ := hhas.found term hterm
      obtain ⟨entry, hentry, hentryOrdered, hdescribes, hkey⟩ :=
        hholds.entry hordered (hterms.infos term hterm)
      obtain ⟨positions, hpart, hpositions⟩ :=
        groupTermByOrdinal_moved hentryOrdered hdescribes hkey hinfo hmoves hbuilt
      rw [hpart, hpositions hasked, groupTermByOrdinal_eq hholds hordered hbuilt, hentry]
      rfl
    · obtain ⟨hpart, hgroup⟩ := hout hge includePositions
      rw [hpart, hgroup]
  · rcases Nat.lt_or_ge ordinal group.termInfos.length with hlt | hge
    · obtain ⟨entry, hentry, hentryOrdered, hdescribes, hkey⟩ :=
        hholds.entry hordered (List.getElem?_eq_getElem hlt)
      rw [groupTermByOrdinal_eq hholds hordered hbuilt, hentry, Option.map_some, Option.map_some]
      by_cases hfound : ∃ term ∈ terms, term.ordinal = ordinal
      · obtain ⟨term, hterm, rfl⟩ := hfound
        obtain ⟨info, hinfo, hmoves⟩ := hhas.found term hterm
        have hsame := hterms.infos term hterm
        rw [List.getElem?_eq_getElem hlt, Option.some.injEq] at hsame
        rw [hsame] at hdescribes
        obtain ⟨positions, hpart, -⟩ :=
          groupTermByOrdinal_moved hentryOrdered hdescribes hkey hinfo hmoves hbuilt
        rw [hpart]
        rfl
      · -- Nothing was loaded of the term: there are no rows, but the path is there.
        have hdefault := hhas.others ordinal hlt fun term hterm heq => hfound ⟨term, hterm, heq⟩
        have hempty : checkedRange 0 0 data.postings = some [] :=
          checkedRange_eq_some.2 ⟨[], data.postings, rfl, rfl, rfl⟩
        have hpart : groupTermByOrdinal fst (group.loadedWith data) ordinal includePositions =
            some ⟨termPath entry.term, [].toFinset, ∅⟩ :=
          groupTermByOrdinal_eq_some hdefault hkey hempty rfl
            (groupTermPositions_of_zero rfl [] includePositions)
        rw [hpart]
        rfl
    · obtain ⟨hpart, hgroup⟩ := hout hge includePositions
      rw [hpart, hgroup]

end loaded

end KevinDb
