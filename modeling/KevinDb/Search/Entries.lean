import KevinDb.Search.RoundTrip
import KevinDb.Search.Sorting

namespace KevinDb
set_option autoImplicit true
open Std

/-! Entries. -/

/-- What occurrences add up to. -/
def accumulate (addTo : α → TermAccumulator → TermAccumulator) (occurrences : List α) :
    TermAccumulator :=
  occurrences.foldl (fun accumulator occurrence => addTo occurrence accumulator) .empty

/-- An entry for each term, with what its occurrences add up to. -/
def entriesOf [TermOccurrence α] (interner : TermInterner)
    (addTo : α → TermAccumulator → TermAccumulator) (terms : List (List UInt8))
    (occurrences : List α) : List (List UInt8 × TermAccumulator) :=
  terms.map fun term =>
    (term, accumulate addTo (occurrences.filter fun a => interner.termOf a = term))

/-- Terms in strict order. -/
def Ascending (terms : List (List UInt8)) : Prop := terms.Pairwise fun a b => compare a b = .lt

/-- The entries have one term each of the occurrences, in strict order. -/
structure EntriesExact [TermOccurrence α] (interner : TermInterner)
    (addTo : α → TermAccumulator → TermAccumulator) (occurrences : List α)
    (entries : List (List UInt8 × TermAccumulator)) : Prop where
  ascending : Ascending (entries.map Prod.fst)
  mem_iff : ∀ term, term ∈ entries.map Prod.fst ↔ ∃ a ∈ occurrences, interner.termOf a = term
  entries_eq : entries = entriesOf interner addTo (entries.map Prod.fst) occurrences

section entries

variable [TermOccurrence α] {interner : TermInterner}
  {addTo : α → TermAccumulator → TermAccumulator} {occurrences : List α}

omit [TermOccurrence α] in
theorem accumulate_append (addTo : α → TermAccumulator → TermAccumulator) (occurrences : List α)
    (occurrence : α) : accumulate addTo (occurrences ++ [occurrence]) =
      addTo occurrence (accumulate addTo occurrences) := by
  rw [accumulate, List.foldl_append, List.foldl_cons, List.foldl_nil, accumulate]

theorem map_fst_entriesOf (terms : List (List UInt8)) :
    (entriesOf interner addTo terms occurrences).map Prod.fst = terms := by
  rw [entriesOf, List.map_map]
  exact List.map_id _

/-- Where the loop is: what it would finish with, and its term. -/
structure EntryBuilder.Follows (interner : TermInterner)
    (addTo : α → TermAccumulator → TermAccumulator) (occurrences : List α)
    (builder : EntryBuilder) : Prop where
  exact : EntriesExact interner addTo occurrences (builder.finish interner)
  current : builder.currentTermId = occurrences.getLast?.map termId
  empty : builder.currentTermId = none → builder.current = .empty

/-- The occurrences of terms other than that of one more are the same with it. -/
theorem entriesOf_append_of_not_mem {terms : List (List UInt8)} {occurrence : α}
    (hterm : interner.termOf occurrence ∉ terms) :
    entriesOf interner addTo terms (occurrences ++ [occurrence]) =
      entriesOf interner addTo terms occurrences := by
  apply List.map_congr_left
  intro term hmem
  have hne : interner.termOf occurrence ≠ term := by
    rintro rfl
    exact hterm hmem
  rw [List.filter_append, List.filter_cons_of_neg (by simpa using hne), List.filter_nil,
    List.append_nil]

/-- One more occurrence, of the term of the last entry, is added to that. -/
theorem EntriesExact.append_same {entries : List (List UInt8 × TermAccumulator)}
    {occurrence : α} {accumulator : TermAccumulator}
    (h : EntriesExact interner addTo occurrences
      (entries ++ [(interner.termOf occurrence, accumulator)])) :
    EntriesExact interner addTo (occurrences ++ [occurrence])
      (entries ++ [(interner.termOf occurrence, addTo occurrence accumulator)]) := by
  have hterms : (entries ++ [(interner.termOf occurrence, accumulator)]).map Prod.fst =
      entries.map Prod.fst ++ [interner.termOf occurrence] := by
    rw [List.map_append, List.map_singleton]
  have hterms' : (entries ++ [(interner.termOf occurrence, addTo occurrence accumulator)]).map
      Prod.fst = entries.map Prod.fst ++ [interner.termOf occurrence] := by
    rw [List.map_append, List.map_singleton]
  obtain ⟨hascending, hmem, hentries⟩ := h
  rw [hterms] at hascending hmem hentries
  have hnot : interner.termOf occurrence ∉ entries.map Prod.fst := by
    intro hin
    have hlt := (List.pairwise_append.1 hascending).2.2 _ hin _ (List.mem_singleton_self _)
    rw [ReflOrd.compare_self] at hlt
    cases hlt
  rw [entriesOf, List.map_append, List.map_singleton] at hentries
  obtain ⟨hfront, hlast⟩ := List.append_inj' hentries rfl
  refine ⟨hterms' ▸ hascending, fun term => ?_, ?_⟩
  · rw [hterms', hmem]
    simp only [List.mem_append, List.mem_singleton, or_and_right, exists_or, exists_eq_left]
    constructor
    · exact Or.inl
    · rintro (h | rfl)
      · exact h
      · exact (hmem _).1 (by simp)
  · rw [hterms', entriesOf, List.map_append, List.map_singleton]
    congr 1
    · rw [← entriesOf, entriesOf_append_of_not_mem hnot]
      exact hfront
    · rw [List.filter_append, List.filter_cons_of_pos (by simp), List.filter_nil,
        accumulate_append]
      cases hlast
      rfl

/-- An occurrence of a greater term gets an entry of its own. -/
theorem EntriesExact.append_new {entries : List (List UInt8 × TermAccumulator)} {occurrence : α}
    (h : EntriesExact interner addTo occurrences entries)
    (hgreater : ∀ a ∈ occurrences,
      compare (interner.termOf a) (interner.termOf occurrence) = .lt) :
    EntriesExact interner addTo (occurrences ++ [occurrence])
      (entries ++ [(interner.termOf occurrence, addTo occurrence .empty)]) := by
  have hterms' : (entries ++ [(interner.termOf occurrence, addTo occurrence .empty)]).map
      Prod.fst = entries.map Prod.fst ++ [interner.termOf occurrence] := by
    rw [List.map_append, List.map_singleton]
  obtain ⟨hascending, hmem, hentries⟩ := h
  have hless : ∀ term ∈ entries.map Prod.fst, compare term (interner.termOf occurrence) = .lt := by
    intro term hterm
    obtain ⟨a, ha, rfl⟩ := (hmem term).1 hterm
    exact hgreater a ha
  have hself : compare (interner.termOf occurrence) (interner.termOf occurrence) ≠ .lt := by
    rw [ReflOrd.compare_self]
    nofun
  have hnone : occurrences.filter (fun a => interner.termOf a = interner.termOf occurrence) =
      [] := by
    rw [List.filter_eq_nil_iff]
    intro a ha hsame
    have hlt := hgreater a ha
    rw [of_decide_eq_true hsame] at hlt
    exact hself hlt
  refine ⟨?_, fun term => ?_, ?_⟩
  · rw [hterms']
    apply List.pairwise_append.2 ⟨hascending, List.pairwise_singleton _ _, fun term hterm => ?_⟩
    rw [List.forall_mem_singleton]
    exact hless term hterm
  · rw [hterms']
    simp only [List.mem_append, List.mem_singleton, or_and_right, exists_or, exists_eq_left, hmem]
    exact or_congr_right eq_comm
  · rw [hterms', entriesOf, List.map_append, List.map_singleton]
    congr 1
    · rw [← entriesOf, entriesOf_append_of_not_mem fun hin => hself (hless _ hin)]
      exact hentries
    · rw [List.filter_append, hnone, List.filter_cons_of_pos (by simp), List.filter_nil]
      rfl

/-- One turn of the loop. The next occurrence comes behind those before it, so that one with
another identifier than the last has a greater term than all. -/
theorem EntryBuilder.Follows.push {builder : EntryBuilder} {occurrence : α}
    (h : builder.Follows interner addTo occurrences) (hsound : interner.Sound)
    (hknows : ∀ a ∈ occurrences ++ [occurrence], interner.Knows (termId a))
    (hsorted : (occurrences ++ [occurrence]).Pairwise fun a b =>
      (compare (interner.termOf a) (interner.termOf b)).isLE) :
    (builder.push interner addTo occurrence).Follows interner addTo
      (occurrences ++ [occurrence]) := by
  obtain ⟨hexact, hcurrent, hempty⟩ := h
  have hlast : some (termId occurrence) = (occurrences ++ [occurrence]).getLast?.map termId := by
    rw [List.getLast?_concat, Option.map_some]
  rw [EntryBuilder.push]
  split
  next hsame =>
    refine ⟨?_, hsame ▸ hlast, fun hnone => ?_⟩
    · rw [EntryBuilder.finish, ← hsame] at hexact ⊢
      exact hexact.append_same
    · rw [← hsame] at hnone
      cases hnone
  next hother =>
    split
    next current hid =>
      refine ⟨?_, hlast, nofun⟩
      rw [EntryBuilder.finish, hid] at hexact
      apply hexact.append_new
      obtain ⟨last, hlast⟩ : ∃ last, occurrences.getLast? = some last := by
        cases hget : occurrences.getLast? with
        | none =>
          rw [hget, hid] at hcurrent
          cases hcurrent
        | some last => exact ⟨last, rfl⟩
      obtain ⟨front, rfl⟩ := List.getLast?_eq_some_iff.1 hlast
      rw [hcurrent, hlast, Option.map_some, Option.some.injEq] at hother
      have hle : ∀ a ∈ front ++ [last],
          (compare (interner.termOf a) (interner.termOf occurrence)).isLE := fun a ha =>
        (List.pairwise_append.1 hsorted).2.2 a ha _ (List.mem_singleton_self _)
      -- Two identifiers that are known have terms that differ.
      have hne : interner.termOf last ≠ interner.termOf occurrence := fun heq =>
        hother (hsound.term_injective (hknows _ (by simp)) (hknows _ (by simp)) heq).symm
      have hlastLt : compare (interner.termOf last) (interner.termOf occurrence) = .lt := by
        have hlast := hle last (by simp)
        cases hcompare : compare (interner.termOf last) (interner.termOf occurrence) with
        | lt => rfl
        | eq => exact absurd (LawfulEqOrd.eq_of_compare hcompare) hne
        | gt =>
          rw [hcompare] at hlast
          cases hlast
      intro a ha
      rcases List.mem_append.1 ha with ha | ha
      · have hbefore := (List.pairwise_append.1 (List.pairwise_append.1 hsorted).1).2.2 a ha last
          (List.mem_singleton_self _)
        exact TransCmp.lt_of_isLE_of_lt hbefore hlastLt
      · rw [List.mem_singleton.1 ha]
        exact hlastLt
    next hid =>
      refine ⟨?_, hlast, nofun⟩
      have hnil : occurrences = [] := by
        rw [hid] at hcurrent
        simpa using hcurrent
      subst hnil
      rw [EntryBuilder.finish, hid] at hexact
      rw [hempty hid]
      exact hexact.append_new nofun

/-- The loop over sorted occurrences. -/
theorem EntryBuilder.follows_foldl (hsound : interner.Sound)
    (hknows : ∀ a ∈ occurrences, interner.Knows (termId a))
    (hsorted : occurrences.Pairwise fun a b =>
      (compare (interner.termOf a) (interner.termOf b)).isLE) :
    (occurrences.foldl (EntryBuilder.push interner addTo) ⟨[], none, .empty⟩).Follows interner addTo
      occurrences := by
  induction occurrences using List.reverseRecOn with
  | nil => exact ⟨⟨.nil, by simp [EntryBuilder.finish], rfl⟩, rfl, fun _ => rfl⟩
  | append_singleton occurrences occurrence ih =>
    have hfollows := ih (fun a ha => hknows a (List.mem_append_left _ ha))
      (List.pairwise_append.1 hsorted).1
    rw [List.foldl_append, List.foldl_cons, List.foldl_nil]
    exact hfollows.push hsound hknows hsorted

/-- The entries are exact. -/
theorem buildEntries_exact (hsound : interner.Sound)
    (hknows : ∀ a ∈ occurrences, interner.Knows (termId a)) :
    EntriesExact interner addTo occurrences (buildEntries interner addTo occurrences) := by
  have hstable := radixSortOccurrences_stable interner occurrences
  have hexact : EntriesExact interner addTo (radixSortOccurrences interner occurrences)
      (buildEntries interner addTo occurrences) :=
    (EntryBuilder.follows_foldl hsound (fun a ha => hknows a (hstable.perm.mem_iff.1 ha))
      hstable.pairwise).exact
  obtain ⟨hascending, hmem, hentries⟩ := hexact
  refine ⟨hascending, fun term => ?_, ?_⟩
  · rw [hmem]
    simp only [hstable.perm.mem_iff]
  · rw [entriesOf] at hentries ⊢
    simpa only [hstable.filter_eq] using hentries

end entries

end KevinDb
