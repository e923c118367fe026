import Mathlib.Data.Set.Lattice
import Mathlib.Order.CompletePartialOrder

namespace KevinDb
set_option autoImplicit true

/-- A store that is swept while it is written to: the names that were ever given out, those that
someone counts on, those of them that are written, those stored, and those that a sweep is going
to remove. -/
structure Sweep (ν : Type) where
  used : Set ν
  claimed : Set ν
  written : Set ν
  stored : Set ν
  doomed : Set ν

namespace Sweep

/-- What can happen to the store. A sweep dooms stored names that nobody counts on. -/
inductive Step (s : Sweep ν) : Sweep ν → Prop
  | claim (names used claimed written : Set ν) (hused : used = names ∪ s.used)
      (hfresh : Disjoint names s.used) (hclaimed : claimed ⊆ names ∪ s.claimed)
      (hwritten : written ⊆ s.written) (hsub : written ⊆ claimed) :
      Step s { s with used, claimed, written }
  | put (name : ν) (claimed written stored : Set ν) (hstored : stored = insert name s.stored)
      (hname : name ∈ s.claimed) (hclaimed : claimed ⊆ s.claimed)
      (hwritten : written ⊆ insert name s.written) (hsub : written ⊆ claimed) :
      Step s { s with claimed, written, stored }
  | release (claimed written : Set ν) (hclaimed : claimed ⊆ s.claimed)
      (hwritten : written ⊆ s.written) (hsub : written ⊆ claimed) :
      Step s { s with claimed, written }
  | doom (names doomed : Set ν) (hstored : names ⊆ s.stored) (hfree : Disjoint names s.claimed)
      (hdoomed : doomed ⊆ names ∪ s.doomed) :
      Step s { s with doomed }
  | remove (name : ν) (stored doomed : Set ν) (hstored : stored = s.stored \ {name})
      (hname : name ∈ s.doomed) (hdoomed : doomed ⊆ s.doomed) :
      Step s { s with stored, doomed }

/-- What is written is stored, and what is doomed is counted on by nobody. -/
structure Safe (s : Sweep ν) : Prop where
  written_stored : s.written ⊆ s.stored
  written_claimed : s.written ⊆ s.claimed
  claimed_used : s.claimed ⊆ s.used
  stored_used : s.stored ⊆ s.used
  doomed_used : s.doomed ⊆ s.used
  doomed_free : Disjoint s.doomed s.claimed

theorem Safe.step {s t : Sweep ν} (hs : s.Safe) (h : s.Step t) : t.Safe := by
  cases h with
  | claim names used claimed written hused hfresh hclaimed hwritten hsub =>
    subst hused
    constructor
    · exact hwritten.trans hs.written_stored
    · exact hsub
    · exact hclaimed.trans (Set.union_subset_union_right names hs.claimed_used)
    · exact hs.stored_used.trans Set.subset_union_right
    · exact hs.doomed_used.trans Set.subset_union_right
    · apply Set.disjoint_of_subset_right hclaimed
      rw [Set.disjoint_union_right]
      exact ⟨(Set.disjoint_of_subset_right hs.doomed_used hfresh).symm, hs.doomed_free⟩
  | put name claimed written stored hstored hname hclaimed hwritten hsub =>
    subst hstored
    constructor
    · exact hwritten.trans (Set.insert_subset_insert hs.written_stored)
    · exact hsub
    · exact hclaimed.trans hs.claimed_used
    · exact Set.insert_subset (hs.claimed_used hname) hs.stored_used
    · exact hs.doomed_used
    · exact Set.disjoint_of_subset_right hclaimed hs.doomed_free
  | release claimed written hclaimed hwritten hsub =>
    constructor
    · exact hwritten.trans hs.written_stored
    · exact hsub
    · exact hclaimed.trans hs.claimed_used
    · exact hs.stored_used
    · exact hs.doomed_used
    · exact Set.disjoint_of_subset_right hclaimed hs.doomed_free
  | doom names doomed hstored hfree hdoomed =>
    constructor
    · exact hs.written_stored
    · exact hs.written_claimed
    · exact hs.claimed_used
    · exact hs.stored_used
    · exact hdoomed.trans (Set.union_subset (hstored.trans hs.stored_used) hs.doomed_used)
    · apply Set.disjoint_of_subset_left hdoomed
      rw [Set.disjoint_union_left]
      exact ⟨hfree, hs.doomed_free⟩
  | remove name stored doomed hstored hname hdoomed =>
    subst hstored
    constructor
    · apply Set.subset_sdiff_singleton hs.written_stored
      intro hmem
      exact Set.disjoint_left.1 hs.doomed_free hname (hs.written_claimed hmem)
    · exact hs.written_claimed
    · exact hs.claimed_used
    · exact Set.sdiff_subset.trans hs.stored_used
    · exact hdoomed.trans hs.doomed_used
    · exact Set.disjoint_of_subset_left hdoomed hs.doomed_free

end Sweep

end KevinDb
