import Mathlib

namespace KevinDb
set_option autoImplicit true

def average (values : List ℚ) : Option ℚ :=
  if values = [] then none else some (values.sum / values.length)

/-- The nearest-rank percentile of sorted values. -/
def percentile (sorted : List ℚ) (p : Nat) : Option ℚ :=
  sorted[min (((sorted.length - 1) * p + 99) / 100) (sorted.length - 1)]?

def ascending (values : List ℚ) : List ℚ := values.insertionSort (· ≤ ·)

/-- The sum of some values. There is none of no values. -/
def total [Zero α] [Add α] (values : List α) : Option α :=
  if values.isEmpty then none else some values.sum

def rationals (values : List Int) : List ℚ := values.map Int.cast

theorem ascending_perm_eq {values values' : List ℚ} (h : values.Perm values') :
    ascending values = ascending values' := by
  apply List.Perm.eq_of_pairwise' (List.pairwise_insertionSort _ _) (List.pairwise_insertionSort _ _)
  exact ((List.perm_insertionSort _ _).trans h).trans (List.perm_insertionSort _ _).symm

theorem ascending_perm (values : List ℚ) : (ascending values).Perm values :=
  List.perm_insertionSort _ _

theorem rationals_insertionSort (values : List Int) :
    rationals (values.insertionSort (· ≤ ·)) = ascending (rationals values) := by
  apply List.map_insertionSort
  intro a _ b _
  exact Int.cast_le.symm

theorem average_perm {values values' : List ℚ} (h : values.Perm values') :
    average values = average values' := by
  have hnil : values = [] ↔ values' = [] := by
    rw [← List.length_eq_zero_iff, ← List.length_eq_zero_iff, h.length_eq]
  rw [average, average, h.sum_eq, h.length_eq]
  simp only [hnil]

theorem total_perm [AddCommMonoid α] {values values' : List α} (h : values.Perm values') :
    total values = total values' := by
  rw [total, total, h.isEmpty_eq, h.sum_eq]

theorem total_rationals (values : List Int) :
    (total values).map Int.cast = total (rationals values) := by
  cases values with
  | nil => rfl
  | cons value values => simp [total, rationals]

end KevinDb
