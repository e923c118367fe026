import Mathlib

namespace KevinDb
set_option autoImplicit true

/-- What an operation on integers of a machine type with the given bounds comes to. There is no
value if it overflows: a build panics there or wraps around. -/
def inBounds (low high value : Int) : Option Int :=
  if low ≤ value ∧ value ≤ high then some value else none

/-- The sum of machine integers, from left to right. -/
def boundedSum (low high : Int) (values : List Int) : Option Int :=
  values.foldlM (fun sum value => inBounds low high (sum + value)) 0

variable {low high value : Int} {values : List Int}

theorem inBounds_eq_some {result : Int} : inBounds low high value = some result ↔
    (low ≤ value ∧ value ≤ high) ∧ value = result := by
  rw [inBounds, Option.ite_none_right_eq_some, Option.some.injEq]

theorem inBounds_of_mem (h : low ≤ value ∧ value ≤ high) : inBounds low high value = some value :=
  if_pos h

theorem foldlM_inBounds (hvalues : ∀ value ∈ values, 0 ≤ value) {sum : Int} (hlow : low ≤ sum)
    (hhigh : sum ≤ high) :
    values.foldlM (fun sum value => inBounds low high (sum + value)) sum =
      if sum + values.sum ≤ high then some (sum + values.sum) else none := by
  induction values generalizing sum with
  | nil => simp [hhigh]
  | cons value values ih =>
    obtain ⟨hvalue, hvalues⟩ := List.forall_mem_cons.1 hvalues
    have hsum : 0 ≤ values.sum := List.sum_nonneg hvalues
    rw [List.foldlM_cons, List.sum_cons, ← Int.add_assoc]
    by_cases hnext : sum + value ≤ high
    · rw [inBounds_of_mem ⟨by omega, hnext⟩]
      exact ih hvalues (by omega) hnext
    · have hover : ¬ sum + value + values.sum ≤ high := by omega
      rw [inBounds, if_neg (fun h => hnext h.2), if_neg hover]
      rfl

/-- A sum of values that are not negative overflows exactly if the whole sum does. -/
theorem boundedSum_of_nonneg (hvalues : ∀ value ∈ values, 0 ≤ value) (hlow : low ≤ 0)
    (hhigh : 0 ≤ high) :
    boundedSum low high values = if values.sum ≤ high then some values.sum else none := by
  rw [boundedSum, foldlM_inBounds hvalues hlow hhigh, Int.zero_add]

/-- The bucket of a time holds it. -/
theorem bucket_contains (time : Int) {size : Int} (hsize : 0 < size) :
    time / size * size ≤ time ∧ time - time / size * size < size := by
  have hsplit := Int.ediv_mul_add_emod time size
  have hrest := Int.emod_nonneg time hsize.ne'
  have hless := Int.emod_lt_of_pos time hsize
  omega

end KevinDb
