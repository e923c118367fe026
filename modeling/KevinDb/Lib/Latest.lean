import Mathlib.Data.List.Induction
import Mathlib.Data.List.Sort
import Mathlib.Data.Prod.Lex

namespace KevinDb
set_option autoImplicit true

/-- An entry of a log that no entry of the log outranks. -/
def IsLatest [LE ρ] (rank : α → ρ) (log : List α) (a : α) : Prop :=
  a ∈ log ∧ ∀ b ∈ log, rank b ≤ rank a

namespace IsLatest

variable [LinearOrder ρ] {rank : α → ρ} {log : List α} {a b : α}

theorem singleton (rank : α → ρ) (a : α) : IsLatest rank [a] a := by
  refine ⟨List.mem_singleton_self a, ?_⟩
  intro b hb
  rw [List.mem_singleton] at hb
  rw [hb]

theorem append_of_lt (h : IsLatest rank log a) (hb : rank b < rank a) :
    IsLatest rank (log ++ [b]) a := by
  refine ⟨List.mem_append_left _ h.1, ?_⟩
  intro c hc
  rcases List.mem_append.1 hc with hc | hc
  · exact h.2 c hc
  · rw [List.mem_singleton.1 hc]
    exact hb.le

theorem append_of_le (h : IsLatest rank log a) (hb : rank a ≤ rank b) :
    IsLatest rank (log ++ [b]) b := by
  refine ⟨List.mem_append_right _ (List.mem_singleton_self b), ?_⟩
  intro c hc
  rcases List.mem_append.1 hc with hc | hc
  · exact (h.2 c hc).trans hb
  · rw [List.mem_singleton.1 hc]

theorem unique (h : IsLatest rank log a) (h' : IsLatest rank log b)
    (hinj : ∀ c ∈ log, ∀ d ∈ log, rank c = rank d → c = d) : a = b :=
  hinj a h.1 b h'.1 (le_antisymm (h'.2 a h.1) (h.2 b h'.1))

theorem getLast_insertionSort (hne : log.insertionSort (fun c d => rank c ≤ rank d) ≠ []) :
    IsLatest rank log ((log.insertionSort fun c d => rank c ≤ rank d).getLast hne) := by
  have hmem := fun c => List.mem_insertionSort (fun c d => rank c ≤ rank d) (l := log) (x := c)
  refine ⟨(hmem _).1 (List.getLast_mem hne), ?_⟩
  intro c hc
  have hsorted := List.pairwise_insertionSort (fun c d => rank c ≤ rank d) log
  rw [← List.dropLast_append_getLast hne, List.pairwise_append] at hsorted
  rw [← hmem, ← List.dropLast_append_getLast hne, List.mem_append, List.mem_singleton] at hc
  rcases hc with hc | hc
  · exact hsorted.2.2 c hc _ (List.mem_singleton_self _)
  · exact hc ▸ le_rfl

/-- Sorting by rank puts the latest entry last. -/
theorem getLast?_insertionSort (h : IsLatest rank log a)
    (hinj : ∀ c ∈ log, ∀ d ∈ log, rank c = rank d → c = d) :
    (log.insertionSort fun c d => rank c ≤ rank d).getLast? = some a := by
  have hne : log.insertionSort (fun c d => rank c ≤ rank d) ≠ [] := by
    apply List.ne_nil_of_mem (a := a)
    exact (List.mem_insertionSort _).2 h.1
  rw [List.getLast?_eq_some_getLast hne, (getLast_insertionSort hne).unique h hinj]

end IsLatest

/-- A fold that forgets its accumulator keeps what the last entry gives. -/
theorem foldl_forget (f : α → β) (init : β) (log : List α) :
    log.foldl (fun _ a => f a) init = (log.getLast?.map f).getD init := by
  induction log using List.reverseRecOn with
  | nil => rfl
  | append_singleton log a ih => simp

end KevinDb
