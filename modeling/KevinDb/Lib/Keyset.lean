import Mathlib.Data.List.Sort
import Mathlib.Tactic.Common

namespace KevinDb
set_option autoImplicit true
open Std

/-- A page out of the rows for it, of which one more than its limit is asked for: the rows up to the
limit, and the cursor of the last of them if there is another. -/
def cutPage (cursorOf : α → Option γ) (limit : Nat) (rows : List α) : List α × Option γ :=
  if limit < rows.length then (rows.take limit, (rows.take limit).getLast?.bind cursorOf)
  else (rows, none)

/-- The pages from a cursor on, each read at the cursor of the one before, up to one without. -/
inductive Walk (page : Option γ → Except ε (List α × Option γ)) :
    Option γ → List (List α) → Prop
  | last (h : page cursor = .ok (items, none)) : Walk page cursor [items]
  | more (h : page cursor = .ok (items, some next)) (hrest : Walk page (some next) pages) :
      Walk page cursor (items :: pages)

/-- Some rows in the order of a comparison. -/
def ordered (cmp : α → α → Ordering) (rows : List α) : List α :=
  rows.insertionSort fun a b => (cmp a b).isLE

/-- Following the cursors from the first page on ends in one way, and shows each row once and in
order. -/
def Enumerates (page : Option γ → Except ε (List α × Option γ)) (cmp : α → α → Ordering)
    (rows : List α) : Prop :=
  ∃ pages, (∀ pages', Walk page none pages' ↔ pages' = pages) ∧ pages.flatten.Perm rows ∧
    pages.flatten.Pairwise fun a b => cmp a b = .lt

section keyset

variable {cmp : α → α → Ordering} {rows : List α} {cursorOf : α → Option γ} {limit : Nat}
  {page : Option γ → Except ε (List α × Option γ)} {pages pages' : List (List α)}

/-- There is one way to follow the cursors. -/
theorem Walk.unique (h : Walk page cursor pages) (h' : Walk page cursor pages') : pages = pages' := by
  induction h generalizing pages' with
  | last h =>
    cases h' with
    | last h' =>
      rw [h] at h'
      cases h'
      rfl
    | more h' _ =>
      rw [h] at h'
      cases h'
  | more h _ ih =>
    cases h' with
    | last h' =>
      rw [h] at h'
      cases h'
    | more h' hrest' =>
      rw [h] at h'
      cases h'
      rw [ih hrest']

theorem ordered_perm (cmp : α → α → Ordering) (rows : List α) : (ordered cmp rows).Perm rows :=
  List.perm_insertionSort _ rows

variable [TransCmp cmp]

/-- Rows that differ in their keys come in strict order. -/
theorem ordered_pairwise (hrows : rows.Pairwise fun a b => cmp a b ≠ .eq) :
    (ordered cmp rows).Pairwise fun a b => cmp a b = .lt := by
  have : Std.Total fun a b : α => ((cmp a b).isLE : Prop) := ⟨fun a b => by
    have hswap : (cmp a b).isGE ↔ (cmp b a).isLE := OrientedCmp.isGE_iff_isLE
    rw [← hswap]
    cases cmp a b <;> simp⟩
  have : IsTrans α fun a b : α => ((cmp a b).isLE : Prop) := ⟨fun _ _ _ => TransCmp.isLE_trans⟩
  have hsorted : (ordered cmp rows).Pairwise fun a b => ((cmp a b).isLE : Prop) :=
    List.pairwise_insertionSort _ rows
  have hne : (ordered cmp rows).Pairwise fun a b => cmp a b ≠ .eq := by
    apply ((ordered_perm cmp rows).pairwise_iff ?_).2 hrows
    intro a b hab heq
    exact hab (OrientedCmp.eq_symm heq)
  apply (hsorted.and hne).imp
  rintro a b ⟨hle, hne⟩
  cases hcmp : cmp a b with
  | lt => rfl
  | eq => exact absurd hcmp hne
  | gt =>
    rw [hcmp] at hle
    cases hle

/-- Rows come in the same order when some are left out. -/
theorem ordered_filter (hrows : rows.Pairwise fun a b => cmp a b ≠ .eq) (p : α → Bool) :
    ordered cmp (rows.filter p) = (ordered cmp rows).filter p := by
  have hantisymm : ∀ a b, a ∈ ordered cmp (rows.filter p) → b ∈ (ordered cmp rows).filter p →
      cmp a b = .lt → cmp b a = .lt → a = b := by
    intro a b _ _ hab hba
    rw [OrientedCmp.gt_of_lt hab] at hba
    cases hba
  apply List.Perm.eq_of_pairwise hantisymm (ordered_pairwise (hrows.filter p))
    ((ordered_pairwise hrows).filter p)
  exact (ordered_perm cmp _).trans ((ordered_perm cmp rows).symm.filter p)

/-- What comes after a row of a list in strict order is the rest of the list. -/
theorem filter_after {front rest : List α} {a : α}
    (hrows : (front ++ a :: rest).Pairwise fun a b => cmp a b = .lt) :
    ((front ++ a :: rest).filter fun b => cmp a b = .lt) = rest := by
  obtain ⟨-, hback, hfront⟩ := List.pairwise_append.1 hrows
  rw [List.filter_append, List.filter_cons, if_neg (by simp [ReflCmp.compare_self])]
  have hnone : front.filter (fun b => cmp a b = .lt) = [] := by
    rw [List.filter_eq_nil_iff]
    intro b hb hlt
    have hba := hfront b hb a List.mem_cons_self
    rw [OrientedCmp.gt_of_lt hba] at hlt
    simp at hlt
  rw [hnone, List.nil_append, List.filter_eq_self]
  intro b hb
  exact decide_eq_true ((List.pairwise_cons.1 hback).1 b hb)

/-- Pages that show what comes after the last row of the page before them show the rest. -/
theorem exists_walk (hlimit : 0 < limit) {front back : List α}
    (hsorted : (front ++ back).Pairwise fun a b => cmp a b = .lt)
    (hafter : ∀ a ∈ front ++ back, ∃ next, cursorOf a = some next ∧ page (some next) =
      .ok (cutPage cursorOf limit
        (((front ++ back).filter fun b => cmp a b = .lt).take (limit + 1))))
    (hpage : page cursor = .ok (cutPage cursorOf limit (back.take (limit + 1)))) :
    ∃ pages, Walk page cursor pages ∧ pages.flatten = back := by
  by_cases hmore : limit < back.length
  · obtain ⟨items, a, hitems⟩ : ∃ items a, back.take limit = items ++ [a] := by
      have hne : back.take limit ≠ [] := by
        apply List.ne_nil_of_length_pos
        rw [List.length_take]
        omega
      exact ⟨_, _, (List.dropLast_append_getLast hne).symm⟩
    have hback : back = items ++ a :: back.drop limit := by
      have hsplit := (List.take_append_drop limit back).symm
      rwa [hitems, List.append_assoc, List.singleton_append] at hsplit
    have hrows : front ++ back = (front ++ items) ++ a :: back.drop limit := by
      rw [List.append_assoc, ← hback]
    obtain ⟨next, hnext, hrest⟩ := hafter a (by simp [hrows])
    rw [hrows] at hsorted hafter
    rw [hrows, filter_after hsorted] at hrest
    have hrows' : (front ++ items) ++ a :: back.drop limit =
        (front ++ items ++ [a]) ++ back.drop limit := by
      rw [List.append_assoc (front ++ items), List.singleton_append]
    rw [hrows'] at hsorted hafter
    obtain ⟨pages, hwalk, hpages⟩ := exists_walk hlimit hsorted hafter hrest
    refine ⟨back.take limit :: pages, .more ?_ hwalk, ?_⟩
    · rw [hpage, cutPage, if_pos (by rw [List.length_take]; omega), List.take_take,
        Nat.min_eq_left (Nat.le_succ limit), hitems, List.getLast?_concat, Option.bind_some, hnext]
    · rw [List.flatten_cons, hpages, List.take_append_drop]
  · refine ⟨[back], .last ?_, List.flatten_singleton⟩
    rw [hpage, List.take_of_length_le (by omega), cutPage, if_neg hmore]
termination_by back.length
decreasing_by
  rw [List.length_drop]
  omega

/-- A listing whose pages are cut from its rows in order, the first from all and those at the cursor
of a row from what comes after it, enumerates its rows. -/
theorem enumerates_of_keyset (hlimit : 0 < limit) (hrows : rows.Pairwise fun a b => cmp a b ≠ .eq)
    (hfirst : page none = .ok (cutPage cursorOf limit ((ordered cmp rows).take (limit + 1))))
    (hafter : ∀ a ∈ rows, ∃ next, cursorOf a = some next ∧ page (some next) = .ok
      (cutPage cursorOf limit
        ((ordered cmp (rows.filter fun b => cmp a b = .lt)).take (limit + 1)))) :
    Enumerates page cmp rows := by
  have hsorted : (([] : List α) ++ ordered cmp rows).Pairwise fun a b => cmp a b = .lt :=
    ordered_pairwise hrows
  obtain ⟨pages, hwalk, hpages⟩ := exists_walk hlimit hsorted
    (fun a ha => by
      obtain ⟨next, hnext, hpage⟩ := hafter a ((ordered_perm cmp rows).mem_iff.1 ha)
      rw [ordered_filter hrows] at hpage
      exact ⟨next, hnext, hpage⟩) hfirst
  refine ⟨pages, fun pages' => ?_, ?_, ?_⟩
  · constructor
    · exact fun hwalk' => hwalk'.unique hwalk
    · rintro rfl
      exact hwalk
  · rw [hpages]
    exact ordered_perm cmp rows
  · rwa [hpages]

end keyset

end KevinDb
