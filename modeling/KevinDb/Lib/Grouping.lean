import KevinDb.Lib.Table

namespace KevinDb
set_option autoImplicit true
open Std

/-- Push every row into the entry of its key, which starts as `init`. -/
def groupFold {κ σ : Type} [Ord κ] (key : β → κ) (init : σ) (push : σ → β → σ) (rows : List β) :
    Table κ σ :=
  rows.foldl (fun groups row =>
    groups.insert (key row) (push (groups[key row]?.getD init) row)) ∅

section groupFold

variable {κ σ : Type} [Ord κ] [TransOrd κ] [LawfulEqOrd κ] [DecidableEq κ] {key : β → κ}
  {init : σ} {push : σ → β → σ} {rows : List β}

omit [TransOrd κ] [LawfulEqOrd κ] [DecidableEq κ] in
theorem groupFold_append_singleton (row : β) : groupFold key init push (rows ++ [row]) =
    (groupFold key init push rows).insert (key row)
      (push ((groupFold key init push rows)[key row]?.getD init) row) := by
  rw [groupFold, List.foldl_append]
  rfl

/-- An entry holds what the rows of its key have pushed. -/
theorem get_groupFold (k : κ) : (groupFold key init push rows)[k]? =
    if ∃ row ∈ rows, key row = k then some ((rows.filter fun row => key row = k).foldl push init)
    else none := by
  induction rows using List.reverseRecOn with
  | nil => simp [groupFold]
  | append_singleton rows row ih =>
    rw [groupFold_append_singleton, Table.get_insert, List.filter_append]
    by_cases hk : key row = k
    · subst hk
      rw [if_pos rfl, if_pos ⟨row, by simp⟩, ih]
      split
      · simp
      · next hnone =>
        have hempty : rows.filter (fun other => key other = key row) = [] := by
          rw [List.filter_eq_nil_iff]
          intro other hother he
          exact hnone ⟨other, hother, of_decide_eq_true he⟩
        simp [hempty]
    · simp [hk, ih, or_and_right, exists_or]

theorem get_groupFold_eq_some (k : κ) {s : σ} : (groupFold key init push rows)[k]? = some s ↔
    (∃ row ∈ rows, key row = k) ∧ (rows.filter fun row => key row = k).foldl push init = s := by
  rw [get_groupFold]
  split
  · next h => simp [h]
  · next h => simp [h]

end groupFold

theorem foldl_append_singleton (rows init : List β) :
    rows.foldl (fun group row => group ++ [row]) init = init ++ rows := by
  induction rows generalizing init with
  | nil => simp
  | cons row rows ih => rw [List.foldl_cons, ih, List.append_assoc]; rfl

/-- A weight on one of distinct keys is summed once. -/
theorem sum_map_ite_key {κ : Type} [DecidableEq κ] {entries : List (κ × β)}
    (hentries : (entries.map Prod.fst).Nodup) (k : κ) (n : Nat) :
    (entries.map fun entry => if entry.1 = k then n else 0).sum =
      if k ∈ entries.map Prod.fst then n else 0 := by
  induction entries with
  | nil => rfl
  | cons entry entries ih =>
    rw [List.map_cons, List.nodup_cons] at hentries
    rw [List.map_cons, List.sum_cons, ih hentries.2, List.map_cons]
    simp only [List.mem_cons]
    by_cases hk : entry.1 = k
    · subst hk
      simp [hentries.1]
    · have hk' : ¬ k = entry.1 := fun he => hk he.symm
      simp only [hk, hk', false_or, if_false, Nat.zero_add]

/-- The rows under their keys, each group in the order of the rows. -/
def groupRows {κ : Type} [Ord κ] {β : Type} (key : β → κ) (rows : List β) : Table κ (List β) :=
  groupFold key [] (fun group row => group ++ [row]) rows

section groupRows

variable {κ β : Type} [Ord κ] [TransOrd κ] [LawfulEqOrd κ] [DecidableEq κ] {key : β → κ}
  {rows : List β}

theorem get_groupRows_eq_some (k : κ) {group : List β} : (groupRows key rows)[k]? = some group ↔
    (∃ row ∈ rows, key row = k) ∧ (rows.filter fun row => key row = k) = group := by
  rw [groupRows, get_groupFold_eq_some, foldl_append_singleton, List.nil_append]

/-- The groups are a partition of the rows. -/
theorem flatMap_groupRows_perm [DecidableEq β] (key : β → κ) (rows : List β) :
    ((groupRows key rows).toList.flatMap Prod.snd).Perm rows := by
  rw [List.perm_iff_count]
  intro row
  have hcount : ∀ entry ∈ (groupRows key rows).toList,
      entry.2.count row = if entry.1 = key row then rows.count row else 0 := by
    rintro ⟨k, group⟩ hentry
    rw [TreeMap.mem_toList_iff_getElem?_eq_some, get_groupRows_eq_some] at hentry
    obtain ⟨-, rfl⟩ := hentry
    split
    · next hk =>
      rw [List.count_filter]
      simpa using hk.symm
    · next hk =>
      rw [List.count_eq_zero]
      intro hmem
      exact hk (of_decide_eq_true (List.mem_filter.1 hmem).2).symm
  rw [List.count_flatMap, show List.count row ∘ Prod.snd = fun entry : κ × List β =>
    entry.2.count row from rfl, List.map_congr_left hcount,
    sum_map_ite_key (TreeMap.map_fst_toList_eq_keys ▸ TreeMap.nodup_keys)]
  split
  · rfl
  · next hkey =>
    rw [eq_comm, List.count_eq_zero]
    intro hrow
    have hgroup : (groupRows key rows)[key row]? = some _ :=
      (get_groupRows_eq_some (key row)).2 ⟨⟨row, hrow, rfl⟩, rfl⟩
    exact hkey (List.mem_map_of_mem (TreeMap.mem_toList_iff_getElem?_eq_some.2 hgroup))

end groupRows

end KevinDb
