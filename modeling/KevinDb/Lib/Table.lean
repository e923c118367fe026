import Mathlib

namespace KevinDb
set_option autoImplicit true
open Std

/-- A table with a primary key. The rows are kept in the order of the key. -/
abbrev Table (κ ρ : Type) [Ord κ] := TreeMap κ ρ

namespace Table

variable {κ ρ : Type} [Ord κ] [TransOrd κ] [LawfulEqOrd κ]

theorem get_insert [DecidableEq κ] (t : Table κ ρ) (k a : κ) (v : ρ) :
    (t.insert k v)[a]? = if k = a then some v else t[a]? := by
  simp only [TreeMap.getElem?_insert, LawfulEqCmp.compare_eq_iff_eq]

theorem get_modify [DecidableEq κ] (t : Table κ ρ) (k a : κ) (f : ρ → ρ) :
    (t.modify k f)[a]? = if k = a then t[a]?.map f else t[a]? := by
  rw [TreeMap.getElem?_modify]
  by_cases h : k = a
  · subst a
    simp
  · simp [LawfulEqCmp.compare_eq_iff_eq, h]

theorem get_erase [DecidableEq κ] (t : Table κ ρ) (k a : κ) :
    (t.erase k)[a]? = if k = a then none else t[a]? := by
  simp only [TreeMap.getElem?_erase, LawfulEqCmp.compare_eq_iff_eq]

/-- `INSERT … ON CONFLICT (key) DO UPDATE … WHERE wins old`. The flag tells whether a row
was written. -/
def upsert (t : Table κ ρ) (k : κ) (row : ρ) (wins : ρ → Bool) : Table κ ρ × Bool :=
  match t[k]? with
  | none => (t.insert k row, true)
  | some old => if wins old then (t.insert k row, true) else (t, false)

/-- The row an upsert leaves under its own key. -/
def upserted (old : Option ρ) (row : ρ) (wins : ρ → Bool) : ρ :=
  match old with
  | none => row
  | some old => if wins old then row else old

theorem get_upsert [DecidableEq κ] (t : Table κ ρ) (k a : κ) (row : ρ) (wins : ρ → Bool) :
    (t.upsert k row wins).1[a]? = if k = a then some (upserted t[k]? row wins) else t[a]? := by
  unfold upsert
  split
  next h => simp [get_insert, h, upserted]
  next old h =>
    split
    next hw => simp [get_insert, h, upserted, hw]
    next hw =>
      split
      next he => simp [← he, h, upserted, hw]
      next => rfl

omit [TransOrd κ] [LawfulEqOrd κ] in
theorem upsert_of_not_updated {t : Table κ ρ} {k : κ} {row : ρ} {wins : ρ → Bool}
    (h : (t.upsert k row wins).2 = false) : (t.upsert k row wins).1 = t := by
  unfold upsert at h ⊢
  split
  next hk =>
    rw [hk] at h
    cases h
  next old hk =>
    rw [hk] at h
    dsimp only at h
    split
    next hw =>
      rw [if_pos hw] at h
      cases h
    next => rfl

/-- Apply the same change to a list of rows, one key after another. -/
theorem get_foldl_modify [DecidableEq κ] (t : Table κ ρ) (ks : List β) (key : β → κ)
    (f : β → ρ → ρ) (g : ρ → γ) (hg : ∀ b r, g (f b r) = g r) (a : κ) :
    (ks.foldl (fun t b => t.modify (key b) (f b)) t)[a]?.map g = t[a]?.map g := by
  induction ks generalizing t with
  | nil => rfl
  | cons b ks ih =>
    rw [List.foldl_cons, ih, get_modify]
    split
    · rw [Option.map_map]
      congr 1
      funext r
      exact hg b r
    · rfl

/-- A table filled under distinct keys holds what was put under each, and the old rows under the
other keys. -/
theorem get_foldl_insert_onto [DecidableEq κ] (t : Table κ ρ) (rows : List β) (key : β → κ)
    (value : β → ρ) (hrows : (rows.map key).Nodup) (k : κ) (v : ρ) :
    (rows.foldl (fun t row => t.insert (key row) (value row)) t)[k]? = some v ↔
      (∃ row ∈ rows, key row = k ∧ value row = v) ∨
        k ∉ rows.map key ∧ t[k]? = some v := by
  induction rows using List.reverseRecOn with
  | nil => simp
  | append_singleton rows row ih =>
    rw [List.map_append, List.nodup_append] at hrows
    obtain ⟨hrows, -, hlast⟩ := hrows
    rw [List.foldl_append, List.foldl_cons, List.foldl_nil, get_insert]
    simp only [List.mem_append, List.mem_singleton, or_and_right, exists_or, exists_eq_left,
      List.map_append, List.map_cons, List.map_nil, not_or]
    split
    next hk =>
      subst hk
      have hnone : ¬ ∃ other ∈ rows, key other = key row ∧ value other = v := by
        rintro ⟨other, hother, hsame, -⟩
        exact hlast _ (List.mem_map_of_mem hother) _ (List.mem_singleton_self _) hsame
      simp [hnone]
    next hk => simp [hk, Ne.symm hk, ih hrows]

/-- Rows are erased under the keys of a list. -/
theorem get_foldl_erase [DecidableEq κ] (t : Table κ ρ) (keys : List κ) (k : κ) :
    (keys.foldl (fun t k => t.erase k) t)[k]? = if k ∈ keys then none else t[k]? := by
  induction keys generalizing t with
  | nil => simp
  | cons key keys ih =>
    rw [List.foldl_cons, ih, get_erase]
    by_cases hkeys : k ∈ keys
    · rw [if_pos hkeys, if_pos (List.mem_cons_of_mem _ hkeys)]
    · rw [if_neg hkeys]
      simp only [List.mem_cons, hkeys, or_false, eq_comm]

theorem get_foldl_insert [DecidableEq κ] (rows : List β) (key : β → κ) (value : β → ρ)
    (hrows : (rows.map key).Nodup) (k : κ) (v : ρ) :
    (rows.foldl (fun t row => t.insert (key row) (value row)) (∅ : Table κ ρ))[k]? = some v ↔
      ∃ row ∈ rows, key row = k ∧ value row = v := by
  rw [get_foldl_insert_onto ∅ rows key value hrows]
  simp

/-- Upserts under distinct keys put in every row. -/
theorem get_foldl_upsert [DecidableEq κ] (rows : List ρ) (key : ρ → κ) (wins : ρ → ρ → Bool)
    (hrows : (rows.map key).Nodup) (k : κ) (v : ρ) :
    (rows.foldl (fun t row => (t.upsert (key row) row (wins row)).1) (∅ : Table κ ρ))[k]? = some v ↔
      v ∈ rows ∧ key v = k := by
  induction rows using List.reverseRecOn generalizing k v with
  | nil => simp
  | append_singleton rows row ih =>
    rw [List.map_append, List.nodup_append] at hrows
    obtain ⟨hrows, -, hlast⟩ := hrows
    have ih := ih hrows
    have hne : ∀ other ∈ rows, key other ≠ key row := fun other hother =>
      hlast _ (List.mem_map_of_mem hother) _ (List.mem_singleton_self _)
    rw [List.foldl_append, List.foldl_cons, List.foldl_nil]
    generalize rows.foldl _ (∅ : Table κ ρ) = t at ih ⊢
    have hnone : t[key row]? = none := by
      rw [Option.eq_none_iff_forall_ne_some]
      intro other hother
      obtain ⟨hmem, hkey⟩ := (ih _ _).1 hother
      exact hne other hmem hkey
    rw [get_upsert, hnone, List.mem_append, List.mem_singleton]
    split
    next hk =>
      subst hk
      rw [upserted, Option.some.injEq]
      constructor
      · rintro rfl
        exact ⟨.inr rfl, rfl⟩
      · rintro ⟨hv | rfl, hkey⟩
        · exact absurd hkey (hne v hv)
        · rfl
    next hk =>
      rw [ih]
      constructor
      · rintro ⟨hv, hkey⟩
        exact ⟨.inl hv, hkey⟩
      · rintro ⟨hv | rfl, hkey⟩
        · exact ⟨hv, hkey⟩
        · exact absurd hkey hk

/-- Lists with the same members under ascending keys are equal. -/
theorem ordered_eq {rows rows' : List ρ} (key : ρ → κ)
    (hrows : rows.Pairwise fun a b => compare (key a) (key b) = .lt)
    (hrows' : rows'.Pairwise fun a b => compare (key a) (key b) = .lt)
    (hmem : ∀ row, row ∈ rows ↔ row ∈ rows') : rows = rows' := by
  have hanti : Std.Antisymm fun a b : ρ => compare (key a) (key b) = .lt := by
    constructor
    intro a b hab hba
    rw [OrientedCmp.gt_of_lt hab] at hba
    cases hba
  have hirrefl : Std.Irrefl fun a b : ρ => compare (key a) (key b) = .lt := by
    constructor
    intro a ha
    have heq : compare (key a) (key a) = .eq := ReflCmp.compare_self
    rw [heq] at ha
    cases ha
  exact hrows.eq_of_mem_iff hrows' fun {row} => hmem row

/-- The list of a table is the only ordered list of its rows. -/
theorem toList_eq {t : Table κ ρ} {rows : List (κ × ρ)}
    (hrows : rows.Pairwise fun a b => compare a.1 b.1 = .lt)
    (hmem : ∀ k v, (k, v) ∈ rows ↔ t[k]? = some v) : t.toList = rows := by
  refine ordered_eq Prod.fst TreeMap.ordered_keys_toList hrows ?_
  rintro ⟨k, v⟩
  rw [TreeMap.mem_toList_iff_getElem?_eq_some, hmem]

/-- Tables with the same entries of a kind list them alike. -/
theorem filter_toList_congr {t t' : Table κ ρ} (f : κ × ρ → Bool)
    (h : ∀ k v, f (k, v) → (t[k]? = some v ↔ t'[k]? = some v)) :
    t.toList.filter f = t'.toList.filter f := by
  refine ordered_eq Prod.fst (TreeMap.ordered_keys_toList.filter _)
    (TreeMap.ordered_keys_toList.filter _) ?_
  rintro ⟨k, v⟩
  simp only [List.mem_filter, TreeMap.mem_toList_iff_getElem?_eq_some]
  exact and_congr_left (h k v)

/-- Upserts under ascending keys keep every row. -/
theorem toList_foldl_upsert [DecidableEq κ] (rows : List ρ) (key : ρ → κ) (wins : ρ → ρ → Bool)
    (hrows : rows.Pairwise fun a b => compare (key a) (key b) = .lt) :
    (rows.foldl (fun t row => (t.upsert (key row) row (wins row)).1) (∅ : Table κ ρ)).toList =
      rows.map fun row => (key row, row) := by
  induction rows using List.reverseRecOn with
  | nil => rfl
  | append_singleton rows row ih =>
    rw [List.pairwise_append] at hrows
    obtain ⟨hrows, -, hlast⟩ := hrows
    have ih := ih hrows
    rw [List.foldl_append, List.foldl_cons, List.foldl_nil]
    generalize rows.foldl _ (∅ : Table κ ρ) = t at ih ⊢
    have hget : ∀ k v, t[k]? = some v ↔ v ∈ rows ∧ key v = k := by
      intro k v
      rw [← TreeMap.mem_toList_iff_getElem?_eq_some, ih]
      simp only [List.mem_map, Prod.mk.injEq]
      constructor
      · rintro ⟨_, hv, hk, rfl⟩
        exact ⟨hv, hk⟩
      · rintro ⟨hv, hk⟩
        exact ⟨v, hv, hk, rfl⟩
    have hne : ∀ v ∈ rows, key v ≠ key row := by
      intro v hv he
      have hlt := hlast v hv row (List.mem_singleton_self row)
      have heq : compare (key row) (key row) = .eq := ReflCmp.compare_self
      rw [he, heq] at hlt
      cases hlt
    have hnone : t[key row]? = none := by
      rw [Option.eq_none_iff_forall_ne_some]
      intro v hv
      rw [hget] at hv
      exact hne v hv.1 hv.2
    refine toList_eq ?_ ?_
    · rw [List.map_append, List.pairwise_append]
      refine ⟨List.pairwise_map.2 hrows, List.pairwise_singleton _ _, ?_⟩
      intro a ha b hb
      obtain ⟨v, hv, rfl⟩ := List.mem_map.1 ha
      obtain ⟨u, hu, rfl⟩ := List.mem_map.1 hb
      exact hlast v hv u hu
    · intro k v
      rw [get_upsert, hnone, upserted]
      split
      next hk =>
        subst hk
        simp only [List.map_append, List.mem_append, List.mem_map, Prod.mk.injEq,
          Option.some.injEq, List.map_cons, List.map_nil, List.mem_singleton, true_and]
        constructor
        · rintro (⟨u, hu, he, -⟩ | rfl)
          · exact absurd he (hne u hu)
          · rfl
        · rintro rfl
          exact .inr rfl
      next hk =>
        rw [hget]
        simp only [List.map_append, List.mem_append, List.mem_map, Prod.mk.injEq,
          List.map_cons, List.map_nil, List.mem_singleton]
        constructor
        · rintro (⟨u, hu, he, rfl⟩ | ⟨rfl, rfl⟩)
          · exact ⟨hu, he⟩
          · exact absurd rfl hk
        · rintro ⟨hv, he⟩
          exact .inl ⟨v, hv, he, rfl⟩

end Table

end KevinDb
