import KevinDb.Lib.Keyset

namespace KevinDb
set_option autoImplicit true
open Std

/-- A list in the order of keys, where elements with one key keep the order they had. -/
structure IsStableSort [Ord κ] [DecidableEq κ] (key : α → κ) (unsorted sorted : List α) : Prop where
  pairwise : sorted.Pairwise fun a b => (compare (key a) (key b)).isLE
  filter_eq : ∀ k, sorted.filter (fun a => key a = k) = unsorted.filter fun a => key a = k

section stability

variable [Ord κ] [DecidableEq κ] {key : α → κ} {unsorted sorted : List α}

theorem IsStableSort.perm (h : IsStableSort key unsorted sorted) : sorted.Perm unsorted := by
  classical
  rw [List.perm_iff_count]
  intro a
  have hcount := congrArg (List.count a) (h.filter_eq (key a))
  rwa [List.count_filter (by simp), List.count_filter (by simp)] at hcount

theorem IsStableSort.nil : IsStableSort key [] [] := ⟨.nil, fun _ => rfl⟩

/-- Inserting an element before those that are not less leaves the order of equal keys. -/
theorem IsStableSort.orderedInsert [TransOrd κ] (h : IsStableSort key unsorted sorted) (a : α) :
    IsStableSort key (a :: unsorted)
      (sorted.orderedInsert (fun a b => (compare (key a) (key b)).isLE) a) := by
  have : Std.Total fun a b : α => ((compare (key a) (key b)).isLE : Prop) := ⟨fun a b => by
    have hswap : (compare (key a) (key b)).isGE ↔ (compare (key b) (key a)).isLE :=
      OrientedCmp.isGE_iff_isLE
    rw [← hswap]
    cases compare (key a) (key b) <;> simp⟩
  have : IsTrans α fun a b : α => ((compare (key a) (key b)).isLE : Prop) :=
    ⟨fun _ _ _ => TransCmp.isLE_trans⟩
  refine ⟨h.pairwise.orderedInsert a _, fun k => ?_⟩
  have hinsert (sorted : List α) :
      (sorted.orderedInsert (fun a b => (compare (key a) (key b)).isLE) a).filter
          (fun b => key b = k) = (a :: sorted).filter fun b => key b = k := by
    induction sorted with
    | nil => rfl
    | cons b sorted ih =>
      rw [List.orderedInsert_cons]
      split
      · rfl
      next hlt =>
        -- The element comes behind one with a smaller key.
        have hne : key b ≠ key a := by
          intro heq
          rw [heq] at hlt
          exact hlt (by simp [ReflCmp.compare_self])
        rw [List.filter_cons, ih]
        by_cases hb : key b = k
        · have ha : key a ≠ k := fun ha => hne (hb.trans ha.symm)
          simp [hb, ha]
        · simp [List.filter_cons, hb]
  rw [hinsert, List.filter_cons, List.filter_cons, h.filter_eq]

theorem isStableSort_ordered [TransOrd κ] (key : α → κ) (rows : List α) :
    IsStableSort key rows (ordered (fun a b => compare (key a) (key b)) rows) := by
  induction rows with
  | nil => exact .nil
  | cons row rows ih => exact ih.orderedInsert row

/-- Of the buckets of a list whose elements are all in one, that one is left. -/
theorem flatMap_filter_bucket {bucketOf : α → Nat} {bucketIndex count : Nat} {rows : List α}
    (hrows : ∀ a ∈ rows, bucketOf a = bucketIndex) (hcount : bucketIndex < count) :
    (List.range count).flatMap (fun i => rows.filter fun a => bucketOf a = i) = rows := by
  have hfilter (i : Nat) :
      rows.filter (fun a => bucketOf a = i) = if i = bucketIndex then rows else [] := by
    split
    next hi =>
      rw [List.filter_eq_self]
      intro a ha
      exact decide_eq_true ((hrows a ha).trans hi.symm)
    next hi =>
      rw [List.filter_eq_nil_iff]
      intro a ha hbucket
      exact hi ((of_decide_eq_true hbucket).symm.trans (hrows a ha))
  simp only [hfilter]
  induction count with
  | zero => cases hcount
  | succ count ih =>
    rw [List.range_succ, List.flatMap_append, List.flatMap_singleton]
    by_cases hlast : count = bucketIndex
    · have hnone : (List.range count).flatMap (fun i => if i = bucketIndex then rows else []) =
          [] := by
        rw [List.flatMap_eq_nil_iff]
        intro i hi
        rw [List.mem_range] at hi
        exact if_neg (by omega)
      rw [hnone, if_pos hlast, List.nil_append]
    · rw [ih (by omega), if_neg hlast, List.append_nil]

/-- Sorting the buckets of a list sorts it, if the buckets are in the order of the keys. -/
theorem IsStableSort.buckets [ReflOrd κ] {bucketOf : α → Nat} {count : Nat}
    {bucket : Nat → List α} (hbound : ∀ a ∈ unsorted, bucketOf a < count)
    (horder : ∀ a ∈ unsorted, ∀ b ∈ unsorted, bucketOf a < bucketOf b →
      compare (key a) (key b) = .lt)
    (hbucket : ∀ i < count,
      IsStableSort key (unsorted.filter fun a => bucketOf a = i) (bucket i)) :
    IsStableSort key unsorted ((List.range count).flatMap bucket) := by
  have hmem {i : Nat} (hi : i < count) {a : α} (ha : a ∈ bucket i) :
      a ∈ unsorted ∧ bucketOf a = i := by
    simpa using (hbucket i hi).perm.mem_iff.1 ha
  refine ⟨?_, fun k => ?_⟩
  · rw [List.pairwise_flatMap]
    refine ⟨fun i hi => (hbucket i (List.mem_range.1 hi)).pairwise, ?_⟩
    apply List.pairwise_lt_range.imp_of_mem
    intro i j hi hj hlt a ha b hb
    obtain ⟨ha, hai⟩ := hmem (List.mem_range.1 hi) ha
    obtain ⟨hb, hbj⟩ := hmem (List.mem_range.1 hj) hb
    rw [horder a ha b hb (by rwa [hai, hbj])]
    rfl
  · have hsame : (List.range count).flatMap (fun i => (bucket i).filter fun a => key a = k) =
        (List.range count).flatMap fun i =>
          (unsorted.filter fun a => key a = k).filter fun a => bucketOf a = i := by
      apply List.flatMap_congr
      intro i hi
      rw [(hbucket i (List.mem_range.1 hi)).filter_eq, List.filter_filter, List.filter_filter]
      exact List.filter_congr fun a _ => Bool.and_comm _ _
    rw [List.filter_flatMap, hsame]
    cases hrows : unsorted.filter fun a => key a = k with
    | nil => simp
    | cons a rows =>
      have hone (b : α) (hb : b ∈ unsorted.filter fun a => key a = k) :
          b ∈ unsorted ∧ key b = k := by
        simpa using hb
      obtain ⟨ha, hka⟩ := hone a (hrows ▸ List.mem_cons_self)
      rw [← hrows]
      apply flatMap_filter_bucket _ (hbound a ha)
      intro b hb
      obtain ⟨hb, hkb⟩ := hone b hb
      have hself : compare k k ≠ .lt := by
        rw [ReflOrd.compare_self]
        nofun
      rcases Nat.lt_trichotomy (bucketOf b) (bucketOf a) with hlt | heq | hlt
      · have h := horder b hb a ha hlt
        rw [hkb, hka] at h
        exact absurd h hself
      · exact heq
      · have h := horder a ha b hb hlt
        rw [hkb, hka] at h
        exact absurd h hself

end stability

end KevinDb
