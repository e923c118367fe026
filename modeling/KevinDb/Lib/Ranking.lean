import Mathlib.Data.List.Sort
import Mathlib.Tactic.Common

namespace KevinDb
set_option autoImplicit true

variable {r : α → α → Prop} [DecidableRel r] {l rows : List α} {a b : α} {n : Nat}

/-- The number of rows that come before a row in every order of the rows that `r` allows. -/
def rank (r : α → α → Prop) [DecidableRel r] (rows : List α) (a : α) : Nat :=
  (rows.filter fun b => ¬ r a b).length

/-- The number of rows that `r` puts before a row or ties with it, the row included. -/
def rankEnd (r : α → α → Prop) [DecidableRel r] (rows : List α) (a : α) : Nat :=
  (rows.filter fun b => r b a).length

theorem rank_perm (h : l.Perm rows) (a : α) : rank r l a = rank r rows a :=
  (h.filter _).length_eq

theorem rankEnd_perm (h : l.Perm rows) (a : α) : rankEnd r l a = rankEnd r rows a :=
  (h.filter _).length_eq

theorem rankEnd_sublist (h : l.Sublist rows) (a : α) : rankEnd r l a ≤ rankEnd r rows a :=
  (h.filter _).length_le

theorem split_of_getElem? {i : Nat} (ha : l[i]? = some a) :
    ∃ before after, l = before ++ a :: after ∧ before.length = i := by
  obtain ⟨hi, hget⟩ := List.getElem?_eq_some_iff.1 ha
  exists l.take i, l.drop (i + 1)
  rw [← hget, List.getElem_cons_drop, List.take_append_drop]
  exact ⟨rfl, List.length_take_of_le hi.le⟩

/-- In a sorted list a row stands between its ranks. -/
theorem rank_le_index [Std.Refl r] (hl : l.Pairwise r) {i : Nat} (ha : l[i]? = some a) :
    rank r l a ≤ i ∧ i < rankEnd r l a := by
  obtain ⟨before, after, rfl, rfl⟩ := split_of_getElem? ha
  rw [List.pairwise_append, List.pairwise_cons] at hl
  obtain ⟨-, ⟨hafter, -⟩, hbefore⟩ := hl
  have hself : r a a := Std.Refl.refl a
  constructor
  · have hnone : after.filter (fun b => ¬ r a b) = [] := by
      rw [List.filter_eq_nil_iff]
      intro b hb
      simpa using hafter b hb
    have hrank : rank r (before ++ a :: after) a = (before.filter fun b => ¬ r a b).length := by
      rw [rank, List.filter_append, List.filter_cons_of_neg (by simpa using hself), hnone,
        List.append_nil]
    rw [hrank]
    exact List.length_filter_le _ _
  · have hall : before.filter (fun b => r b a) = before := by
      rw [List.filter_eq_self]
      intro b hb
      exact decide_eq_true (hbefore b hb _ List.mem_cons_self)
    rw [rankEnd, List.filter_append, hall, List.filter_cons_of_pos (by simpa using hself),
      List.length_append, List.length_cons]
    omega

/-- A row of a sorted list is in a page if its ranks are within the page. -/
theorem mem_page [Std.Refl r] (hl : l.Pairwise r) (ha : a ∈ l) (hfrom : m ≤ rank r l a)
    (hto : rankEnd r l a ≤ m + n) : a ∈ (l.drop m).take n := by
  obtain ⟨i, hi⟩ := List.mem_iff_getElem?.1 ha
  obtain ⟨hle, hlt⟩ := rank_le_index hl hi
  apply List.mem_of_getElem? (i := i - m)
  rw [List.getElem?_take_of_lt (by omega), List.getElem?_drop, Nat.add_sub_cancel' (by omega), hi]

/-- A row in a page of a sorted list has ranks that reach into the page. -/
theorem rank_of_mem_page [Std.Refl r] (hl : l.Pairwise r) (ha : a ∈ (l.drop m).take n) :
    m < rankEnd r l a ∧ rank r l a < m + n := by
  obtain ⟨i, hi⟩ := List.mem_iff_getElem?.1 ha
  have hlt : i < n := by
    have hlength := (List.getElem?_eq_some_iff.1 hi).1
    rw [List.length_take] at hlength
    omega
  rw [List.getElem?_take_of_lt hlt, List.getElem?_drop] at hi
  obtain ⟨hle, hgt⟩ := rank_le_index hl hi
  omega

theorem mem_take_of_rankEnd [Std.Refl r] (hl : l.Pairwise r) (ha : a ∈ l)
    (hrank : rankEnd r l a ≤ n) : a ∈ l.take n := by
  have hmem := mem_page (m := 0) hl ha (Nat.zero_le _) (by omega : rankEnd r l a ≤ 0 + n)
  rwa [List.drop_zero] at hmem

theorem rank_of_mem_take [Std.Refl r] (hl : l.Pairwise r) (ha : a ∈ l.take n) :
    rank r l a < n := by
  rw [← List.drop_zero (l := l)] at ha
  have hrank := (rank_of_mem_page hl ha).2
  omega

/-- No two different rows tie. -/
def Untied (r : α → α → Prop) (rows : List α) : Prop :=
  ∀ a ∈ rows, ∀ b ∈ rows, r a b → r b a → a = b

omit [DecidableRel r] in
theorem Untied.subset (h : Untied r rows) (hl : l ⊆ rows) : Untied r l :=
  fun a ha b hb => h a (hl ha) b (hl hb)

theorem rankEnd_untied [Std.Total r] (h : Untied r rows) (hrows : rows.Nodup) (ha : a ∈ rows) :
    rankEnd r rows a = rank r rows a + 1 := by
  classical
  have hsplit : ∀ b ∈ rows, decide (r b a) = (decide (¬ r a b) || decide (b = a)) := by
    intro b hb
    rw [Bool.eq_iff_iff, Bool.or_eq_true, decide_eq_true_iff, decide_eq_true_iff,
      decide_eq_true_iff]
    constructor
    · intro hba
      by_cases hab : r a b
      · exact .inr (h b hb a ha hba hab)
      · exact .inl hab
    · rintro (hab | rfl)
      · exact (Std.Total.total b a).resolve_right hab
      · exact or_self_iff.1 (Std.Total.total b b)
  have hcount : rows.countP (fun b => decide (¬ r a b) || decide (b = a)) =
      rows.countP (fun b => decide (¬ r a b)) + rows.countP fun b => decide (b = a) := by
    have hself : r a a := or_self_iff.1 (Std.Total.total a a)
    clear hsplit hrows ha h
    induction rows with
    | nil => rfl
    | cons b rows ih =>
      rw [List.countP_cons, List.countP_cons, List.countP_cons, ih]
      by_cases hb : b = a
      · subst hb
        simp [hself]
        omega
      · simp [hb]
        omega
  have hone : rows.countP (fun b => decide (b = a)) = 1 := by
    rw [← List.count_eq_one_of_mem hrows ha, List.count]
    apply List.countP_congr
    intro b _
    rw [decide_eq_true_iff, beq_iff_eq]
  rw [rankEnd, rank, List.filter_congr hsplit, ← List.countP_eq_length_filter,
    ← List.countP_eq_length_filter, hcount, hone]

omit [DecidableRel r] in
/-- Two sorted lists of the same untied rows are equal. -/
theorem Untied.eq_of_perm (h : Untied r rows) (hl : l.Pairwise r) (hl' : l'.Pairwise r)
    (hperm : l.Perm rows) (hperm' : l'.Perm rows) : l = l' := by
  apply List.Perm.eq_of_pairwise _ hl hl' (hperm.trans hperm'.symm)
  intro a b ha hb
  exact h a (hperm.mem_iff.1 ha) b (hperm'.mem_iff.1 hb)

/-- An order of the rows that `r` allows. -/
structure Arranges (r : α → α → Prop) (rows l : List α) : Prop where
  perm : l.Perm rows
  sorted : l.Pairwise r

theorem Arranges.insertionSort [Std.Total r] [IsTrans α r] (rows : List α) :
    Arranges r rows (rows.insertionSort r) :=
  ⟨List.perm_insertionSort r rows, List.pairwise_insertionSort r rows⟩

omit [DecidableRel r] in
/-- Rows that do not tie have one order. -/
theorem Untied.arranges_unique (h : Untied r rows) (hl : Arranges r rows l)
    (hl' : Arranges r rows l') : l = l' :=
  h.eq_of_perm hl.sorted hl'.sorted hl.perm hl'.perm

/-- Sorting gives the only strictly sorted list of the rows. -/
theorem insertionSort_strict [Std.Total r] [IsTrans α r] (hperm : rows.Perm l)
    (hl : l.Pairwise fun a b => r a b ∧ ¬ r b a) : rows.insertionSort r = l := by
  have hrel := List.Pairwise.forall_of_forall_of_flip (R := fun a b => r a b → r b a → a = b)
    (fun _ _ _ _ => rfl) (hl.imp fun h _ hba => absurd hba h.2)
    (hl.imp fun h hba _ => absurd hba h.2)
  have huntied : Untied r rows := fun a ha b hb =>
    hrel (hperm.mem_iff.1 ha) (hperm.mem_iff.1 hb)
  exact huntied.arranges_unique (.insertionSort rows) ⟨hperm.symm, hl.imp And.left⟩

/-- Sorting by a key gives the rows in the order of their keys. -/
theorem insertionSort_key {key : α → Int} (hperm : rows.Perm l)
    (hl : l.Pairwise fun a b => key a < key b) :
    rows.insertionSort (fun a b => key a ≤ key b) = l := by
  have htotal : Std.Total fun a b => key a ≤ key b := ⟨fun a b => Int.le_total _ _⟩
  have htrans : IsTrans α fun a b => key a ≤ key b := ⟨fun a b c => Int.le_trans⟩
  exact insertionSort_strict hperm (hl.imp fun h => ⟨Int.le_of_lt h, Int.not_le.2 h⟩)

/-- The first rows of a sorted list come before a row that enough rows come before. -/
theorem before_of_rankEnd [IsTrans α r] (hl : l.Pairwise r) (hn : n ≤ rankEnd r l a)
    (hb : b ∈ l.take n) : r b a := by
  obtain ⟨i, hi⟩ := List.mem_iff_getElem?.1 hb
  have hlt : i < n := by
    have hlength := (List.getElem?_eq_some_iff.1 hi).1
    rw [List.length_take] at hlength
    omega
  rw [List.getElem?_take_of_lt hlt] at hi
  obtain ⟨before, after, rfl, rfl⟩ := split_of_getElem? hi
  by_contra hba
  have hafter : ∀ c ∈ b :: after, ¬ r c a := by
    rw [List.pairwise_append, List.pairwise_cons] at hl
    intro c hc hca
    rcases List.mem_cons.1 hc with rfl | hc
    · exact hba hca
    · exact hba (trans_of r (hl.2.1.1 c hc) hca)
  have hnone : (b :: after).filter (fun c => r c a) = [] := by
    rw [List.filter_eq_nil_iff]
    intro c hc
    simpa using hafter c hc
  rw [rankEnd, List.filter_append, hnone, List.append_nil] at hn
  have hle := List.length_filter_le (fun c => decide (r c a)) before
  omega

/-- What is cut from the parts comes behind `n` of the rows that are left. -/
theorem exists_rest_of_parts {parts results : List (List α)}
    (h : List.Forall₂ (fun part result => ∃ l, Arranges r part l ∧ result = l.take n)
      parts results) :
    ∃ rest : List α, (results.flatten ++ rest).Perm parts.flatten ∧
      ∀ a ∈ rest, n ≤ rankEnd r results.flatten a := by
  induction h with
  | nil => exact ⟨[], .nil, by simp⟩
  | @cons part result parts results hfirst hrest ih =>
    obtain ⟨l, hl, rfl⟩ := hfirst
    obtain ⟨rest, hperm, hbehind⟩ := ih
    refine ⟨l.drop n ++ rest, ?_, ?_⟩
    · rw [List.flatten_cons, List.flatten_cons]
      calc l.take n ++ results.flatten ++ (l.drop n ++ rest)
        _ = l.take n ++ (results.flatten ++ (l.drop n ++ rest)) := List.append_assoc ..
        _ |>.Perm (l.take n ++ (l.drop n ++ (results.flatten ++ rest))) :=
            (List.perm_append_comm_assoc ..).append_left _
        _ = l ++ (results.flatten ++ rest) := by rw [← List.append_assoc, List.take_append_drop]
        _ |>.Perm (part ++ parts.flatten) := hl.perm.append hperm
    · intro a ha
      rw [List.flatten_cons]
      rcases List.mem_append.1 ha with ha | ha
      · have hlength : n ≤ l.length := by
          have hpos := List.length_pos_of_mem ha
          rw [List.length_drop] at hpos
          omega
        have hall : rankEnd r (l.take n) a = n := by
          have hsorted := hl.sorted
          rw [← List.take_append_drop n l, List.pairwise_append] at hsorted
          rw [rankEnd, List.filter_eq_self.2, List.length_take_of_le hlength]
          intro b hb
          exact decide_eq_true (hsorted.2.2 b hb a ha)
        exact hall.ge.trans (rankEnd_sublist (List.sublist_append_left _ _) a)
      · exact (hbehind a ha).trans (rankEnd_sublist (List.sublist_append_right _ _) a)

/-- Sorting parts that were cut after `n` rows begins like an order of all rows. -/
theorem exists_arranges_of_parts [Std.Total r] [IsTrans α r] {parts results : List (List α)}
    (h : List.Forall₂ (fun part result => ∃ l, Arranges r part l ∧ result = l.take n)
      parts results) :
    ∃ l, Arranges r parts.flatten l ∧ results.flatten.length ≤ l.length ∧
      l.take n = (results.flatten.insertionSort r).take n := by
  obtain ⟨rest, hperm, hbehind⟩ := exists_rest_of_parts h
  have hlength : results.flatten.length ≤ parts.flatten.length := by
    rw [← hperm.length_eq, List.length_append]
    exact Nat.le_add_right _ _
  have hsort := Arranges.insertionSort (r := r) results.flatten
  generalize results.flatten.insertionSort r = s at hsort
  have htail := Arranges.insertionSort (r := r) (s.drop n ++ rest)
  generalize (s.drop n ++ rest).insertionSort r = tail at htail
  have hall : (s.take n ++ tail).Perm parts.flatten := by
    calc s.take n ++ tail
      _ |>.Perm (s.take n ++ (s.drop n ++ rest)) := htail.perm.append_left _
      _ = s ++ rest := by rw [← List.append_assoc, List.take_append_drop]
      _ |>.Perm (results.flatten ++ rest) := hsort.perm.append_right _
      _ |>.Perm parts.flatten := hperm
  refine ⟨s.take n ++ tail, ⟨hall, ?_⟩, hlength.trans hall.length_eq.ge, ?_⟩
  · have hsorted := hsort.sorted
    rw [← List.take_append_drop n s, List.pairwise_append] at hsorted
    refine List.pairwise_append.2 ⟨hsorted.1, htail.sorted, ?_⟩
    intro b hb a ha
    rcases List.mem_append.1 (htail.perm.mem_iff.1 ha) with ha | ha
    · exact hsorted.2.2 b hb a ha
    · apply before_of_rankEnd hsort.sorted _ hb
      rw [rankEnd_perm hsort.perm]
      exact hbehind a ha
  · by_cases hlength : n ≤ s.length
    · rw [List.take_left' (List.length_take_of_le hlength)]
    · have hrest : rest = [] := by
        rw [List.eq_nil_iff_forall_not_mem]
        intro a ha
        have hle := (hbehind a ha).trans (List.length_filter_le _ _)
        rw [← hsort.perm.length_eq] at hle
        exact hlength hle
      have htail : tail = [] := by
        rw [← List.length_eq_zero_iff, htail.perm.length_eq, hrest, List.append_nil,
          List.length_drop]
        omega
      rw [htail, List.append_nil, List.take_take, Nat.min_self]

theorem not_mem_of_pair_sublist (hnodup : (before ++ a :: after).Nodup)
    (h : List.Sublist [a, b] (before ++ a :: after)) : b ∉ before := by
  intro hb
  rw [List.nodup_append] at hnodup
  obtain ⟨l, l', hl, hbefore, hafter⟩ := List.sublist_append_iff.1 h
  cases l with
  | nil =>
    rw [List.nil_append] at hl
    rw [← hl] at hafter
    exact hnodup.2.2 b hb b (hafter.subset (by simp)) rfl
  | cons c l =>
    obtain rfl : a = c := (List.cons.inj hl).1
    exact hnodup.2.2 a (hbefore.subset List.mem_cons_self) a List.mem_cons_self rfl

/-- A stable sort leaves a row at its rank if no row that ties with it comes before it. -/
theorem getElem_rank_insertionSort [Std.Total r] [IsTrans α r]
    (hnodup : (before ++ a :: after).Nodup) (hfirst : ∀ b ∈ before, r b a → ¬ r a b) :
    ((before ++ a :: after).insertionSort r)[rank r (before ++ a :: after) a]? = some a := by
  have hperm := List.perm_insertionSort r (before ++ a :: after)
  have hsorted := List.pairwise_insertionSort r (before ++ a :: after)
  have hstable (b : α) (hab : r a b) (hb : b ∈ after) :
      List.Sublist [a, b] ((before ++ a :: after).insertionSort r) :=
    List.pair_sublist_insertionSort hab (((List.singleton_sublist.2 hb).cons_cons a).trans
      (List.sublist_append_right _ _))
  have ha : a ∈ (before ++ a :: after).insertionSort r := hperm.mem_iff.2 (by simp)
  obtain ⟨i, hi⟩ := List.mem_iff_getElem?.1 ha
  have hle := (rank_le_index hsorted hi).1
  rw [← rank_perm hperm]
  suffices hge : i ≤ rank r ((before ++ a :: after).insertionSort r) a by
    rwa [← Nat.le_antisymm hge hle]
  have hmem := fun b => (hperm.mem_iff (a := b)).1
  replace hnodup := hperm.nodup_iff.2 hnodup
  generalize (before ++ a :: after).insertionSort r = s at *
  obtain ⟨front, back, rfl, rfl⟩ := split_of_getElem? hi
  rw [List.pairwise_append] at hsorted
  have hstrict : ∀ b ∈ front, ¬ r a b := by
    intro b hb hab
    have hba := hsorted.2.2 b hb a List.mem_cons_self
    rcases List.mem_append.1 (hmem b (List.mem_append_left _ hb)) with hbefore | hafter
    · exact hfirst b hbefore hba hab
    · rcases List.mem_cons.1 hafter with rfl | hafter
      · exact List.disjoint_of_nodup_append hnodup hb List.mem_cons_self
      · exact not_mem_of_pair_sublist hnodup (hstable b hab hafter) hb
  have hall : front.filter (fun b => ¬ r a b) = front := by
    rw [List.filter_eq_self]
    intro b hb
    exact decide_eq_true (hstrict b hb)
  rw [rank, List.filter_append, hall, List.length_append]
  exact Nat.le_add_right _ _

/-- A stable sort leaves a row at its last rank if no row that ties with it comes behind it. -/
theorem getElem_rankEnd_insertionSort [Std.Total r] [IsTrans α r]
    (hnodup : (before ++ a :: after).Nodup) (hlast : ∀ b ∈ after, r a b → ¬ r b a) :
    ((before ++ a :: after).insertionSort r)[rankEnd r (before ++ a :: after) a - 1]? = some a := by
  have hperm := List.perm_insertionSort r (before ++ a :: after)
  have hsorted := List.pairwise_insertionSort r (before ++ a :: after)
  have hstable (b : α) (hba : r b a) (hb : b ∈ before) :
      List.Sublist [b, a] ((before ++ a :: after).insertionSort r) :=
    List.pair_sublist_insertionSort hba ((List.singleton_sublist.2 hb).append
      (List.singleton_sublist.2 List.mem_cons_self))
  have ha : a ∈ (before ++ a :: after).insertionSort r := hperm.mem_iff.2 (by simp)
  obtain ⟨i, hi⟩ := List.mem_iff_getElem?.1 ha
  have hlt := (rank_le_index hsorted hi).2
  rw [← rankEnd_perm hperm]
  suffices hle : rankEnd r ((before ++ a :: after).insertionSort r) a ≤ i + 1 by
    rwa [show rankEnd r ((before ++ a :: after).insertionSort r) a - 1 = i by omega]
  have hmem := fun b => (hperm.mem_iff (a := b)).1
  replace hnodup := hperm.nodup_iff.2 hnodup
  generalize (before ++ a :: after).insertionSort r = s at *
  obtain ⟨front, back, rfl, rfl⟩ := split_of_getElem? hi
  rw [List.pairwise_append, List.pairwise_cons] at hsorted
  have hstrict : ∀ b ∈ back, ¬ r b a := by
    intro b hb hba
    have hab := hsorted.2.1.1 b hb
    rcases List.mem_append.1 (hmem b (List.mem_append_right _ (List.mem_cons_of_mem _ hb))) with
      hbefore | hafter
    · have hpair := hstable b hba hbefore
      obtain ⟨middle, tail, rfl⟩ := List.append_of_mem hb
      rw [← List.cons_append, ← List.append_assoc] at hpair hnodup
      exact not_mem_of_pair_sublist hnodup hpair (by simp)
    · rcases List.mem_cons.1 hafter with rfl | hafter
      · exact (List.nodup_cons.1 (List.nodup_append.1 hnodup).2.1).1 hb
      · exact hlast b hafter hab hba
  have hnone : back.filter (fun b => r b a) = [] := by
    rw [List.filter_eq_nil_iff]
    intro b hb
    simpa using hstrict b hb
  rw [rankEnd, List.filter_append, List.filter_cons, hnone, List.length_append]
  have hle := List.length_filter_le (fun b => decide (r b a)) front
  split <;> simp <;> omega

theorem rank_sublist (h : l.Sublist rows) (a : α) : rank r l a ≤ rank r rows a :=
  (h.filter _).length_le

theorem rank_lt_rankEnd [Std.Refl r] [Std.Total r] [IsTrans α r] (ha : a ∈ l) :
    rank r l a < rankEnd r l a := by
  have hsort := Arranges.insertionSort (r := r) l
  obtain ⟨i, hi⟩ := List.mem_iff_getElem?.1 (hsort.perm.mem_iff.2 ha)
  obtain ⟨hle, hlt⟩ := rank_le_index hsort.sorted hi
  rw [rank_perm hsort.perm] at hle
  rw [rankEnd_perm hsort.perm] at hlt
  omega

theorem length_le_rank (hfirst : ∀ b ∈ before, ¬ r a b) :
    before.length ≤ rank r (before ++ l) a := by
  have hall : before.filter (fun b => ¬ r a b) = before := by
    rw [List.filter_eq_self]
    intro b hb
    exact decide_eq_true (hfirst b hb)
  rw [rank, List.filter_append, hall, List.length_append]
  exact Nat.le_add_right _ _

theorem rankEnd_mono [IsTrans α r] (h : r b a) : rankEnd r rows b ≤ rankEnd r rows a := by
  apply (List.monotone_filter_right rows _).length_le
  intro c hc
  exact decide_eq_true (trans_of r (of_decide_eq_true hc) h)

theorem exists_arranges [Std.Total r] [IsTrans α r] (rows : List α) : ∃ l, Arranges r rows l :=
  ⟨_, .insertionSort rows⟩

/-- An order that puts a row before all rows that tie with it. -/
theorem exists_arranges_first [DecidableEq α] [Std.Total r] [IsTrans α r] (ha : a ∈ rows) :
    ∃ before after, Arranges r rows (before ++ a :: after) ∧ ∀ b ∈ before, ¬ r a b := by
  have hself : r a a := or_self_iff.1 (Std.Total.total a a)
  have hmem : a ∈ rows.filter fun b => r a b := List.mem_filter.2 ⟨ha, decide_eq_true hself⟩
  obtain ⟨before, hbefore⟩ := exists_arranges (r := r) (rows.filter fun b => !decide (r a b))
  obtain ⟨after, hafter⟩ := exists_arranges (r := r) ((rows.filter fun b => r a b).erase a)
  have hstrict : ∀ b ∈ before, ¬ r a b := by
    intro b hb
    simpa using (List.mem_filter.1 (hbefore.perm.mem_iff.1 hb)).2
  have hbehind : ∀ b ∈ after, r a b := by
    intro b hb
    simpa using (List.mem_filter.1 (List.mem_of_mem_erase (hafter.perm.mem_iff.1 hb))).2
  refine ⟨before, after, ⟨?_, ?_⟩, hstrict⟩
  · calc before ++ a :: after
      _ |>.Perm (a :: after ++ before) := List.perm_append_comm
      _ |>.Perm (a :: (rows.filter fun b => r a b).erase a ++
          rows.filter fun b => !decide (r a b)) := (hafter.perm.cons a).append hbefore.perm
      _ |>.Perm ((rows.filter fun b => r a b) ++ rows.filter fun b => !decide (r a b)) :=
        (List.perm_cons_erase hmem).symm.append_right _
      _ |>.Perm rows := List.filter_append_perm _ rows
  · rw [List.pairwise_append, List.pairwise_cons]
    refine ⟨hbefore.sorted, ⟨hbehind, hafter.sorted⟩, ?_⟩
    intro b hb c hc
    have hba : r b a := (Std.Total.total b a).resolve_right (hstrict b hb)
    rcases List.mem_cons.1 hc with rfl | hc
    · exact hba
    · exact trans_of r hba (hbehind c hc)

/-- An order that puts a row behind all rows that tie with it. -/
theorem exists_arranges_last [DecidableEq α] [Std.Total r] [IsTrans α r] (ha : a ∈ rows) :
    ∃ before after, Arranges r rows (before ++ a :: after) ∧ ∀ b ∈ after, ¬ r b a := by
  have hself : r a a := or_self_iff.1 (Std.Total.total a a)
  have hmem : a ∈ rows.filter fun b => r b a := List.mem_filter.2 ⟨ha, decide_eq_true hself⟩
  obtain ⟨before, hbefore⟩ := exists_arranges (r := r) ((rows.filter fun b => r b a).erase a)
  obtain ⟨after, hafter⟩ := exists_arranges (r := r) (rows.filter fun b => !decide (r b a))
  have hahead : ∀ b ∈ before, r b a := by
    intro b hb
    simpa using (List.mem_filter.1 (List.mem_of_mem_erase (hbefore.perm.mem_iff.1 hb))).2
  have hstrict : ∀ b ∈ after, ¬ r b a := by
    intro b hb
    simpa using (List.mem_filter.1 (hafter.perm.mem_iff.1 hb)).2
  refine ⟨before, after, ⟨?_, ?_⟩, hstrict⟩
  · calc before ++ a :: after
      _ |>.Perm (a :: before ++ after) := List.perm_middle
      _ |>.Perm (a :: (rows.filter fun b => r b a).erase a ++
          rows.filter fun b => !decide (r b a)) := (hbefore.perm.cons a).append hafter.perm
      _ |>.Perm ((rows.filter fun b => r b a) ++ rows.filter fun b => !decide (r b a)) :=
        (List.perm_cons_erase hmem).symm.append_right _
      _ |>.Perm rows := List.filter_append_perm _ rows
  · rw [List.pairwise_append, List.pairwise_cons]
    refine ⟨hbefore.sorted, ⟨fun b hb => ?_, hafter.sorted⟩, ?_⟩
    · exact (Std.Total.total a b).resolve_right (hstrict b hb)
    · intro b hb c hc
      rcases List.mem_cons.1 hc with rfl | hc
      · exact hahead b hb
      · exact trans_of r (hahead b hb) ((Std.Total.total a c).resolve_right (hstrict c hc))

section parts

variable {parts results : List (List α)}

/-- A row that comes first among its ties in the parts comes first among them in the whole. -/
theorem getElem_rank_of_parts [Std.Total r] [IsTrans α r] (hnodup : parts.flatten.Nodup)
    (h : List.Forall₂ (fun part result => ∃ l, Arranges r part l ∧ result = l.take n)
      parts results)
    (hresults : results.flatten = before ++ a :: after) (hfirst : ∀ b ∈ before, ¬ r a b)
    (hrank : rank r parts.flatten a < n) :
    (results.flatten.insertionSort r)[rank r parts.flatten a]? = some a := by
  obtain ⟨rest, hperm, -⟩ := exists_rest_of_parts h
  obtain ⟨ordered, harranges, -, htake⟩ := exists_arranges_of_parts h
  have hsub : rank r results.flatten a ≤ rank r parts.flatten a := by
    rw [← rank_perm hperm]
    exact rank_sublist (List.sublist_append_left _ _) a
  have hget : (results.flatten.insertionSort r)[rank r results.flatten a]? = some a := by
    rw [hresults]
    apply getElem_rank_insertionSort
    · rw [← hresults]
      exact (hperm.nodup_iff.2 hnodup).sublist (List.sublist_append_left _ _)
    · intro b hb _
      exact hfirst b hb
  have hordered : ordered[rank r results.flatten a]? = some a := by
    rw [← List.getElem?_take_of_lt (hsub.trans_lt hrank), htake,
      List.getElem?_take_of_lt (hsub.trans_lt hrank), hget]
  have hle := (rank_le_index harranges.sorted hordered).1
  rw [rank_perm harranges.perm] at hle
  rw [Nat.le_antisymm hle hsub, hget]

/-- A row that comes last among its ties in the parts comes last among them in the whole. -/
theorem getElem_rankEnd_of_parts [Std.Total r] [IsTrans α r] (hnodup : parts.flatten.Nodup)
    (h : List.Forall₂ (fun part result => ∃ l, Arranges r part l ∧ result = l.take n)
      parts results)
    (hresults : results.flatten = before ++ a :: after) (hlast : ∀ b ∈ after, ¬ r b a)
    (hrank : rankEnd r parts.flatten a ≤ n) :
    (results.flatten.insertionSort r)[rankEnd r parts.flatten a - 1]? = some a := by
  obtain ⟨rest, hperm, hbehind⟩ := exists_rest_of_parts h
  have hsame : rankEnd r results.flatten a = rankEnd r parts.flatten a := by
    apply Nat.le_antisymm
    · rw [← rankEnd_perm hperm]
      exact rankEnd_sublist (List.sublist_append_left _ _) a
    · by_cases hrest : ∃ b ∈ rest, r b a
      · obtain ⟨b, hb, hba⟩ := hrest
        exact (hrank.trans (hbehind b hb)).trans (rankEnd_mono hba)
      · have hnone : rest.filter (fun b => r b a) = [] := by
          rw [List.filter_eq_nil_iff]
          intro b hb hba
          exact hrest ⟨b, hb, of_decide_eq_true hba⟩
        rw [← rankEnd_perm hperm, rankEnd, List.filter_append, hnone, List.append_nil]
        exact le_rfl
  rw [← hsame, hresults]
  apply getElem_rankEnd_insertionSort
  · rw [← hresults]
    exact (hperm.nodup_iff.2 hnodup).sublist (List.sublist_append_left _ _)
  · intro b hb _
    exact hlast b hb

end parts

/-- A row that stands before the cut stays. -/
theorem take_append_cons (a : α) (after : List α) (h : before.length < n) :
    ∃ after', (before ++ a :: after).take n = before ++ a :: after' ∧ after' ⊆ after := by
  obtain ⟨k, hk⟩ : ∃ k, n = before.length + (k + 1) := ⟨n - before.length - 1, by omega⟩
  refine ⟨after.take k, ?_, List.take_subset _ _⟩
  rw [hk, List.take_length_add_append, List.take_succ_cons]

/-- A page is decided by the rows up to its end. -/
theorem page_of_take_eq {l' : List α} {k : Nat} (h : l.take k = l'.take k) (hk : m + n ≤ k) :
    (l.drop m).take n = (l'.drop m).take n := by
  have h := congrArg (List.take (m + n)) h
  rw [List.take_take, List.take_take, Nat.min_eq_left hk] at h
  rw [List.take_drop, List.take_drop, h]

/-- A row of a list without repeats is in a page if its index is. -/
theorem mem_page_iff (hnodup : l.Nodup) {i : Nat} (ha : l[i]? = some a) :
    a ∈ (l.drop m).take n ↔ m ≤ i ∧ i < m + n := by
  constructor
  · intro hmem
    obtain ⟨j, hj⟩ := List.mem_iff_getElem?.1 hmem
    have hlt : j < n := by
      have hlength := (List.getElem?_eq_some_iff.1 hj).1
      rw [List.length_take] at hlength
      omega
    rw [List.getElem?_take_of_lt hlt, List.getElem?_drop] at hj
    obtain ⟨hilt, hi⟩ := List.getElem?_eq_some_iff.1 ha
    obtain ⟨hjlt, hj⟩ := List.getElem?_eq_some_iff.1 hj
    have hsame := (hnodup.getElem_inj_iff).1 (hi.trans hj.symm)
    omega
  · intro ⟨hle, hlt⟩
    apply List.mem_of_getElem? (i := i - m)
    rw [List.getElem?_take_of_lt (by omega), List.getElem?_drop, Nat.add_sub_cancel' hle, ha]

/-- Cut a list into pieces of `n` elements. -/
def chunksAux (n : Nat) : Nat → List α → List (List α)
  | 0, _ => []
  | _ + 1, [] => []
  | fuel + 1, a :: l => (a :: l).take n :: chunksAux n fuel ((a :: l).drop n)

/-- `slice::chunks`. -/
def chunks (n : Nat) (l : List α) : List (List α) := chunksAux n l.length l

theorem flatten_chunksAux (hn : 0 < n) (fuel : Nat) (l : List α) (hfuel : l.length ≤ fuel) :
    (chunksAux n fuel l).flatten = l := by
  induction fuel generalizing l with
  | zero =>
    rw [List.length_eq_zero_iff.1 (Nat.le_zero.1 hfuel)]
    rfl
  | succ fuel ih =>
    cases l with
    | nil => rfl
    | cons a l =>
      rw [chunksAux, List.flatten_cons, ih, List.take_append_drop]
      rw [List.length_drop]
      rw [List.length_cons] at hfuel ⊢
      omega

theorem flatten_chunks (hn : 0 < n) (l : List α) : (chunks n l).flatten = l :=
  flatten_chunksAux hn _ l le_rfl

theorem ne_nil_of_mem_chunks (hn : 0 < n) {chunk : List α} (h : chunk ∈ chunks n l) :
    chunk ≠ [] := by
  rw [chunks] at h
  generalize l.length = fuel at h
  induction fuel generalizing l with
  | zero => cases h
  | succ fuel ih =>
    cases l with
    | nil => cases h
    | cons a l =>
      rcases List.mem_cons.1 h with rfl | h
      · rw [ne_eq, List.take_eq_nil_iff]
        simp
        omega
      · exact ih h

/-- The first chunk begins with the first element. -/
theorem chunks_cons (hn : 0 < n) (a : α) (l : List α) :
    ∃ chunk rest, chunks n (a :: l) = (a :: chunk) :: rest := by
  have hflatten := flatten_chunks hn (a :: l)
  cases hchunks : chunks n (a :: l) with
  | nil =>
    rw [hchunks] at hflatten
    cases hflatten
  | cons first rest =>
    have hne := ne_nil_of_mem_chunks hn (hchunks ▸ List.mem_cons_self)
    obtain ⟨b, chunk, rfl⟩ := List.exists_cons_of_ne_nil hne
    rw [hchunks, List.flatten_cons, List.cons_append] at hflatten
    obtain rfl := (List.cons.inj hflatten).1
    exact ⟨chunk, rest, rfl⟩

/-- The last chunk ends with the last element. -/
theorem chunks_concat (hn : 0 < n) (l : List α) (a : α) :
    ∃ chunk rest, chunks n (l ++ [a]) = rest ++ [chunk ++ [a]] := by
  have hflatten := flatten_chunks hn (l ++ [a])
  rcases List.eq_nil_or_concat (chunks n (l ++ [a])) with hchunks | ⟨rest, last, hchunks⟩
  · rw [hchunks] at hflatten
    simp at hflatten
  · rw [List.concat_eq_append] at hchunks
    have hne := ne_nil_of_mem_chunks hn (hchunks ▸ List.mem_append_right rest
      (List.mem_singleton_self last))
    obtain ⟨chunk, b, rfl⟩ := (List.eq_nil_or_concat last).resolve_left hne
    rw [List.concat_eq_append] at hchunks
    rw [hchunks, List.flatten_append, List.flatten_singleton, ← List.append_assoc] at hflatten
    obtain rfl : b = a := List.singleton_inj.1 (List.append_inj' hflatten rfl).2
    exact ⟨chunk, rest, hchunks⟩

end KevinDb
