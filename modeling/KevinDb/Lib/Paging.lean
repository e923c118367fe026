import KevinDb.Lib.Ranking

namespace KevinDb
set_option autoImplicit true

/-- What the first candidates of a page give. -/
def shownOf (g : ρ → Option β) (n : Nat) (m : Nat) (o : List ρ) : List β :=
  (o.take (m * n + n)).filterMap g

/-- Pages that are chosen twice: first candidates are taken in an order `c`, then what they give is
sorted by `r`, of which `c` is a refinement. Both orders leave ties open, and every row can come
first or last among its ties. -/
structure PagedListing (c : ρ → ρ → Prop) [DecidableRel c] (r : β → β → Prop) [DecidableRel r]
    (g : ρ → Option β) (rows : List ρ) (n : Nat) (Page : Nat → List β → Prop) : Prop where
  pos : 0 < n
  rows_nodup : rows.Nodup
  injective : ∀ row ∈ rows, ∀ row' ∈ rows, ∀ a, g row = some a → g row' = some a → row = row'
  refines : ∀ row ∈ rows, ∀ row' ∈ rows, ∀ a b, g row = some a → g row' = some b → c row row' →
    r a b
  arranges : ∀ m shown, Page m shown → ∃ o ordered, Arranges c rows o ∧
    Arranges r (shownOf g n m o) ordered ∧ shown = (ordered.drop (m * n)).take n
  exists_page : ∀ m o, Arranges c rows o → ∃ shown, Page m shown ∧ shown ⊆ shownOf g n m o
  first : ∀ m o a, Arranges c rows o → a ∈ shownOf g n m o →
    ∃ shown, Page m shown ∧ shown ⊆ shownOf g n m o ∧
      (a ∈ shown ↔ m * n ≤ rank r (shownOf g n m o) a ∧ rank r (shownOf g n m o) a < m * n + n)
  last : ∀ m o a, Arranges c rows o → a ∈ shownOf g n m o →
    m * n ≤ rankEnd r (shownOf g n m o) a - 1 → rankEnd r (shownOf g n m o) a ≤ m * n + n →
    ∃ shown, Page m shown ∧ a ∈ shown

/-- Whatever the pages are, each row is on exactly one of them, once. -/
def PagesPartition [BEq β] (Page : Nat → List β → Prop) (rows : List β) : Prop :=
  ∀ pages : Nat → List β, (∀ m, Page m (pages m)) → ∀ a ∈ rows,
    ∃ m, (pages m).count a = 1 ∧ ∀ m', a ∈ pages m' → m' = m

/-- A row is on the page of its rank if its ties end on that page, and if the candidates that come
before it or tie with it end there. -/
def OnePage (c : ρ → ρ → Prop) [DecidableRel c] (r : β → β → Prop) [DecidableRel r]
    (g : ρ → Option β) (rows : List ρ) (n : Nat) (row : ρ) (a : β) : Prop :=
  (rankEnd r (rows.filterMap g) a - 1) / n = rank r (rows.filterMap g) a / n ∧
    (rankEnd c rows row - 1) / n ≤ rank r (rows.filterMap g) a / n

namespace PagedListing

variable {c : ρ → ρ → Prop} [DecidableRel c] {r : β → β → Prop} [DecidableRel r]
  {g : ρ → Option β} {rows o : List ρ} {n m : Nat} {Page : Nat → List β → Prop} {row : ρ} {a : β}

theorem rankEnd_le_rank [IsTrans ρ c] (rows : List ρ) {row' : ρ} (hstrict : ¬ c row row') :
    rankEnd c rows row' ≤ rank c rows row := by
  apply (List.monotone_filter_right rows _).length_le
  intro other hother
  apply decide_eq_true
  intro hrow
  exact hstrict (trans_of c hrow (of_decide_eq_true hother))

theorem filterMap_nodup (h : PagedListing c r g rows n Page) (ho : Arranges c rows o) :
    (o.filterMap g).Nodup := by
  rw [List.Nodup, List.pairwise_filterMap]
  apply (ho.perm.nodup_iff.2 h.rows_nodup).imp_of_mem
  intro row row' hrow hrow' hne a ha b hb hab
  subst hab
  exact hne (h.injective row (ho.perm.mem_iff.1 hrow) row' (ho.perm.mem_iff.1 hrow') a ha hb)

theorem filterMap_split (o : List ρ) :
    o.filterMap g = shownOf g n m o ++ (o.drop (m * n + n)).filterMap g := by
  rw [shownOf, ← List.filterMap_append, List.take_append_drop]

theorem shown_nodup (h : PagedListing c r g rows n Page) (ho : Arranges c rows o) :
    (shownOf g n m o).Nodup := by
  have hnodup := h.filterMap_nodup ho
  rw [filterMap_split (n := n) (m := m)] at hnodup
  exact (List.nodup_append.1 hnodup).1

/-- A row that comes early enough gives what a page is chosen from. -/
theorem mem_shown [Std.Refl c] (ho : Arranges c rows o) (hrow : row ∈ rows) (ha : g row = some a)
    (hrank : rankEnd c rows row ≤ m * n + n) : a ∈ shownOf g n m o := by
  refine List.mem_filterMap.2 ⟨row, ?_, ha⟩
  apply mem_take_of_rankEnd ho.sorted (ho.perm.mem_iff.2 hrow)
  rwa [rankEnd_perm ho.perm]

/-- What comes strictly before a row of a page is in the page's choice, too. -/
theorem rank_shown [Std.Total c] [IsTrans ρ c] (h : PagedListing c r g rows n Page)
    (ho : Arranges c rows o) (ha : a ∈ shownOf g n m o) :
    rank r (shownOf g n m o) a = rank r (rows.filterMap g) a := by
  have hnodup := h.filterMap_nodup ho
  rw [← rank_perm (ho.perm.filterMap g), filterMap_split (n := n) (m := m)] at *
  obtain ⟨row, hrow, hga⟩ := List.mem_filterMap.1 ha
  have hnone : ((o.drop (m * n + n)).filterMap g).filter (fun b => ¬ r a b) = [] := by
    rw [List.filter_eq_nil_iff]
    intro b hb hab
    obtain ⟨row', hrow', hgb⟩ := List.mem_filterMap.1 hb
    have hmem := ho.perm.mem_iff.1 (List.mem_of_mem_take hrow)
    have hmem' := ho.perm.mem_iff.1 (List.mem_of_mem_drop hrow')
    have hstrict : ¬ c row row' := fun hc =>
      of_decide_eq_true hab (h.refines row hmem row' hmem' a b hga hgb hc)
    have hrank := rank_of_mem_take ho.sorted hrow
    have hle := rankEnd_le_rank rows hstrict
    rw [rank_perm ho.perm] at hrank
    have hshown := mem_shown (m := m) (n := n) ho hmem' hgb (hle.trans hrank.le)
    exact List.disjoint_of_nodup_append hnodup hshown hb
  rw [rank, rank, List.filter_append, hnone, List.append_nil]

omit [DecidableRel c] in
theorem rankEnd_shown_le (ho : Arranges c rows o) :
    rankEnd r (shownOf g n m o) a ≤ rankEnd r (rows.filterMap g) a := by
  rw [← rankEnd_perm (ho.perm.filterMap g), filterMap_split (n := n) (m := m) o]
  exact rankEnd_sublist (List.sublist_append_left _ _) a

variable [Std.Total c] [IsTrans ρ c] [Std.Total r] [IsTrans β r] [Std.Refl c] [Std.Refl r]

theorem eq_of_page_bounds {p : Nat} (hle : p * n < m * n + n) (hge : m * n < p * n + n) : m = p := by
  rw [← Nat.succ_mul] at hle hge
  have hle := Nat.lt_of_mul_lt_mul_right hle
  have hge := Nat.lt_of_mul_lt_mul_right hge
  omega

omit [DecidableRel c] [Std.Total c] [IsTrans ρ c] [Std.Refl c] in
theorem rankEnd_pos (ha : a ∈ rows.filterMap g) : 0 < rankEnd r (rows.filterMap g) a :=
  (Nat.zero_le _).trans_lt (rank_lt_rankEnd ha)

omit [Std.Total r] [IsTrans β r] in
theorem partition_of_onePage [DecidableEq β] (h : PagedListing c r g rows n Page)
    (hone : ∀ row ∈ rows, ∀ a, g row = some a → OnePage c r g rows n row a) :
    PagesPartition Page (rows.filterMap g) := by
  intro pages hpages a ha
  obtain ⟨row, hrow, hga⟩ := List.mem_filterMap.1 ha
  obtain ⟨htie, hcandidate⟩ := hone row hrow a hga
  have hstart := Nat.div_mul_le_self (rank r (rows.filterMap g) a) n
  have hend := Nat.lt_div_mul_add (a := rankEnd r (rows.filterMap g) a - 1) h.pos
  have hchosen := Nat.lt_div_mul_add (a := rankEnd c rows row - 1) h.pos
  have hmul := Nat.mul_le_mul_right n hcandidate
  rw [htie] at hend
  generalize rank r (rows.filterMap g) a / n = p at *
  refine ⟨p, ?_, ?_⟩
  · obtain ⟨o, ordered, ho, hordered, hshown⟩ := h.arranges p (pages p) (hpages p)
    have haShown : a ∈ shownOf g n p o := mem_shown ho hrow hga (by omega)
    have hrank := h.rank_shown ho haShown
    have hrankEnd := rankEnd_shown_le (r := r) (g := g) (n := n) (m := p) (a := a) ho
    rw [← rank_perm hordered.perm] at hrank
    rw [← rankEnd_perm hordered.perm] at hrankEnd
    rw [hshown]
    apply List.count_eq_one_of_mem
    · exact (hordered.perm.nodup_iff.2 (h.shown_nodup ho)).sublist
        ((List.take_sublist _ _).trans (List.drop_sublist _ _))
    · exact mem_page hordered.sorted (hordered.perm.mem_iff.2 haShown) (by omega) (by omega)
  · intro m hm
    obtain ⟨o, ordered, ho, hordered, hshown⟩ := h.arranges m (pages m) (hpages m)
    rw [hshown] at hm
    have haShown := hordered.perm.mem_iff.1 (List.mem_of_mem_drop (List.mem_of_mem_take hm))
    obtain ⟨hge, hlt⟩ := rank_of_mem_page hordered.sorted hm
    rw [rank_perm hordered.perm, h.rank_shown ho haShown] at hlt
    rw [rankEnd_perm hordered.perm] at hge
    have hrankEnd := rankEnd_shown_le (r := r) (g := g) (n := n) (m := m) (a := a) ho
    exact eq_of_page_bounds (n := n) (by omega) (by omega)

omit [Std.Total r] [IsTrans β r] [Std.Refl c] [Std.Refl r] in
/-- Put a candidate behind its ties, and what it gives before its own: it is on a page only if it
is still chosen for the page of its rank. -/
theorem rankEnd_le_of_partition [DecidableEq ρ] [DecidableEq β]
    (h : PagedListing c r g rows n Page) (hpages : PagesPartition Page (rows.filterMap g))
    (hrow : row ∈ rows) (hga : g row = some a) :
    (rankEnd c rows row - 1) / n ≤ rank r (rows.filterMap g) a / n := by
  obtain ⟨before, after, ho, hlast⟩ := exists_arranges_last (r := c) hrow
  have hchoice : ∀ m, ∃ shown, Page m shown ∧ shown ⊆ shownOf g n m (before ++ row :: after) ∧
      (a ∈ shown → m * n ≤ rank r (rows.filterMap g) a ∧
        rank r (rows.filterMap g) a < m * n + n) := by
    intro m
    by_cases ha : a ∈ shownOf g n m (before ++ row :: after)
    · obtain ⟨shown, hpage, hsub, hmem⟩ := h.first m _ a ho ha
      rw [h.rank_shown ho ha] at hmem
      exact ⟨shown, hpage, hsub, hmem.1⟩
    · obtain ⟨shown, hpage, hsub⟩ := h.exists_page m _ ho
      exact ⟨shown, hpage, hsub, fun hmem => absurd (hsub hmem) ha⟩
  choose pages hpage hsub hrank using hchoice
  obtain ⟨m, hcount, -⟩ := hpages pages hpage a (List.mem_filterMap.2 ⟨row, hrow, hga⟩)
  have hmem : a ∈ pages m := List.count_pos_iff.1 (by omega)
  obtain ⟨hle, hlt⟩ := hrank m hmem
  obtain ⟨row', hrow', hga'⟩ := List.mem_filterMap.1 (hsub m hmem)
  obtain rfl : row' = row :=
    h.injective _ (ho.perm.mem_iff.1 (List.mem_of_mem_take hrow')) _ hrow a hga' hga
  have hbefore : before.length < m * n + n := by
    by_contra hle
    rw [List.take_append_of_le_length (by omega)] at hrow'
    exact List.disjoint_of_nodup_append (ho.perm.nodup_iff.2 h.rows_nodup)
      (List.mem_of_mem_take hrow') List.mem_cons_self
  have hrankEnd : rankEnd c rows row' ≤ before.length + 1 := by
    have hnone : after.filter (fun other => c other row') = [] := by
      rw [List.filter_eq_nil_iff]
      intro other hother
      simpa using hlast other hother
    have hfilter := List.length_filter_le (fun other => decide (c other row')) before
    rw [← rankEnd_perm ho.perm, rankEnd, List.filter_append, List.filter_cons, hnone,
      List.length_append]
    split <;> simp <;> omega
  have hm : rank r (rows.filterMap g) a / n = m := by
    rw [Nat.div_eq_iff h.pos]
    omega
  rw [hm, Nat.div_le_iff_le_mul_add_pred h.pos]
  rw [Nat.mul_comm]
  omega

omit [Std.Total r] [Std.Refl r] in
theorem rank_mono {l : List β} {b : β} (hba : r b a) : rank r l b ≤ rank r l a := by
  apply (List.monotone_filter_right l _).length_le
  intro d hd
  apply decide_eq_true
  intro hac
  exact of_decide_eq_true hd (trans_of r hba hac)

omit [Std.Total r] [Std.Refl r] in
/-- Where pages are a partition, all that ties with a row is chosen from its page on. -/
theorem rankEnd_shown [DecidableEq ρ] [DecidableEq β] (h : PagedListing c r g rows n Page)
    (hpages : PagesPartition Page (rows.filterMap g)) (ho : Arranges c rows o)
    (hm : rank r (rows.filterMap g) a / n ≤ m) :
    rankEnd r (shownOf g n m o) a = rankEnd r (rows.filterMap g) a := by
  have hnodup := h.filterMap_nodup ho
  rw [← rankEnd_perm (ho.perm.filterMap g), filterMap_split (n := n) (m := m) o] at *
  have hnone : ((o.drop (m * n + n)).filterMap g).filter (fun b => r b a) = [] := by
    rw [List.filter_eq_nil_iff]
    intro b hb hba
    obtain ⟨row, hrow, hgb⟩ := List.mem_filterMap.1 hb
    have hmem := ho.perm.mem_iff.1 (List.mem_of_mem_drop hrow)
    have hle := h.rankEnd_le_of_partition hpages hmem hgb
    have hrank := Nat.div_le_div_right (c := n)
      (rank_mono (l := rows.filterMap g) (of_decide_eq_true hba))
    have hmul := Nat.mul_le_mul_right n ((hle.trans hrank).trans hm)
    have hlt := Nat.lt_div_mul_add (a := rankEnd c rows row - 1) h.pos
    have hshown := mem_shown (m := m) (n := n) ho hmem hgb (by omega)
    exact List.disjoint_of_nodup_append hnodup hshown hb
  rw [rankEnd, rankEnd, List.filter_append, hnone, List.append_nil]

theorem onePage_of_partition [DecidableEq ρ] [DecidableEq β]
    (h : PagedListing c r g rows n Page) (hpages : PagesPartition Page (rows.filterMap g))
    (hrow : row ∈ rows) (hga : g row = some a) : OnePage c r g rows n row a := by
  have hcandidate := h.rankEnd_le_of_partition hpages hrow hga
  refine ⟨?_, hcandidate⟩
  have ha : a ∈ rows.filterMap g := List.mem_filterMap.2 ⟨row, hrow, hga⟩
  have hlt := rank_lt_rankEnd (r := r) ha
  have hle := Nat.div_le_div_right (c := n)
    (show rank r (rows.filterMap g) a ≤ rankEnd r (rows.filterMap g) a - 1 by omega)
  have hmul := Nat.mul_le_mul_right n hcandidate
  have hchosen := Nat.lt_div_mul_add (a := rankEnd c rows row - 1) h.pos
  have hrank := Nat.div_mul_le_self (rank r (rows.filterMap g) a) n
  have hrankLt := Nat.lt_div_mul_add (a := rank r (rows.filterMap g) a) h.pos
  have hend := Nat.div_mul_le_self (rankEnd r (rows.filterMap g) a - 1) n
  have hendLt := Nat.lt_div_mul_add (a := rankEnd r (rows.filterMap g) a - 1) h.pos
  obtain ⟨o, ho⟩ := exists_arranges (r := c) rows
  have hsame := h.rankEnd_shown hpages ho hle
  generalize rank r (rows.filterMap g) a / n = p at *
  generalize (rankEnd r (rows.filterMap g) a - 1) / n = q at *
  have hmulEnd := Nat.mul_le_mul_right n hle
  have hfirst : a ∈ shownOf g n p o := mem_shown ho hrow hga (by omega)
  have hlast : a ∈ shownOf g n q o := mem_shown ho hrow hga (by omega)
  -- On the page of its rank the row comes before its ties, on the last page of its ties behind them.
  obtain ⟨first, hpageFirst, -, hmemFirst⟩ := h.first p o a ho hfirst
  obtain ⟨last, hpageLast, hmemLast⟩ := h.last q o a ho hlast (by omega) (by omega)
  rw [h.rank_shown ho hfirst] at hmemFirst
  choose other hother using fun m => h.exists_page m o ho
  by_contra hne
  obtain ⟨m, -, hunique⟩ := hpages
    (fun m => if m = p then first else if m = q then last else other m) (by
      intro m
      by_cases hp : m = p
      · simpa [hp] using hpageFirst
      · by_cases hq : m = q
        · simpa [hp, hq, hne] using hpageLast
        · simpa [hp, hq] using (hother m).1) a ha
  have hp := hunique p (by simpa using hmemFirst.2 ⟨hrank, hrankLt⟩)
  have hq := hunique q (by simpa [hne] using hmemLast)
  exact hne (hq.trans hp.symm)

/-- The pages are a partition exactly if every row is on one page, whatever the order. -/
theorem partition_iff [DecidableEq ρ] [DecidableEq β] (h : PagedListing c r g rows n Page) :
    PagesPartition Page (rows.filterMap g) ↔
      ∀ row ∈ rows, ∀ a, g row = some a → OnePage c r g rows n row a :=
  ⟨fun hpages _ hrow _ hga => h.onePage_of_partition hpages hrow hga, h.partition_of_onePage⟩

end PagedListing

end KevinDb
