import KevinDb.Lib.OrderedForest
import Mathlib.Data.List.Count
import Mathlib.Data.Set.Card

namespace KevinDb
set_option autoImplicit true

/-- What a nested set records of a value: the ends of its interval, and its place in the forest. -/
structure NestedSetEntry (κ : Type) where
  value : κ
  parent : Option κ
  root : κ
  depth : Nat
  position : Nat
  left : Nat
  right : Nat
  below : Nat

namespace NestedSetEntry

/-- The interval of the first entry has that of the second one within it. -/
def Contains (outer inner : NestedSetEntry κ) : Prop :=
  outer.left < inner.left ∧ inner.right < outer.right

instance (outer inner : NestedSetEntry κ) : Decidable (outer.Contains inner) :=
  inferInstanceAs (Decidable (_ ∧ _))

theorem Contains.trans {a b c : NestedSetEntry κ} (hab : a.Contains b) (hbc : b.Contains c) :
    a.Contains c :=
  ⟨hab.1.trans hbc.1, hbc.2.trans hab.2⟩

theorem not_contains {a b : NestedSetEntry κ} (h : a.left < b.left) : ¬ b.Contains a :=
  fun hcontains => Nat.lt_asymm h hcontains.1

theorem not_contains_after {a b : NestedSetEntry κ} (h : a.right < b.left)
    (hb : b.left < b.right) : ¬ a.Contains b :=
  fun hcontains => Nat.lt_asymm (h.trans hb) hcontains.2

end NestedSetEntry

/-- Where a walk through a forest is. The root of the first level is the value itself. -/
structure ForestPlace (κ : Type) where
  parent : Option κ
  root : Option κ
  depth : Nat
  position : Nat
  left : Nat

namespace ForestPlace

def start : ForestPlace κ := ⟨none, none, 0, 0, 0⟩

def entry (place : ForestPlace κ) (value : κ) (below : Nat) : NestedSetEntry κ where
  value := value
  parent := place.parent
  root := place.root.getD value
  depth := place.depth
  position := place.position
  left := place.left
  right := place.left + 2 * below + 1
  below := below

/-- The place of the first child of a value. -/
def down (place : ForestPlace κ) (value : κ) : ForestPlace κ where
  parent := some value
  root := some (place.root.getD value)
  depth := place.depth + 1
  position := 0
  left := place.left + 1

/-- The place after a tree. -/
def next (place : ForestPlace κ) (below : Nat) : ForestPlace κ :=
  { place with position := place.position + 1, left := place.left + 2 * (below + 1) }

end ForestPlace

namespace OrderedForest

/-- The nested set of a forest. -/
def entries (place : ForestPlace κ) : OrderedForest κ → List (NestedSetEntry κ)
  | nil => []
  | cons value below rest => place.entry value below.size ::
    (below.entries (place.down value) ++ rest.entries (place.next below.size))

variable {forest : OrderedForest κ} {place : ForestPlace κ} {children : κ → List κ}
  {roots : List κ} {up : Parents κ} {a b entry : NestedSetEntry κ}

theorem values_entries (forest : OrderedForest κ) (place : ForestPlace κ) :
    (forest.entries place).map NestedSetEntry.value = forest.values := by
  induction forest generalizing place with
  | nil => rfl
  | cons value below rest ihBelow ihRest =>
    rw [entries, values, List.map_cons, List.map_append, ihBelow, ihRest]
    rfl

theorem length_entries (forest : OrderedForest κ) (place : ForestPlace κ) :
    (forest.entries place).length = forest.size := by
  induction forest generalizing place with
  | nil => rfl
  | cons value below rest ihBelow ihRest =>
    rw [entries, List.length_cons, List.length_append, ihBelow, ihRest, size]
    omega

/-- The intervals lie between the place and the end of the forest. -/
theorem entries_bounds (h : entry ∈ forest.entries place) : place.left ≤ entry.left ∧
    entry.left < entry.right ∧ entry.right < place.left + 2 * forest.size := by
  induction forest generalizing place with
  | nil => cases h
  | cons value below rest ihBelow ihRest =>
    rw [size]
    rw [entries, List.mem_cons, List.mem_append] at h
    rcases h with rfl | h | h
    · simp only [ForestPlace.entry]
      omega
    · have hbounds := ihBelow h
      simp only [ForestPlace.down] at hbounds
      omega
    · have hbounds := ihRest h
      simp only [ForestPlace.next] at hbounds
      omega

/-- The entry of the first root has those below it within it, and those of the other trees after
it. -/
theorem entry_contains_below {below : OrderedForest κ}
    (h : entry ∈ below.entries (place.down value)) :
    (place.entry value below.size).Contains entry := by
  have hbounds := entries_bounds h
  simp only [ForestPlace.down] at hbounds
  simp only [NestedSetEntry.Contains, ForestPlace.entry]
  omega

theorem entry_before_rest (n : Nat) (h : entry ∈ forest.entries (place.next n)) :
    (place.entry value n).right < entry.left := by
  have hbounds := entries_bounds h
  simp only [ForestPlace.next] at hbounds
  simp only [ForestPlace.entry]
  omega

theorem below_before_rest {below rest : OrderedForest κ}
    (ha : a ∈ below.entries (place.down value)) (hb : b ∈ rest.entries (place.next below.size)) :
    a.right < b.left := by
  have hbelow := entries_bounds ha
  have hrest := entries_bounds hb
  simp only [ForestPlace.down] at hbelow
  simp only [ForestPlace.next] at hrest
  omega

/-- The entries come in the order of their intervals, which are nested or apart. -/
theorem entries_pairwise (forest : OrderedForest κ) (place : ForestPlace κ) :
    (forest.entries place).Pairwise fun a b => a.Contains b ∨ a.right < b.left := by
  induction forest generalizing place with
  | nil => exact .nil
  | cons value below rest ihBelow ihRest =>
    rw [entries, List.pairwise_cons, List.pairwise_append]
    refine ⟨fun b hb => ?_, ihBelow _, ihRest _, fun a ha b hb => .inr (below_before_rest ha hb)⟩
    rcases List.mem_append.1 hb with hb | hb
    · exact .inl (entry_contains_below hb)
    · exact .inr (entry_before_rest _ hb)

theorem entries_pairwise_left (forest : OrderedForest κ) (place : ForestPlace κ) :
    (forest.entries place).Pairwise fun a b => a.left < b.left := by
  apply (entries_pairwise forest place).imp_of_mem
  intro a b ha _ h
  rcases h with h | h
  · exact h.1
  · exact (entries_bounds ha).2.1.trans h

/-- Different entries have intervals that are nested or apart. -/
theorem entries_nested (ha : a ∈ forest.entries place) (hb : b ∈ forest.entries place) :
    a = b ∨ a.Contains b ∨ b.Contains a ∨ a.right < b.left ∨ b.right < a.left := by
  have hpairs := entries_pairwise forest place
  refine List.Pairwise.forall_of_forall_of_flip (R := fun a b => a = b ∨ a.Contains b ∨
    b.Contains a ∨ a.right < b.left ∨ b.right < a.left) (fun a _ => .inl rfl) ?_ ?_ ha hb
  · apply hpairs.imp
    rintro a b (h | h)
    · exact .inr (.inl h)
    · exact .inr (.inr (.inr (.inl h)))
  · apply hpairs.imp
    rintro a b (h | h)
    · exact .inr (.inr (.inl h))
    · exact .inr (.inr (.inr (.inr h)))

/-- No two ends are the same. -/
theorem entries_ends_nodup (forest : OrderedForest κ) (place : ForestPlace κ) :
    ((forest.entries place).flatMap fun entry => [entry.left, entry.right]).Nodup := by
  rw [List.nodup_flatMap]
  constructor
  · intro entry hentry
    have hbounds := entries_bounds hentry
    rw [List.nodup_cons, List.mem_singleton]
    exact ⟨Nat.ne_of_lt hbounds.2.1, List.nodup_singleton _⟩
  · apply (entries_pairwise forest place).imp_of_mem
    intro a b ha hb h
    have hleft := entries_bounds ha
    have hright := entries_bounds hb
    simp only [NestedSetEntry.Contains] at h
    simp only [Function.onFun, List.disjoint_cons_left, List.mem_cons, List.not_mem_nil, or_false,
      List.disjoint_nil_left, and_true]
    omega

/-- An entry is one of the first level, or the entry of its parent has it within it. -/
theorem entries_parent (h : entry ∈ forest.entries place) :
    entry.parent = place.parent ∧ entry.depth = place.depth ∧
        entry.root = place.root.getD entry.value ∨
      ∃ outer ∈ forest.entries place, entry.parent = some outer.value ∧ outer.Contains entry ∧
        entry.depth = outer.depth + 1 ∧ entry.root = outer.root := by
  induction forest generalizing place with
  | nil => cases h
  | cons value below rest ihBelow ihRest =>
    rw [entries, List.mem_cons, List.mem_append] at h
    rcases h with rfl | h | h
    · exact .inl ⟨rfl, rfl, rfl⟩
    · refine .inr ?_
      rcases ihBelow h with ⟨hparent, hdepth, hroot⟩ | ⟨outer, houter, hentry⟩
      · exact ⟨_, List.mem_cons_self, hparent, entry_contains_below h, hdepth, hroot⟩
      · exact ⟨outer, List.mem_cons_of_mem _ (List.mem_append_left _ houter), hentry⟩
    · rcases ihRest h with hfirst | ⟨outer, houter, hentry⟩
      · exact .inl hfirst
      · exact .inr ⟨outer, List.mem_cons_of_mem _ (List.mem_append_right _ houter), hentry⟩

/-- An entry counts the entries within it. -/
theorem entries_below (h : entry ∈ forest.entries place) :
    (forest.entries place).countP (fun other => entry.Contains other) = entry.below := by
  induction forest generalizing place with
  | nil => cases h
  | cons value below rest ihBelow ihRest =>
    have hnone {others : List (NestedSetEntry κ)}
        (hothers : ∀ other ∈ others, ¬ entry.Contains other) :
        others.countP (fun other => entry.Contains other) = 0 :=
      List.countP_eq_zero.2 fun other hother => by simpa using hothers other hother
    rw [entries, List.mem_cons, List.mem_append] at h
    rw [entries, List.countP_cons, List.countP_append]
    rcases h with rfl | h | h
    · have hself : ¬ (place.entry value below.size).Contains (place.entry value below.size) :=
        fun hcontains => Nat.lt_irrefl _ hcontains.1
      have hall : (below.entries (place.down value)).countP
          (fun other => (place.entry value below.size).Contains other) = below.size := by
        refine (List.countP_eq_length.2 fun other hother => ?_).trans (length_entries below _)
        exact decide_eq_true (entry_contains_below hother)
      rw [hall, hnone fun other hother => NestedSetEntry.not_contains_after
        (entry_before_rest _ hother) (entries_bounds hother).2.1, if_neg (by simpa using hself)]
      rfl
    · have hfirst := NestedSetEntry.not_contains (entry_contains_below h).1
      rw [ihBelow h, hnone fun other hother => NestedSetEntry.not_contains_after
        (below_before_rest h hother) (entries_bounds hother).2.1, if_neg (by simpa using hfirst)]
      rfl
    · have hfirst : ¬ entry.Contains (place.entry value below.size) := by
        have hhead : place.entry value below.size ∈ (cons value below rest).entries place :=
          List.mem_cons_self
        exact NestedSetEntry.not_contains
          ((entries_bounds hhead).2.1.trans (entry_before_rest _ h))
      rw [ihRest h, hnone fun other hother => NestedSetEntry.not_contains
        ((entries_bounds hother).2.1.trans (below_before_rest hother h)),
        if_neg (by simpa using hfirst)]
      omega

section Up
variable (hup : ∀ a b, a ∈ children b → up a = some b)
include hup

/-- The entries record the parents of their values. -/
theorem Grows.entry_parent (h : Grows children roots forest)
    (hroots : ∀ root ∈ roots, up root = place.parent) (hentry : entry ∈ forest.entries place) :
    entry.parent = up entry.value := by
  induction h generalizing place with
  | nil => cases hentry
  | @cons value below roots rest hbelow hrest ihBelow ihRest =>
    rw [List.forall_mem_cons] at hroots
    have hrestRoots : ∀ root ∈ roots, up root = (place.next below.size).parent := hroots.2
    rw [entries, List.mem_cons, List.mem_append] at hentry
    rcases hentry with rfl | hentry | hentry
    · exact hroots.1.symm
    · exact ihBelow (fun child hchild => hup child value hchild) hentry
    · exact ihRest hrestRoots hentry

/-- What is within the interval of a value leads up to it. -/
theorem Grows.contains_reaches (h : Grows children roots forest) (place : ForestPlace κ) :
    (forest.entries place).Pairwise fun a b =>
      a.Contains b → Relation.TransGen up.Up b.value a.value := by
  induction h generalizing place with
  | nil => exact .nil
  | @cons value below roots rest hbelow hrest ihBelow ihRest =>
    rw [entries, List.pairwise_cons, List.pairwise_append]
    refine ⟨fun b hb hcontains => ?_, ihBelow _, ihRest _, fun a ha b hb hcontains => ?_⟩
    · rcases List.mem_append.1 hb with hb | hb
      · have hvalue : b.value ∈ below.values := by
          rw [← values_entries below (place.down value)]
          exact List.mem_map_of_mem hb
        obtain ⟨child, hchild, hreach⟩ := hbelow.reaches hup hvalue
        exact .tail' hreach (hup child value hchild)
      · exact absurd hcontains (NestedSetEntry.not_contains_after (entry_before_rest _ hb)
          (entries_bounds hb).2.1)
    · exact absurd hcontains (NestedSetEntry.not_contains_after (below_before_rest ha hb)
        (entries_bounds hb).2.1)

/-- The interval of a value has those of the values that lead up to it within it, and no others. -/
theorem Grows.contains_iff (h : Grows children roots forest) (hnodup : forest.values.Nodup)
    (hroots : ∀ root ∈ roots, up root = none) (ha : a ∈ forest.entries .start)
    (hb : b ∈ forest.entries .start) :
    a.Contains b ↔ Relation.TransGen up.Up b.value a.value := by
  rw [← values_entries forest .start] at hnodup
  have hunique := List.inj_on_of_nodup_map hnodup
  have hparent {entry : NestedSetEntry κ} (hentry : entry ∈ forest.entries .start) {value : κ}
      (hvalue : up entry.value = some value) :
      ∃ outer ∈ forest.entries .start, outer.value = value ∧ outer.Contains entry := by
    rw [← h.entry_parent hup hroots hentry] at hvalue
    rcases entries_parent hentry with ⟨hnone, -⟩ | ⟨outer, houter, hsome, hcontains, -⟩
    · rw [hnone] at hvalue
      cases hvalue
    · rw [hsome, Option.some.injEq] at hvalue
      exact ⟨outer, houter, hvalue, hcontains⟩
  constructor
  · intro hcontains
    have hall := List.Pairwise.forall_of_forall_of_flip (R := fun a b : NestedSetEntry κ =>
      a.Contains b → Relation.TransGen up.Up b.value a.value)
        (fun a _ hself => absurd hself.1 (Nat.lt_irrefl _)) (h.contains_reaches hup .start)
        ((entries_pairwise_left forest .start).imp fun hlt hcontains =>
          absurd hcontains (NestedSetEntry.not_contains hlt))
    exact hall ha hb hcontains
  · intro hreach
    generalize hvalue : b.value = value at hreach
    induction hreach using Relation.TransGen.head_induction_on generalizing b with
    | single hstep =>
      subst hvalue
      obtain ⟨outer, houter, heq, hcontains⟩ := hparent hb hstep
      rwa [hunique houter ha heq] at hcontains
    | head hstep _ ih =>
      subst hvalue
      obtain ⟨outer, houter, heq, hcontains⟩ := hparent hb hstep
      exact (ih houter heq).trans hcontains

/-- An entry counts the values that lead up to its value. -/
theorem Grows.entry_below (h : Grows children roots forest) (hnodup : forest.values.Nodup)
    (hroots : ∀ root ∈ roots, up root = none) (hchildren : ∀ a b, up a = some b → a ∈ children b)
    (hentry : entry ∈ forest.entries .start) :
    entry.below = Set.ncard {a | Relation.TransGen up.Up a entry.value} := by
  classical
  have hvalues := values_entries forest .start
  have hmem {a b : κ} (hreach : Relation.TransGen up.Up a b) (hb : b ∈ forest.values) :
      a ∈ forest.values := by
    induction hreach using Relation.TransGen.head_induction_on with
    | single hstep => exact h.children_subset hb (hchildren _ _ hstep)
    | head hstep _ ih => exact h.children_subset ih (hchildren _ _ hstep)
  have hbelow : {a | Relation.TransGen up.Up a entry.value} =
      ((((forest.entries .start).filter fun other => entry.Contains other).map
        NestedSetEntry.value).toFinset : Set κ) := by
    ext a
    simp only [Set.mem_ofPred_eq, List.coe_toFinset, List.mem_map, List.mem_filter,
      decide_eq_true_eq]
    constructor
    · intro hreach
      have ha : a ∈ forest.values := hmem hreach (hvalues ▸ List.mem_map_of_mem hentry)
      rw [← hvalues] at ha
      obtain ⟨other, hother, rfl⟩ := List.mem_map.1 ha
      exact ⟨other, ⟨hother, (h.contains_iff hup hnodup hroots hentry hother).2 hreach⟩, rfl⟩
    · rintro ⟨other, ⟨hother, hcontains⟩, rfl⟩
      exact (h.contains_iff hup hnodup hroots hentry hother).1 hcontains
  have hdistinct : (((forest.entries .start).filter fun other => entry.Contains other).map
      NestedSetEntry.value).Nodup :=
    (hvalues ▸ hnodup).sublist (List.filter_sublist.map _)
  rw [hbelow, Set.ncard_coe_finset, List.toFinset_card_of_nodup hdistinct, List.length_map,
    ← List.countP_eq_length_filter, entries_below hentry]

end Up

/-- The position of a value among the children of its parent, or among the roots. -/
theorem Grows.entry_position (h : Grows children roots forest)
    (hentry : entry ∈ forest.entries place) :
    (∃ value, entry.parent = some value ∧
        (children value)[entry.position]? = some entry.value) ∨
      entry.parent = place.parent ∧ ∃ n, entry.position = place.position + n ∧
        roots[n]? = some entry.value := by
  induction h generalizing place with
  | nil => cases hentry
  | @cons value below roots rest hbelow hrest ihBelow ihRest =>
    rw [entries, List.mem_cons, List.mem_append] at hentry
    rcases hentry with rfl | hentry | hentry
    · exact .inr ⟨rfl, 0, rfl, rfl⟩
    · rcases ihBelow hentry with hdeep | ⟨hparent, n, hposition, hchild⟩
      · exact .inl hdeep
      · refine .inl ⟨value, hparent, ?_⟩
        rw [hposition]
        show (children value)[0 + n]? = some entry.value
        rwa [Nat.zero_add]
    · rcases ihRest hentry with hdeep | ⟨hparent, n, hposition, hroot⟩
      · exact .inl hdeep
      · refine .inr ⟨hparent, n + 1, ?_, hroot⟩
        rw [hposition]
        simp only [ForestPlace.next]
        omega

/-- The depth and the root of a value are those of its path. -/
theorem Grows.entry_path (hup : ∀ a b, a ∈ children b → up a = some b)
    (h : Grows children roots forest) (hroots : ∀ root ∈ roots, up root = none)
    (hentry : entry ∈ forest.entries .start) : ∃ path, up.Path entry.value path ∧
      path.length = entry.depth + 1 ∧ path.getLast? = some entry.root := by
  generalize hdepth : entry.depth = depth
  induction depth generalizing entry with
  | zero =>
    have hparent := h.entry_parent hup hroots hentry
    rcases entries_parent hentry with ⟨hnone, -, hroot⟩ | ⟨outer, -, -, -, hdeep, -⟩
    · refine ⟨[entry.value], .root (hparent.symm.trans hnone), rfl, ?_⟩
      rw [hroot]
      rfl
    · rw [hdeep] at hdepth
      cases hdepth
  | succ depth ih =>
    have hparent := h.entry_parent hup hroots hentry
    rcases entries_parent hentry with ⟨-, hzero, -⟩ | ⟨outer, houter, hsome, -, hdeep, hroot⟩
    · rw [hzero] at hdepth
      cases hdepth
    · have hdepth' : outer.depth = depth := by omega
      obtain ⟨path, hpath, hlength, hlast⟩ := ih houter hdepth'
      refine ⟨entry.value :: path, .up (hparent.symm.trans hsome) hpath,
        congrArg (· + 1) hlength, ?_⟩
      rw [hroot, ← hlast]
      exact List.getLast?_cons_of_ne_nil (List.ne_nil_of_length_pos hpath.length_pos)

end OrderedForest

end KevinDb
