import Mathlib.Data.Set.Finite.Basic
import Mathlib.Data.Fintype.Card
import Mathlib.Logic.Relation
import Mathlib.Order.WellFounded

namespace KevinDb
set_option autoImplicit true

/-- The parent of a node, if it has one. -/
abbrev Parents (κ : Type) := κ → Option κ

namespace Parents

/-- One step from a node to its parent. -/
def Up (parent : Parents κ) (a b : κ) : Prop := parent a = some b

/-- Following parents from the first node leads to the second. -/
abbrev Reaches (parent : Parents κ) : κ → κ → Prop := Relation.ReflTransGen (Up parent)

/-- The path from a node up to the last one of its ancestors. -/
inductive Path (parent : Parents κ) : κ → List κ → Prop
  | root (h : parent a = none) : Path parent a [a]
  | up (h : parent a = some b) (hb : Path parent b path) : Path parent a (a :: path)

variable {parent : Parents κ} {a b : κ}

theorem Path.unique (h : Path parent a path) (h' : Path parent a path') : path = path' := by
  induction h generalizing path' with
  | root hnone =>
    cases h' with
    | root => rfl
    | up hsome =>
      rw [hnone] at hsome
      cases hsome
  | up hsome hb ih =>
    cases h' with
    | root hnone =>
      rw [hnone] at hsome
      cases hsome
    | up hsome' hb' =>
      rw [hsome] at hsome'
      cases hsome'
      rw [ih hb']

theorem Path.head_unique (h : Path parent a path) (h' : Path parent b path) : a = b := by
  cases h with
  | root =>
    cases h' with
    | root => rfl
    | up _ hb => cases hb
  | up =>
    cases h' with
    | root => rfl
    | up => rfl

/-- The ancestors of a node have shorter paths. -/
theorem Path.suffix (h : Path parent a path) (hmem : b ∈ path) :
    ∃ rest, rest <:+ path ∧ Path parent b rest := by
  induction h with
  | root hnone =>
    rw [List.mem_singleton] at hmem
    subst hmem
    exact ⟨_, List.suffix_rfl, .root hnone⟩
  | up hsome hpath ih =>
    rcases List.mem_cons.1 hmem with rfl | hmem
    · exact ⟨_, List.suffix_rfl, .up hsome hpath⟩
    · obtain ⟨rest, hrest, hb⟩ := ih hmem
      exact ⟨rest, hrest.trans (List.suffix_cons _ _), hb⟩

theorem Path.nodup (h : Path parent a path) : path.Nodup := by
  induction h with
  | root => exact List.nodup_singleton _
  | up hsome hpath ih =>
    rw [List.nodup_cons]
    refine ⟨fun hmem => ?_, ih⟩
    obtain ⟨rest, hrest, ha⟩ := hpath.suffix hmem
    have hlength := hrest.length_le
    rw [ha.unique (.up hsome hpath), List.length_cons] at hlength
    omega

theorem Path.length_pos (h : Path parent a path) : 0 < path.length := by
  cases h with
  | root => exact Nat.zero_lt_one
  | up => exact Nat.zero_lt_succ _

theorem Path.mem (h : Path parent a path) : a ∈ path := by
  cases h with
  | root => exact List.mem_singleton_self a
  | up => exact List.mem_cons_self

/-- All nodes of a path but its last have a parent. -/
theorem Path.mem_cases (h : Path parent a path) (hmem : b ∈ path) :
    parent b = none ∨ ∃ c ∈ path, parent b = some c := by
  induction h with
  | root hnone =>
    rw [List.mem_singleton] at hmem
    subst hmem
    exact .inl hnone
  | up hsome hpath ih =>
    rcases List.mem_cons.1 hmem with rfl | hmem
    · exact .inr ⟨_, List.mem_cons_of_mem _ hpath.mem, hsome⟩
    · rcases ih hmem with hnone | ⟨c, hc, hb⟩
      · exact .inl hnone
      · exact .inr ⟨c, List.mem_cons_of_mem _ hc, hb⟩

/-- A path stays within a set of nodes that has all their parents. -/
theorem Path.subset {nodes : List κ} (h : Path parent a path)
    (hclosed : ∀ a ∈ nodes, ∀ b, parent a = some b → b ∈ nodes) (ha : a ∈ nodes) :
    path ⊆ nodes := by
  induction h with
  | root => exact List.cons_subset.2 ⟨ha, List.nil_subset nodes⟩
  | up hsome _ ih => exact List.cons_subset.2 ⟨ha, ih (hclosed _ ha _ hsome)⟩

/-- A path has one last node. -/
theorem Path.root_unique (h : Path parent a path) (hb : b ∈ path) (hc : c ∈ path)
    (hbNone : parent b = none) (hcNone : parent c = none) : b = c := by
  obtain ⟨rest, hrest, hpath⟩ := h.suffix hb
  obtain ⟨rest', hrest', hpath'⟩ := h.suffix hc
  rw [hpath.unique (.root hbNone)] at hrest
  rw [hpath'.unique (.root hcNone)] at hrest'
  have hlast : path.getLast? = some b := by
    obtain ⟨front, rfl⟩ := hrest
    exact List.getLast?_concat
  obtain ⟨front, rfl⟩ := hrest'
  rw [List.getLast?_concat] at hlast
  exact (Option.some.inj hlast).symm

theorem Path.length_lt (ha : Path parent a path) (h : Relation.TransGen (Up parent) a b)
    (hb : Path parent b path') : path'.length < path.length := by
  induction h using Relation.TransGen.head_induction_on generalizing path with
  | single hstep =>
    cases ha with
    | root hnone =>
      rw [Up, hnone] at hstep
      cases hstep
    | up hsome hnext =>
      rw [Up, hsome] at hstep
      cases hstep
      rw [hnext.unique hb]
      exact Nat.lt_succ_self _
  | head hstep _ ih =>
    cases ha with
    | root hnone =>
      rw [Up, hnone] at hstep
      cases hstep
    | up hsome hnext =>
      rw [Up, hsome] at hstep
      cases hstep
      exact (ih hnext).trans (Nat.lt_succ_self _)

/-- What has a path is on no cycle. -/
theorem Path.not_transGen (h : Path parent a path) : ¬ Relation.TransGen (Up parent) a a :=
  fun hcycle => Nat.lt_irrefl _ (h.length_lt hcycle h)

/-- Among finitely many nodes without a cycle every node has a path. -/
theorem exists_path (nodes : List κ) (hclosed : ∀ a ∈ nodes, ∀ b, parent a = some b → b ∈ nodes)
    (hacyclic : ∀ a ∈ nodes, ∀ b, parent a = some b → ¬ Reaches parent b a) (ha : a ∈ nodes) :
    ∃ path, Path parent a path := by
  let below (c d : {a // a ∈ nodes}) : Prop := Relation.TransGen (Up parent) d.1 c.1
  have hfinite : Finite {a // a ∈ nodes} := List.finite_toSet nodes
  have htrans : IsTrans _ below := ⟨fun c d e hcd hde => hde.trans hcd⟩
  have hirrefl : Std.Irrefl below := by
    constructor
    rintro ⟨c, hc⟩ hloop
    obtain ⟨d, hstep, hback⟩ := Relation.TransGen.head'_iff.1 hloop
    exact hacyclic c hc d hstep hback
  have hwf : WellFounded below := Finite.wellFounded_of_trans_of_irrefl below
  suffices h : ∀ node : {a // a ∈ nodes}, ∃ path, Path parent node.1 path from h ⟨a, ha⟩
  intro node
  induction node using hwf.induction with
  | _ node ih =>
    cases hparent : parent node.1 with
    | none => exact ⟨_, .root hparent⟩
    | some b =>
      obtain ⟨path, hpath⟩ := ih ⟨b, hclosed node.1 node.2 b hparent⟩ (.single hparent)
      exact ⟨_, .up hparent hpath⟩

/-- The parents below a node. -/
def cut [DecidableEq κ] (parent : Parents κ) (top : κ) : Parents κ :=
  fun a => if a = top then none else parent a

/-- What reaches a node has a path that ends there. -/
theorem Reaches.path_cut [DecidableEq κ] (h : Reaches parent a b) :
    ∃ path, Path (cut parent b) a path ∧ b ∈ path := by
  induction h using Relation.ReflTransGen.head_induction_on with
  | refl => exact ⟨[b], .root (if_pos rfl), List.mem_singleton_self b⟩
  | @head a c hstep hreach ih =>
    by_cases hab : a = b
    · subst hab
      exact ⟨[a], .root (if_pos rfl), List.mem_singleton_self a⟩
    · obtain ⟨path, hpath, hmem⟩ := ih
      exact ⟨_, .up ((if_neg hab).trans hstep) hpath, List.mem_cons_of_mem _ hmem⟩

end Parents

end KevinDb
