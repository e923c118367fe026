import KevinDb.Lib.Forest
import Mathlib.Data.List.Nodup

namespace KevinDb
set_option autoImplicit true

/-- A list of trees: the value of the first tree with its children, and the other trees. -/
inductive OrderedForest (κ : Type) where
  | nil
  | cons (value : κ) (below rest : OrderedForest κ)
deriving DecidableEq, Repr

namespace OrderedForest

def size : OrderedForest κ → Nat
  | nil => 0
  | cons _ below rest => below.size + 1 + rest.size

def height : OrderedForest κ → Nat
  | nil => 0
  | cons _ below rest => max (below.height + 1) rest.height

/-- The values, each before those below it. -/
def values : OrderedForest κ → List κ
  | nil => []
  | cons value below rest => value :: (below.values ++ rest.values)

def tops : OrderedForest κ → List κ
  | nil => []
  | cons value _ rest => value :: rest.tops

def append : OrderedForest κ → OrderedForest κ → OrderedForest κ
  | nil, others => others
  | cons value below rest, others => cons value below (rest.append others)

/-- A relation holds from every value to those directly below it. -/
def Edges (r : κ → κ → Prop) : OrderedForest κ → Prop
  | nil => True
  | cons value below rest => (∀ child ∈ below.tops, r value child) ∧ below.Edges r ∧ rest.Edges r

def map (f : κ → ν) : OrderedForest κ → OrderedForest ν
  | nil => nil
  | cons value below rest => cons (f value) (below.map f) (rest.map f)

/-- The trees of some values, in which every value has its children below it. -/
inductive Grows (children : κ → List κ) : List κ → OrderedForest κ → Prop
  | nil : Grows children [] nil
  | cons (hbelow : Grows children (children value) below) (hrest : Grows children roots rest) :
    Grows children (value :: roots) (cons value below rest)

variable {forest : OrderedForest κ} {children : κ → List κ} {roots : List κ} {up : Parents κ}
  {a b : κ}

theorem values_map (f : κ → ν) (forest : OrderedForest κ) :
    (forest.map f).values = forest.values.map f := by
  induction forest with
  | nil => rfl
  | cons value below rest ihBelow ihRest =>
    rw [map, values, values, ihBelow, ihRest, List.map_cons, List.map_append]

theorem tops_subset_values (forest : OrderedForest κ) : forest.tops ⊆ forest.values := by
  induction forest with
  | nil => exact List.nil_subset _
  | cons value below rest _ ihRest =>
    refine List.cons_subset.2 ⟨List.mem_cons_self, fun a ha => ?_⟩
    exact List.mem_cons_of_mem _ (List.mem_append_right _ (ihRest ha))

@[simp] theorem values_append (forest others : OrderedForest κ) :
    (forest.append others).values = forest.values ++ others.values := by
  induction forest with
  | nil => rfl
  | cons value below rest _ ihRest =>
    rw [append, values, values, ihRest, List.cons_append, List.append_assoc]

@[simp] theorem tops_append (forest others : OrderedForest κ) :
    (forest.append others).tops = forest.tops ++ others.tops := by
  induction forest with
  | nil => rfl
  | cons value below rest _ ihRest => rw [append, tops, tops, ihRest, List.cons_append]

theorem append_nil (forest : OrderedForest κ) : forest.append nil = forest := by
  induction forest with
  | nil => rfl
  | cons value below rest _ ihRest => rw [append, ihRest]

theorem Edges.append {r : κ → κ → Prop} {forest others : OrderedForest κ} (h : forest.Edges r)
    (h' : others.Edges r) : (forest.append others).Edges r := by
  induction forest with
  | nil => exact h'
  | cons value below rest _ ihRest => exact ⟨h.1, h.2.1, ihRest h.2.2⟩

theorem Edges.imp {r r' : κ → κ → Prop} {forest : OrderedForest κ} (h : forest.Edges r)
    (himp : ∀ a ∈ forest.values, ∀ b ∈ forest.values, r a b → r' a b) : forest.Edges r' := by
  induction forest with
  | nil => trivial
  | cons value below rest ihBelow ihRest =>
    rw [values] at himp
    refine ⟨fun child hchild => ?_, ihBelow h.2.1 ?_, ihRest h.2.2 ?_⟩
    · apply himp value List.mem_cons_self child _ (h.1 child hchild)
      exact List.mem_cons_of_mem _ (List.mem_append_left _ (tops_subset_values below hchild))
    · exact fun a ha b hb => himp a (List.mem_cons_of_mem _ (List.mem_append_left _ ha)) b
        (List.mem_cons_of_mem _ (List.mem_append_left _ hb))
    · exact fun a ha b hb => himp a (List.mem_cons_of_mem _ (List.mem_append_right _ ha)) b
        (List.mem_cons_of_mem _ (List.mem_append_right _ hb))

/-- The roots and the children of the values say what the forest is. -/
theorem Grows.unique (h : Grows children roots forest) (h' : Grows children roots forest') :
    forest = forest' := by
  induction h generalizing forest' with
  | nil =>
    cases h'
    rfl
  | cons _ _ ihBelow ihRest =>
    cases h' with
    | cons hbelow hrest => rw [ihBelow hbelow, ihRest hrest]

theorem Grows.congr {children' : κ → List κ} (h : Grows children roots forest)
    (hchildren : ∀ a ∈ forest.values, children a = children' a) :
    Grows children' roots forest := by
  induction h with
  | nil => exact .nil
  | cons hbelow hrest ihBelow ihRest =>
    rw [values, List.forall_mem_cons, List.forall_mem_append] at hchildren
    obtain ⟨hvalue, hchildrenBelow, hchildrenRest⟩ := hchildren
    refine .cons ?_ (ihRest hchildrenRest)
    rw [← hvalue]
    exact ihBelow hchildrenBelow

theorem Grows.roots_subset (h : Grows children roots forest) : roots ⊆ forest.values := by
  induction h with
  | nil => exact List.nil_subset _
  | cons hbelow hrest ihBelow ihRest =>
    refine List.cons_subset.2 ⟨List.mem_cons_self, fun a ha => ?_⟩
    exact List.mem_cons_of_mem _ (List.mem_append_right _ (ihRest ha))

theorem Grows.children_subset (h : Grows children roots forest) (ha : a ∈ forest.values) :
    children a ⊆ forest.values := by
  induction h with
  | nil => cases ha
  | cons hbelow hrest ihBelow ihRest =>
    intro b hb
    rw [values, List.mem_cons, List.mem_append] at ha ⊢
    rcases ha with rfl | ha | ha
    · exact .inr (.inl (hbelow.roots_subset hb))
    · exact .inr (.inl (ihBelow ha hb))
    · exact .inr (.inr (ihRest ha hb))

section Up
variable (hup : ∀ a b, a ∈ children b → up a = some b)
include hup

/-- The parents of a value lead up to a root. -/
theorem Grows.reaches (h : Grows children roots forest) (ha : a ∈ forest.values) :
    ∃ root ∈ roots, up.Reaches a root := by
  induction h with
  | nil => cases ha
  | @cons value below roots rest hbelow hrest ihBelow ihRest =>
    rw [values, List.mem_cons, List.mem_append] at ha
    rcases ha with rfl | ha | ha
    · exact ⟨a, List.mem_cons_self, .refl⟩
    · obtain ⟨child, hchild, hreach⟩ := ihBelow ha
      exact ⟨value, List.mem_cons_self, hreach.tail (hup child value hchild)⟩
    · obtain ⟨root, hroot, hreach⟩ := ihRest ha
      exact ⟨root, List.mem_cons_of_mem _ hroot, hreach⟩

/-- A value is a root, or it is below another value. -/
theorem Grows.up_values (h : Grows children roots forest) (ha : a ∈ forest.values) :
    a ∈ roots ∨ ∃ b ∈ forest.values, up a = some b := by
  induction h with
  | nil => cases ha
  | @cons value below roots rest hbelow hrest ihBelow ihRest =>
    rw [values, List.mem_cons, List.mem_append] at ha
    simp only [values, List.mem_cons, List.mem_append]
    rcases ha with rfl | ha | ha
    · exact .inl (.inl rfl)
    · rcases ihBelow ha with hchild | ⟨b, hb, hab⟩
      · exact .inr ⟨value, .inl rfl, hup a value hchild⟩
      · exact .inr ⟨b, .inr (.inl hb), hab⟩
    · rcases ihRest ha with hroot | ⟨b, hb, hab⟩
      · exact .inl (.inr hroot)
      · exact .inr ⟨b, .inr (.inr hb), hab⟩

/-- Among the values in their order, those with a parent are its children in their order. -/
theorem Grows.filter_up [DecidableEq κ] (h : Grows children roots forest)
    (hnodup : forest.values.Nodup) {top : Option κ} (hroots : ∀ root ∈ roots, up root = top)
    (htop : ∀ b ∈ forest.values, top ≠ some b) :
    forest.values.filter (fun a => up a = top) = roots ∧
      ∀ b ∈ forest.values, forest.values.filter (fun a => up a = some b) = children b := by
  induction h generalizing top with
  | nil => exact ⟨rfl, nofun⟩
  | @cons value below roots rest hbelow hrest ihBelow ihRest =>
    rw [values, List.nodup_cons, List.nodup_append] at hnodup
    rw [values, List.forall_mem_cons, List.forall_mem_append] at htop
    rw [List.forall_mem_cons] at hroots
    obtain ⟨hvalue, hnodupBelow, hnodupRest, hdisjoint⟩ := hnodup
    rw [List.mem_append, not_or] at hvalue
    obtain ⟨htopValue, htopBelow, htopRest⟩ := htop
    have hchildren : ∀ child ∈ children value, up child = some value :=
      fun child hchild => hup child value hchild
    obtain ⟨hbelowTop, hbelowUp⟩ := ihBelow hnodupBelow hchildren fun b hb heq =>
      hvalue.1 (Option.some.inj heq ▸ hb)
    obtain ⟨hrestTop, hrestUp⟩ := ihRest hnodupRest hroots.2 htopRest
    -- the parents of the values below the first root are that root or below it
    have hnotBelow {q : Option κ} (hq : q ≠ some value) (hq' : ∀ b ∈ below.values, q ≠ some b) :
        below.values.filter (fun a => up a = q) = [] := by
      rw [List.filter_eq_nil_iff]
      intro a ha heq
      have heq := of_decide_eq_true heq
      rcases hbelow.up_values hup ha with hchild | ⟨b, hb, hab⟩
      · exact hq (heq.symm.trans (hup a value hchild))
      · exact hq' b hb (heq.symm.trans hab)
    have hnotRest {q : Option κ} (hq : q ≠ top) (hq' : ∀ b ∈ rest.values, q ≠ some b) :
        rest.values.filter (fun a => up a = q) = [] := by
      rw [List.filter_eq_nil_iff]
      intro a ha heq
      have heq := of_decide_eq_true heq
      rcases hrest.up_values hup ha with hroot | ⟨b, hb, hab⟩
      · exact hq (heq.symm.trans (hroots.2 a hroot))
      · exact hq' b hb (heq.symm.trans hab)
    rw [values]
    constructor
    · rw [List.filter_cons_of_pos (p := fun a => up a = top) (decide_eq_true hroots.1),
        List.filter_append,
        hnotBelow htopValue htopBelow, hrestTop, List.nil_append]
    · have hfirst {b : κ} (hb : top ≠ some b) : ¬ decide (up value = some b) = true := by
        rw [hroots.1]
        exact fun h => hb (of_decide_eq_true h)
      intro b hb
      rcases List.mem_cons.1 hb with rfl | hb
      · rw [List.filter_cons_of_neg (p := fun a => up a = some b) (hfirst htopValue),
          List.filter_append, hbelowTop, hnotRest (Ne.symm htopValue) (fun c hc heq => hvalue.2 (Option.some.inj heq ▸ hc)),
          List.append_nil]
      · rcases List.mem_append.1 hb with hb | hb
        · rw [List.filter_cons_of_neg (p := fun a => up a = some b) (hfirst (htopBelow b hb)),
            List.filter_append, hbelowUp b hb, hnotRest (Ne.symm (htopBelow b hb))
              (fun c hc heq => hdisjoint b hb c hc (Option.some.inj heq)), List.append_nil]
        · rw [List.filter_cons_of_neg (p := fun a => up a = some b) (hfirst (htopRest b hb)),
            List.filter_append, hrestUp b hb, hnotBelow (fun heq => hvalue.2 (Option.some.inj heq ▸ hb))
              (fun c hc heq => hdisjoint c hc b hb (Option.some.inj heq).symm), List.nil_append]

/-- The path of a value ends with the path of its root. -/
theorem Grows.path_suffix (h : Grows children roots forest) (ha : a ∈ forest.values)
    (hpath : up.Path a path) : ∃ root ∈ roots, ∃ rest, up.Path root rest ∧ rest <:+ path := by
  obtain ⟨root, hroot, hreach⟩ := h.reaches hup ha
  refine ⟨root, hroot, ?_⟩
  clear h ha hroot
  induction hreach using Relation.ReflTransGen.head_induction_on generalizing path with
  | refl => exact ⟨path, hpath, List.suffix_rfl⟩
  | head hstep _ ih =>
    cases hpath with
    | root hnone =>
      rw [Parents.Up, hnone] at hstep
      cases hstep
    | up hsome hpath =>
      rw [Parents.Up, hsome] at hstep
      cases hstep
      obtain ⟨rest, hrest, hsuffix⟩ := ih hpath
      exact ⟨rest, hrest, hsuffix.trans (List.suffix_cons _ _)⟩

/-- The values below roots of one depth are distinct. -/
theorem Grows.values_nodup (h : Grows children roots forest) (hroots : roots.Nodup)
    (hchildren : ∀ a, (children a).Nodup) {depth : Nat}
    (hdepth : ∀ root ∈ roots, ∃ path, up.Path root path ∧ path.length = depth)
    (hpaths : ∀ a ∈ forest.values, ∃ path, up.Path a path) : forest.values.Nodup := by
  induction h generalizing depth with
  | nil => exact List.nodup_nil
  | @cons value below roots rest hbelow hrest ihBelow ihRest =>
    rw [List.nodup_cons] at hroots
    rw [List.forall_mem_cons] at hdepth
    rw [values, List.forall_mem_cons, List.forall_mem_append] at hpaths
    obtain ⟨⟨path, hpath, hlength⟩, hdepth⟩ := hdepth
    obtain ⟨-, hpathsBelow, hpathsRest⟩ := hpaths
    have hchild : ∀ child ∈ children value, up.Path child (child :: path) :=
      fun child hchild => .up (hup child value hchild) hpath
    -- the path of a value below the first root goes on to the root
    have hsuffixBelow : ∀ a ∈ below.values, ∀ path', up.Path a path' →
        path <:+ path' ∧ depth < path'.length := by
      intro a ha path' hpath'
      obtain ⟨child, hmem, rest', hrest', hsuffix⟩ := hbelow.path_suffix hup ha hpath'
      rw [hrest'.unique (hchild child hmem)] at hsuffix
      refine ⟨(List.suffix_cons _ _).trans hsuffix, ?_⟩
      have hle := hsuffix.length_le
      rw [List.length_cons, hlength] at hle
      exact hle
    have hother : ∀ a ∈ rest.values, ∀ path', up.Path a path' → ¬ path <:+ path' := by
      intro a ha path' hpath' hsuffix
      obtain ⟨root, hroot, path'', hpath'', hsuffix'⟩ := hrest.path_suffix hup ha hpath'
      obtain ⟨pathUp, hpathUp, hlengthUp⟩ := hdepth root hroot
      have heq : path'' = path := by
        rw [hpath''.unique hpathUp] at hsuffix' ⊢
        apply List.IsSuffix.eq_of_length _ (hlengthUp.trans hlength.symm)
        exact List.suffix_of_suffix_length_le hsuffix' hsuffix
          (Nat.le_of_eq (hlengthUp.trans hlength.symm))
      rw [heq] at hpath''
      rw [hpath.head_unique hpath''] at hroots
      exact hroots.1 hroot
    refine List.nodup_cons.2 ⟨?_, List.nodup_append.2 ⟨?_, ?_, ?_⟩⟩
    · intro hmem
      rcases List.mem_append.1 hmem with hmem | hmem
      · exact Nat.lt_irrefl _ (hlength ▸ (hsuffixBelow value hmem path hpath).2)
      · exact hother value hmem path hpath List.suffix_rfl
    · exact ihBelow (hchildren value) (fun child hmem => ⟨_, hchild child hmem,
        congrArg (· + 1) hlength⟩) hpathsBelow
    · exact ihRest hroots.2 hdepth hpathsRest
    · rintro a ha b hb rfl
      obtain ⟨path', hpath'⟩ := hpathsBelow a ha
      exact hother a hb path' hpath' (hsuffixBelow a ha path' hpath').1

end Up

/-- Every value whose path ends at a root is in the forest. -/
theorem Grows.mem_values (h : Grows children roots forest) (hpath : up.Path a path)
    (hroots : ∀ b ∈ path, up b = none → b ∈ roots)
    (hchildren : ∀ a b, up a = some b → a ∈ children b) : a ∈ forest.values := by
  induction hpath with
  | root hnone => exact h.roots_subset (hroots _ (List.mem_singleton_self _) hnone)
  | up hsome hpath ih =>
    have hparent := ih fun b hb => hroots b (List.mem_cons_of_mem _ hb)
    exact h.children_subset hparent (hchildren _ _ hsome)

/-- Values at a depth grow a forest that reaches down to the greatest depth. -/
theorem exists_grows {nodes : List κ} {bound : Nat} (hup : ∀ a b, a ∈ children b → up a = some b)
    (hnodes : ∀ a, children a ⊆ nodes)
    (hbound : ∀ a ∈ nodes, ∀ path, up.Path a path → path.length ≤ bound) {levels depth : Nat}
    (hlevels : levels + depth = bound + 1) (hroots : roots ⊆ nodes)
    (hdepth : ∀ root ∈ roots, ∃ path, up.Path root path ∧ path.length = depth) :
    ∃ forest, Grows children roots forest ∧ forest.height ≤ levels := by
  induction levels generalizing roots depth with
  | zero =>
    cases roots with
    | nil => exact ⟨.nil, .nil, Nat.le_refl _⟩
    | cons root roots =>
      obtain ⟨path, hpath, hlength⟩ := hdepth root List.mem_cons_self
      have hle := hbound root (hroots List.mem_cons_self) path hpath
      omega
  | succ levels ih =>
    induction roots with
    | nil => exact ⟨.nil, .nil, Nat.zero_le _⟩
    | cons root roots ihRoots =>
      rw [List.cons_subset] at hroots
      rw [List.forall_mem_cons] at hdepth
      obtain ⟨rest, hrest, hheight⟩ := ihRoots hroots.2 hdepth.2
      obtain ⟨⟨path, hpath, hlength⟩, -⟩ := hdepth
      have hchildren : ∀ child ∈ children root, ∃ path, up.Path child path ∧
          path.length = depth + 1 := fun child hchild =>
        ⟨_, .up (hup child root hchild) hpath, congrArg (· + 1) hlength⟩
      obtain ⟨below, hbelow, hheight'⟩ := ih (by omega) (hnodes root) hchildren
      exact ⟨.cons root below rest, .cons hbelow hrest,
        max_le (Nat.succ_le_succ hheight') hheight⟩

end OrderedForest

end KevinDb
