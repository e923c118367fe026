import Mathlib.Data.List.Nodup
import Mathlib.Logic.Function.Basic
import Mathlib.Tactic.Common

namespace KevinDb
set_option autoImplicit true

variable {κ β : Type} [DecidableEq κ]

/-- The ways to choose a value for each of some keys, later choices for a key replacing earlier
ones. -/
def choices (values : κ → List β) : List κ → (κ → Option β) → List (κ → Option β)
  | [], chosen => [chosen]
  | key :: keys, chosen =>
    (values key).flatMap fun value => choices values keys (Function.update chosen key (some value))

/-- No key has two ways to make a choice that come to the same. -/
def ChoosesOnce (values : κ → List β) (keys : List κ) : Prop :=
  ∀ key ∈ keys, (values key).Nodup ∧ (keys.count key ≤ 1 ∨ (values key).length ≤ 1)

variable {values : κ → List β} {keys : List κ} {key : κ}

/-- A choice that is replaced does not matter. -/
theorem choices_update (hkey : key ∈ keys) (chosen : κ → Option β) (value : Option β) :
    choices values keys (Function.update chosen key value) = choices values keys chosen := by
  induction keys generalizing chosen with
  | nil => cases hkey
  | cons first keys ih =>
    rw [choices, choices]
    apply List.flatMap_congr
    intro other _
    by_cases hfirst : first = key
    · rw [hfirst, Function.update_idem]
    · rw [Function.update_comm (Ne.symm hfirst)]
      exact ih ((List.mem_cons.1 hkey).resolve_left (Ne.symm hfirst)) _

theorem choices_ne_nil (hvalues : ∀ key ∈ keys, values key ≠ []) (chosen : κ → Option β) :
    choices values keys chosen ≠ [] := by
  induction keys generalizing chosen with
  | nil => exact List.cons_ne_nil _ _
  | cons first keys ih =>
    obtain ⟨hfirst, hkeys⟩ := List.forall_mem_cons.1 hvalues
    obtain ⟨value, rest, hvalue⟩ := List.exists_cons_of_ne_nil hfirst
    rw [choices, hvalue, List.flatMap_cons]
    exact List.append_ne_nil_of_left_ne_nil (ih hkeys _) _

theorem choices_eq_nil (hkey : key ∈ keys) (hvalues : values key = []) (chosen : κ → Option β) :
    choices values keys chosen = [] := by
  induction keys generalizing chosen with
  | nil => cases hkey
  | cons first keys ih =>
    rw [choices]
    rcases List.mem_cons.1 hkey with rfl | hkey
    · rw [hvalues, List.flatMap_nil]
    · rw [List.flatMap_eq_nil_iff]
      exact fun value _ => ih hkey _

/-- A key that is not chosen for keeps its choice. -/
theorem apply_of_mem_choices (hkey : key ∉ keys) {chosen result : κ → Option β}
    (hresult : result ∈ choices values keys chosen) : result key = chosen key := by
  induction keys generalizing chosen with
  | nil => rw [List.mem_singleton.1 hresult]
  | cons first keys ih =>
    rw [List.mem_cons, not_or] at hkey
    obtain ⟨hfirst, hkeys⟩ := hkey
    obtain ⟨value, -, hmem⟩ := List.mem_flatMap.1 hresult
    rw [ih hkeys hmem, Function.update_of_ne hfirst]

theorem choosesOnce_cons (hkeys : ChoosesOnce values keys)
    (hkey : if key ∈ keys then (values key).length ≤ 1 else (values key).Nodup) :
    ChoosesOnce values (key :: keys) := by
  intro other hother
  by_cases hmem : key ∈ keys
  · rw [if_pos hmem] at hkey
    by_cases heq : key = other
    · subst heq
      exact ⟨(hkeys key hmem).1, .inr hkey⟩
    · rw [List.count_cons_of_ne heq]
      exact hkeys other ((List.mem_cons.1 hother).resolve_left (Ne.symm heq))
  · rw [if_neg hmem] at hkey
    by_cases heq : key = other
    · subst heq
      rw [List.count_cons_self, List.count_eq_zero_of_not_mem hmem]
      exact ⟨hkey, .inl (Nat.le_refl 1)⟩
    · rw [List.count_cons_of_ne heq]
      exact hkeys other ((List.mem_cons.1 hother).resolve_left (Ne.symm heq))

theorem ChoosesOnce.tail (h : ChoosesOnce values (key :: keys)) : ChoosesOnce values keys := by
  intro other hother
  obtain ⟨hnodup, hcount⟩ := h other (List.mem_cons_of_mem key hother)
  exact ⟨hnodup, hcount.imp_left (Nat.le_trans List.count_le_count_cons)⟩

theorem ChoosesOnce.head (h : ChoosesOnce values (key :: keys)) :
    if key ∈ keys then (values key).length ≤ 1 else (values key).Nodup := by
  obtain ⟨hnodup, hcount⟩ := h key List.mem_cons_self
  split
  · next hmem =>
    rw [List.count_cons_self] at hcount
    have hpos := List.count_pos_iff.2 hmem
    exact hcount.resolve_left (by omega)
  · exact hnodup

/-- Different choices for a key that is not chosen for again come to different ends, others to the
same. -/
theorem choices_disjoint (hvalues : ∀ key ∈ keys, values key ≠ []) (chosen : κ → Option β)
    (value other : β) :
    List.Disjoint (choices values keys (Function.update chosen key (some value)))
        (choices values keys (Function.update chosen key (some other))) ↔
      key ∉ keys ∧ value ≠ other := by
  constructor
  · intro hdisjoint
    obtain ⟨result, hresult⟩ := List.exists_mem_of_ne_nil _
      (choices_ne_nil hvalues (Function.update chosen key (some value)))
    constructor
    · intro hmem
      rw [choices_update hmem, choices_update hmem] at hdisjoint
      rw [choices_update hmem] at hresult
      exact hdisjoint hresult hresult
    · rintro rfl
      exact hdisjoint hresult hresult
  · rintro ⟨hkey, hne⟩ result hvalue hother
    have hfirst := apply_of_mem_choices hkey hvalue
    have hsecond := apply_of_mem_choices hkey hother
    rw [Function.update_self] at hfirst hsecond
    exact hne (Option.some.inj (hfirst.symm.trans hsecond))

/-- If there is a choice for every key, all of them differ exactly if each comes up once. -/
theorem nodup_choices (hvalues : ∀ key ∈ keys, values key ≠ []) (chosen : κ → Option β) :
    (choices values keys chosen).Nodup ↔ ChoosesOnce values keys := by
  induction keys generalizing chosen with
  | nil => exact iff_of_true (List.nodup_singleton _) nofun
  | cons key keys ih =>
    obtain ⟨hkey, hkeys⟩ := List.forall_mem_cons.1 hvalues
    rw [choices, List.nodup_flatMap]
    have hpairs : (values key).Pairwise (Function.onFun List.Disjoint fun value =>
        choices values keys (Function.update chosen key (some value))) ↔
          if key ∈ keys then (values key).length ≤ 1 else (values key).Nodup := by
      have hrel : (Function.onFun List.Disjoint fun value =>
          choices values keys (Function.update chosen key (some value))) =
            fun value other => key ∉ keys ∧ value ≠ other := by
        funext value other
        exact propext (choices_disjoint hkeys chosen value other)
      rw [hrel]
      split
      · next hmem =>
        constructor
        · intro hpairwise
          match hlist : values key, hpairwise with
          | [], _ => exact Nat.zero_le 1
          | [value], _ => exact Nat.le_refl 1
          | value :: other :: rest, hpairwise =>
            exact absurd hmem ((List.pairwise_cons.1 hpairwise).1 other List.mem_cons_self).1
        · intro hlength
          match hlist : values key with
          | [] => exact List.Pairwise.nil
          | [value] => exact List.pairwise_singleton _ _
          | value :: other :: rest =>
            rw [hlist, List.length_cons, List.length_cons] at hlength
            omega
      · next hmem =>
        rw [List.Nodup]
        constructor
        · exact fun h => h.imp And.right
        · exact fun h => h.imp fun hne => ⟨hmem, hne⟩
    constructor
    · rintro ⟨hall, hpairwise⟩
      obtain ⟨value, hvalue⟩ := List.exists_mem_of_ne_nil _ hkey
      exact choosesOnce_cons ((ih hkeys _).1 (hall value hvalue)) (hpairs.1 hpairwise)
    · intro h
      exact ⟨fun value _ => (ih hkeys _).2 h.tail, hpairs.2 h.head⟩

end KevinDb
