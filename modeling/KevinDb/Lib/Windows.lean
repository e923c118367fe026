import Mathlib.Data.List.Nodup
import Mathlib.Data.List.Basic

namespace KevinDb
set_option autoImplicit true

variable [DecidableEq κ] {m : Nat}

/-- Reading keys in windows of `m` distinct keys, a key that was seen comes again only in a later
window. `seen` holds the distinct keys read so far. -/
def Spread (m : Nat) : List κ → List κ → Prop
  | _, [] => True
  | seen, key :: keys =>
    if key ∈ seen then seen.idxOf key / m < seen.length / m ∧ Spread m seen keys
    else Spread m (seen ++ [key]) keys

instance Spread.decidable (m : Nat) : ∀ seen keys : List κ, Decidable (Spread m seen keys)
  | _, [] => .isTrue True.intro
  | seen, key :: keys =>
    have := Spread.decidable m seen keys
    have := Spread.decidable m (seen ++ [key]) keys
    decidable_of_iff (if key ∈ seen then seen.idxOf key / m < seen.length / m ∧ Spread m seen keys
      else Spread m (seen ++ [key]) keys) (by rw [Spread])

/-- Within one window no key comes twice. -/
theorem spread_first_window (seen window keys : List κ)
    (hlen : seen.length + window.length ≤ m) (hseen : seen.Nodup) :
    Spread m seen (window ++ keys) ↔ (seen ++ window).Nodup ∧ Spread m (seen ++ window) keys := by
  induction window generalizing seen with
  | nil => simp [hseen]
  | cons key window ih =>
    rw [List.length_cons] at hlen
    rw [List.cons_append, Spread]
    split
    next hmem =>
      have hzero : seen.length / m = 0 := Nat.div_eq_of_lt (by omega)
      have hdup : ¬ (seen ++ key :: window).Nodup := by
        intro hnodup
        exact (List.nodup_append.1 hnodup).2.2 key hmem key List.mem_cons_self rfl
      simp [hzero, hdup]
    next hmem =>
      have hnodup : (seen ++ [key]).Nodup := by
        rw [List.nodup_append']
        refine ⟨hseen, List.nodup_singleton key, ?_⟩
        simpa using hmem
      have hlen' : (seen ++ [key]).length + window.length ≤ m := by simp; omega
      rw [ih (seen ++ [key]) hlen' hnodup, List.append_assoc]
      rfl

/-- Behind a full window its keys may come freely. -/
theorem spread_behind_window (hm : 0 < m) (window seen keys : List κ) (hlen : window.length = m) :
    Spread m (window ++ seen) keys ↔ Spread m seen (keys.filter (· ∉ window)) := by
  induction keys generalizing seen with
  | nil => simp [Spread]
  | cons key keys ih =>
    rw [Spread, ih seen, List.append_assoc, ih (seen ++ [key])]
    by_cases hwindow : key ∈ window
    · have hidx : (window ++ seen).idxOf key < m := by
        rw [List.idxOf_append_of_mem hwindow, ← hlen]
        exact List.idxOf_lt_length_of_mem hwindow
      have hlt : (window ++ seen).idxOf key / m < (window ++ seen).length / m := by
        rw [Nat.div_eq_of_lt hidx, List.length_append, hlen]
        exact Nat.div_pos (Nat.le_add_right m _) hm
      rw [if_pos (List.mem_append_left _ hwindow), List.filter_cons_of_neg (by simpa using hwindow)]
      exact and_iff_right hlt
    · have hidx : (window ++ seen).idxOf key / m = seen.idxOf key / m + 1 := by
        rw [List.idxOf_append_of_notMem hwindow, hlen, Nat.add_comm, Nat.add_div_right _ hm]
      have hlength : (window ++ seen).length / m = seen.length / m + 1 := by
        rw [List.length_append, hlen, Nat.add_comm, Nat.add_div_right _ hm]
      have hmem : key ∈ window ++ seen ↔ key ∈ seen := by simp [hwindow]
      rw [List.filter_cons_of_pos (by simpa using hwindow), Spread, hidx, hlength]
      simp only [hmem, Nat.add_lt_add_iff_right]

/-- Keys are spread if the first window has no key twice, and the keys behind it that are new
are spread. -/
theorem spread_iff (hm : 0 < m) (keys : List κ) :
    Spread m [] keys ↔
      (keys.take m).Nodup ∧ Spread m [] ((keys.drop m).filter (· ∉ keys.take m)) := by
  have hlength : ([] : List κ).length + (keys.take m).length ≤ m := by
    rw [List.length_nil, Nat.zero_add]
    exact List.length_take_le m keys
  have hfirst := spread_first_window [] (keys.take m) (keys.drop m) hlength List.nodup_nil
  rw [List.take_append_drop, List.nil_append] at hfirst
  rw [hfirst]
  by_cases hlen : m ≤ keys.length
  · have hbehind := spread_behind_window hm (keys.take m) [] (keys.drop m) (by simp [hlen])
    rw [List.append_nil] at hbehind
    rw [hbehind]
  · rw [List.drop_eq_nil_of_le (by omega)]
    simp [Spread]

end KevinDb
