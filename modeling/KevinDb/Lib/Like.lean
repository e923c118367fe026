import KevinDb.Lib.Sql
import Mathlib.Data.List.Infix

namespace KevinDb.Sql
set_option autoImplicit true

variable {text fragment : List Char}

/-- A fragment with the characters that `LIKE` gives a meaning escaped. -/
def escapeLike (fragment : List Char) : List Char :=
  fragment.flatMap fun char => if char ∈ ['\\', '%', '_'] then ['\\', char] else [char]

theorem likeChars_any (pattern text : List Char) :
    likeChars ('%' :: pattern) text ↔ ∃ rest, rest <:+ text ∧ likeChars pattern rest := by
  rw [likeChars, List.any_eq_true]
  exact exists_congr fun rest => and_congr_left fun _ => List.mem_tails rest text

/-- `%` alone matches every text. -/
theorem likeChars_percent (text : List Char) : likeChars ['%'] text :=
  (likeChars_any [] text).2 ⟨[], List.nil_suffix, by rw [likeChars]; rfl⟩

/-- A character without a meaning stands for itself. -/
theorem likeChars_plain {char : Char} (hplain : char ∉ ['\\', '%', '_']) (pattern : List Char) :
    likeChars (char :: pattern) text ↔ ∃ rest, text = char :: rest ∧ likeChars pattern rest := by
  simp only [List.mem_cons, List.not_mem_nil, or_false, not_or] at hplain
  obtain ⟨hescape, hpercent, hunderscore⟩ := hplain
  cases text with
  | nil => simp [likeChars, hescape]
  | cons first text => simp [likeChars, hescape, and_assoc]

theorem likeChars_escaped (char : Char) (pattern : List Char) :
    likeChars ('\\' :: char :: pattern) text ↔
      ∃ rest, text = char :: rest ∧ likeChars pattern rest := by
  cases text with
  | nil => simp [likeChars]
  | cons first text => simp [likeChars, and_assoc]

theorem likeChars_escape (fragment text : List Char) :
    likeChars (escapeLike fragment ++ ['%']) text ↔ fragment <+: text := by
  induction fragment generalizing text with
  | nil => exact iff_of_true (likeChars_percent text) List.nil_prefix
  | cons char fragment ih =>
    have hfirst : likeChars (escapeLike (char :: fragment) ++ ['%']) text ↔
        ∃ rest, text = char :: rest ∧ likeChars (escapeLike fragment ++ ['%']) rest := by
      rw [escapeLike, List.flatMap_cons, List.append_assoc, ← escapeLike]
      split
      · exact likeChars_escaped char _
      next hplain => exact likeChars_plain hplain _
    rw [hfirst]
    constructor
    · rintro ⟨rest, rfl, hrest⟩
      exact List.cons_prefix_cons.2 ⟨rfl, (ih rest).1 hrest⟩
    · intro hprefix
      obtain ⟨rest, rfl⟩ := hprefix
      exact ⟨_, rfl, (ih _).2 (List.prefix_append _ _)⟩

/-- An escaped fragment between two `%` is found where it occurs. -/
theorem likeChars_infix (fragment text : List Char) :
    likeChars ('%' :: (escapeLike fragment ++ ['%'])) text ↔ fragment <:+: text := by
  rw [likeChars_any, List.infix_iff_prefix_suffix]
  exact exists_congr fun rest => and_comm.trans (and_congr_left fun _ => likeChars_escape _ _)

end KevinDb.Sql
