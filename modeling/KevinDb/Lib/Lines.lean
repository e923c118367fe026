import Mathlib

namespace KevinDb
set_option autoImplicit true

/-! Words that are found in lines, where the lines are laid out in cells. -/

/-- The cells of lines: each word has its own, and a line has an empty one behind it. -/
def cellsOf (lines : List (List α)) : List (Option α) :=
  lines.flatMap fun line => line.map some ++ [none]

/-- The lines, the first of which goes on from some words. -/
def joinFirst (front : List α) : List (List α) → List (List α)
  | [] => [front]
  | line :: lines => (front ++ line) :: lines

/-- A separator that is not among the words is not inside their place. -/
theorem infix_append_cons {separator : α} (h : separator ∉ words) :
    words <:+: front ++ separator :: back ↔ words <:+: front ∨ words <:+: back := by
  rw [List.infix_append_iff]
  constructor
  · rintro (hfront | hback | ⟨start, rest, rfl, hstart, hrest⟩)
    · exact .inl hfront
    · obtain hprefix | hinfix := List.infix_cons_iff.1 hback
      · cases words with
        | nil => exact .inl (List.nil_infix)
        | cons word words =>
          obtain ⟨rfl, -⟩ := List.cons_prefix_cons.1 hprefix
          exact absurd List.mem_cons_self h
      · exact .inr hinfix
    · cases rest with
      | nil =>
        rw [List.append_nil]
        exact .inl hstart.isInfix
      | cons word rest =>
        obtain ⟨rfl, -⟩ := List.cons_prefix_cons.1 hrest
        exact absurd (List.mem_append_right _ List.mem_cons_self) h
  · rintro (hfront | hback)
    · exact .inl hfront
    · exact .inr (.inl (List.infix_cons hback))

theorem map_some_infix {words line : List α} : words.map some <:+: line.map some ↔ words <:+: line := by
  constructor
  · rintro ⟨front, back, h⟩
    obtain ⟨rest, back', hline, hrest, -⟩ := List.append_eq_map_iff.1 h
    obtain ⟨front', words', rfl, -, hwords⟩ := List.append_eq_map_iff.1 hrest.symm
    rw [(Option.some_injective α).list_map hwords] at hline
    exact ⟨front', back', hline.symm⟩
  · exact fun h => h.map some

theorem infix_cellsOf {words : List α} (hne : words ≠ []) {lines : List (List α)} :
    words.map some <:+: cellsOf lines ↔ ∃ line ∈ lines, words <:+: line := by
  have hnone : none ∉ words.map some := by simp
  induction lines with
  | nil =>
    have hcells : cellsOf ([] : List (List α)) = [] := rfl
    rw [hcells, List.infix_nil, List.map_eq_nil_iff]
    exact iff_of_false hne (by simp)
  | cons line lines ih =>
    rw [cellsOf, List.flatMap_cons, ← cellsOf, List.append_assoc, List.singleton_append,
      infix_append_cons hnone, map_some_infix, List.exists_mem_cons_iff]
    exact or_congr_right ih

/-- Words are in the cells behind some others where they are in a line, the first of which goes on
from those others. -/
theorem infix_append_cellsOf {words : List α} (hne : words ≠ []) {front : List α}
    {lines : List (List α)} :
    words.map some <:+: front.map some ++ cellsOf lines ↔
      ∃ line ∈ joinFirst front lines, words <:+: line := by
  cases lines with
  | nil =>
    have hcells : cellsOf ([] : List (List α)) = [] := rfl
    rw [hcells, List.append_nil, map_some_infix, joinFirst]
    simp
  | cons line lines =>
    have hnone : none ∉ words.map some := by simp
    rw [cellsOf, List.flatMap_cons, ← cellsOf, List.append_assoc, List.singleton_append,
      ← List.append_assoc, ← List.map_append, infix_append_cons hnone, map_some_infix,
      infix_cellsOf hne, joinFirst, List.exists_mem_cons_iff]

/-- The words are in the cells from a place on. -/
def FoundAt (words : List α) (cells : List (Option α)) (start : Nat) : Prop :=
  ∀ entry ∈ words.zipIdx, cells[start + entry.2]? = some (some entry.1)

theorem foundAt_iff {words : List α} {cells : List (Option α)} {start : Nat} :
    FoundAt words cells start ↔ words.map some <+: cells.drop start := by
  rw [List.prefix_iff_getElem?, FoundAt]
  simp only [List.length_map, List.getElem_map, List.getElem?_drop]
  constructor
  · intro h offset hoffset
    exact h (words[offset], offset) (List.mk_mem_zipIdx_iff_getElem?.2
      (List.getElem?_eq_getElem hoffset))
  · rintro h ⟨word, offset⟩ hin
    obtain ⟨hoffset, rfl⟩ := List.getElem?_eq_some_iff.1 (List.mk_mem_zipIdx_iff_getElem?.1 hin)
    exact h offset hoffset

theorem exists_foundAt {words : List α} {cells : List (Option α)} :
    (∃ start, FoundAt words cells start) ↔ words.map some <:+: cells := by
  simp only [foundAt_iff, List.infix_iff_prefix_suffix]
  constructor
  · rintro ⟨start, h⟩
    exact ⟨_, h, List.drop_suffix start cells⟩
  · rintro ⟨rest, h, front, rfl⟩
    exact ⟨front.length, by rwa [List.drop_left]⟩

/-- A sum of places that wraps finds no more than one that does not. -/
theorem exists_foundAt_wrapping {words : List α} {cells : List (Option α)}
    (hlength : cells.length < 2 ^ 32) :
    (∃ position : UInt32, ∀ entry ∈ words.zipIdx,
      cells[(position + UInt32.ofNat entry.2).toNat]? = some (some entry.1)) ↔
        words.map some <:+: cells := by
  rw [← exists_foundAt]
  constructor
  · rintro ⟨position, h⟩
    -- No place is at the end of the numbers, so the next one is one more.
    have hsum : ∀ offset < words.length,
        (position + UInt32.ofNat offset).toNat = position.toNat + offset := by
      intro offset
      induction offset with
      | zero => exact fun _ => congrArg UInt32.toNat (UInt32.add_zero position)
      | succ offset ih =>
        intro hoffset
        have hprevious := ih (Nat.lt_of_succ_lt hoffset)
        have hget := h (words[offset], offset) (List.mk_mem_zipIdx_iff_getElem?.2
          (List.getElem?_eq_getElem (Nat.lt_of_succ_lt hoffset)))
        obtain ⟨hlt, -⟩ := List.getElem?_eq_some_iff.1 hget
        rw [UInt32.ofNat_add, ← UInt32.add_assoc, UInt32.toNat_add, hprevious]
        change (position.toNat + offset + 1) % 2 ^ 32 = position.toNat + (offset + 1)
        dsimp only at hlt
        omega
    refine ⟨position.toNat, ?_⟩
    rintro ⟨word, offset⟩ hin
    have hoffset := (List.getElem?_eq_some_iff.1 (List.mk_mem_zipIdx_iff_getElem?.1 hin)).1
    rw [← hsum offset hoffset]
    exact h _ hin
  · rintro ⟨start, h⟩
    refine ⟨UInt32.ofNat start, ?_⟩
    rintro ⟨word, offset⟩ hin
    have hget := h _ hin
    obtain ⟨hlt, -⟩ := List.getElem?_eq_some_iff.1 hget
    dsimp only at hlt
    rw [← UInt32.ofNat_add, UInt32.toNat_ofNat_of_lt' (by change start + offset < 2 ^ 32; omega)]
    exact hget

end KevinDb
