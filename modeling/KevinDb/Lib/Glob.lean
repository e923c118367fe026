import Mathlib.Data.List.Infix

namespace KevinDb
set_option autoImplicit true

/-- A text is a pattern with each star replaced by some text. -/
inductive Glob (star : α) : List α → List α → Prop where
  | nil : Glob star [] []
  | char (hc : c ≠ star) (h : Glob star pattern text) : Glob star (c :: pattern) (c :: text)
  | star (front : List α) (h : Glob star pattern text) : Glob star (star :: pattern) (front ++ text)

/-- A text is made of parts, each with something before it, up to a rest. -/
inductive InOrder : List (List α) → List α → List α → Prop where
  | nil (text : List α) : InOrder [] text text
  | cons (front part : List α) (h : InOrder parts text rest) :
    InOrder (part :: parts) (front ++ part ++ text) rest

section parts

variable {parts : List (List α)} {text rest front : List α}

theorem InOrder.append (h : InOrder parts text rest) (back : List α) :
    InOrder parts (text ++ back) (rest ++ back) := by
  induction h with
  | nil text => exact .nil _
  | cons front part h ih =>
    rw [List.append_assoc (front ++ part)]
    exact .cons front part ih

theorem InOrder.split (h : InOrder parts text rest) :
    ∃ used, text = used ++ rest ∧ InOrder parts used [] := by
  induction h with
  | nil text => exact ⟨[], rfl, .nil []⟩
  | cons front part h ih =>
    obtain ⟨used, rfl, hused⟩ := ih
    exact ⟨front ++ part ++ used, by simp, .cons front part hused⟩

theorem InOrder.longer (h : InOrder parts text rest) (hne : parts ≠ []) (before : List α) :
    InOrder parts (before ++ text) rest := by
  cases h with
  | nil => exact absurd rfl hne
  | cons front part h =>
    rw [← List.append_assoc, ← List.append_assoc]
    exact .cons (before ++ front) part h

/-- An empty part before others does nothing. -/
theorem inOrder_nil_cons (hne : parts ≠ []) :
    InOrder ([] :: parts) text rest ↔ InOrder parts text rest := by
  constructor
  · intro h
    cases h with
    | cons front _ h =>
      rw [List.append_nil]
      exact h.longer hne front
  · exact InOrder.cons [] []

/-- An empty part at the end takes what there is. -/
theorem inOrder_concat_nil :
    InOrder (parts ++ [[]]) text [] ↔ ∃ rest, InOrder parts text rest := by
  constructor
  · intro h
    induction parts generalizing text with
    | nil => exact ⟨text, .nil text⟩
    | cons part parts ih =>
      cases h with
      | cons front _ h =>
        obtain ⟨rest, hrest⟩ := ih h
        exact ⟨rest, .cons front part hrest⟩
  · rintro ⟨rest, h⟩
    induction h with
    | nil text =>
      have hend : InOrder [[]] (text ++ [] ++ []) ([] : List α) := .cons text [] (.nil [])
      rwa [List.append_nil, List.append_nil] at hend
    | cons front part h ih => exact .cons front part ih

theorem exists_inOrder_filter :
    (∃ rest, InOrder (parts.filter (· ≠ [])) text rest) ↔ ∃ rest, InOrder parts text rest := by
  induction parts generalizing text with
  | nil => exact Iff.rfl
  | cons part parts ih =>
    have hcons (parts : List (List α)) : (∃ rest, InOrder (part :: parts) text rest) ↔
        ∃ front back, text = front ++ part ++ back ∧ ∃ rest, InOrder parts back rest := by
      constructor
      · rintro ⟨rest, h⟩
        cases h with
        | cons front _ h => exact ⟨front, _, rfl, rest, h⟩
      · rintro ⟨front, back, rfl, rest, h⟩
        exact ⟨rest, .cons front part h⟩
    by_cases hpart : part = []
    · rw [List.filter_cons_of_neg (by simpa using hpart), ih, hcons]
      subst hpart
      constructor
      · exact fun h => ⟨[], text, rfl, h⟩
      · rintro ⟨front, back, rfl, rest, h⟩
        cases parts with
        | nil => exact ⟨_, .nil _⟩
        | cons part parts =>
          rw [List.append_nil]
          exact ⟨rest, h.longer (List.cons_ne_nil _ _) front⟩
    · rw [List.filter_cons_of_pos (by simpa using hpart), hcons, hcons]
      simp only [ih]

theorem inOrder_filter {last : List α} (hlast : last ≠ []) :
    InOrder ((parts ++ [last]).filter (· ≠ [])) text rest ↔ InOrder (parts ++ [last]) text rest := by
  induction parts generalizing text with
  | nil => rw [List.nil_append, List.filter_cons_of_pos (by simpa using hlast), List.filter_nil]
  | cons part parts ih =>
    rw [List.cons_append]
    by_cases hpart : part = []
    · rw [List.filter_cons_of_neg (by simpa using hpart), ih, hpart, inOrder_nil_cons (by simp)]
    · rw [List.filter_cons_of_pos (by simpa using hpart)]
      constructor
      · intro h
        cases h with
        | cons front _ h => exact .cons front part (ih.1 h)
      · intro h
        cases h with
        | cons front _ h => exact .cons front part (ih.2 h)

/-! What a pattern means by its parts. -/

theorem Glob.append_left {star : α} {pattern : List α} (hfront : star ∉ front)
    (h : Glob star pattern text) : Glob star (front ++ pattern) (front ++ text) := by
  induction front with
  | nil => exact h
  | cons c front ih =>
    rw [List.mem_cons, not_or] at hfront
    exact .char (Ne.symm hfront.1) (ih hfront.2)

theorem Glob.exists_append {star : α} {pattern : List α} (hfront : star ∉ front)
    (h : Glob star (front ++ pattern) text) :
    ∃ back, text = front ++ back ∧ Glob star pattern back := by
  induction front generalizing text with
  | nil => exact ⟨text, rfl, h⟩
  | cons c front ih =>
    rw [List.mem_cons, not_or] at hfront
    cases h with
    | char hc h =>
      obtain ⟨back, rfl, hback⟩ := ih hfront.2 h
      exact ⟨back, rfl, hback⟩
    | star => exact absurd rfl hfront.1

theorem glob_append_iff {star : α} {pattern : List α} (hfront : star ∉ front) :
    Glob star (front ++ pattern) text ↔ ∃ back, text = front ++ back ∧ Glob star pattern back := by
  constructor
  · exact Glob.exists_append hfront
  · rintro ⟨back, rfl, h⟩
    exact h.append_left hfront

theorem glob_star_iff {star : α} {pattern : List α} :
    Glob star (star :: pattern) text ↔
      ∃ front back, text = front ++ back ∧ Glob star pattern back := by
  constructor
  · intro h
    cases h with
    | char hc => exact absurd rfl hc
    | star front h => exact ⟨front, _, rfl, h⟩
  · rintro ⟨front, back, rfl, h⟩
    exact .star front h

theorem glob_nil_iff {star : α} : Glob star [] text ↔ text = [] := by
  constructor
  · intro h
    cases h
    rfl
  · rintro rfl
    exact .nil

end parts

section splitting

variable [DecidableEq α] {star : α} {pattern text rest front back part : List α}
  {parts : List (List α)}

/-- A pattern has no star, or it is cut at the first one. -/
theorem splitOn_cases (star : α) (pattern : List α) :
    (star ∉ pattern ∧ pattern.splitOn star = [pattern]) ∨
      ∃ front back, star ∉ front ∧ pattern = front ++ star :: back ∧
        pattern.splitOn star = front :: back.splitOn star := by
  by_cases hmem : star ∈ pattern
  · obtain ⟨front, back, rfl, hfront⟩ := List.eq_append_cons_of_mem hmem
    exact Or.inr ⟨front, back, hfront, rfl,
      List.splitOn_append_cons_self_of_not_mem hfront back⟩
  · exact Or.inl ⟨hmem, List.splitOn_eq_singleton hmem⟩

/-- The first part comes at the start, the others behind it up to the end. -/
theorem glob_iff_inOrder (star : α) (pattern text : List α) :
    Glob star pattern text ↔ ∃ front parts rest, pattern.splitOn star = front :: parts ∧
      text = front ++ rest ∧ InOrder parts rest [] := by
  induction hlength : pattern.length using Nat.strongRecOn generalizing pattern text with
  | ind n ih =>
    rcases splitOn_cases star pattern with ⟨hnone, hsplit⟩ | ⟨front, back, hfront, rfl, hsplit⟩
    · have hglob : Glob star (pattern ++ []) text ↔ _ := glob_append_iff hnone
      rw [List.append_nil] at hglob
      simp only [hglob, glob_nil_iff, hsplit, List.cons.injEq]
      constructor
      · rintro ⟨back, rfl, rfl⟩
        exact ⟨pattern, [], [], ⟨rfl, rfl⟩, rfl, .nil []⟩
      · rintro ⟨_, _, rest, ⟨rfl, rfl⟩, rfl, h⟩
        cases h
        exact ⟨[], rfl, rfl⟩
    · rw [glob_append_iff hfront, hsplit]
      simp only [List.cons.injEq]
      have hback (text : List α) := ih back.length (by
        rw [← hlength, List.length_append, List.length_cons]
        omega) back text rfl
      constructor
      · rintro ⟨_, rfl, hstar⟩
        obtain ⟨skipped, behind, rfl, hbehind⟩ := glob_star_iff.1 hstar
        obtain ⟨part, parts, rest, hparts, rfl, hrest⟩ := (hback behind).1 hbehind
        refine ⟨front, part :: parts, _, ⟨rfl, hparts⟩, rfl, ?_⟩
        rw [← List.append_assoc]
        exact .cons skipped part hrest
      · rintro ⟨_, _, rest, ⟨rfl, rfl⟩, rfl, h⟩
        obtain ⟨part, parts, hparts⟩ := List.exists_cons_of_ne_nil (List.splitOn_ne_nil star back)
        rw [hparts] at h
        cases h with
        | cons skipped _ h =>
          refine ⟨_, rfl, glob_star_iff.2 ⟨skipped, _, List.append_assoc _ _ _, ?_⟩⟩
          exact (hback _).2 ⟨part, parts, _, hparts, rfl, h⟩

/-- The last part of a pattern is empty if the pattern ends with a star. -/
theorem exists_splitOn_concat (hmem : star ∈ pattern) :
    ∃ front parts last, pattern.splitOn star = front :: (parts ++ [last]) ∧
      (last = [] ↔ pattern.getLast? = some star) := by
  induction hlength : pattern.length using Nat.strongRecOn generalizing pattern with
  | ind n ih =>
    rcases splitOn_cases star pattern with ⟨hnone, -⟩ | ⟨front, back, hfront, rfl, hsplit⟩
    · exact absurd hmem hnone
    · by_cases hback : star ∈ back
      · obtain ⟨part, parts, last, hparts, hlast⟩ := ih back.length (by
          rw [← hlength, List.length_append, List.length_cons]
          omega) hback rfl
        refine ⟨front, part :: parts, last, by rw [hsplit, hparts, List.cons_append], ?_⟩
        obtain ⟨c, back, rfl⟩ := List.exists_cons_of_ne_nil (List.ne_nil_of_mem hback)
        rw [hlast, List.getLast?_append_of_ne_nil _ (List.cons_ne_nil _ _),
          List.getLast?_cons_cons]
      · refine ⟨front, [], back, by rw [hsplit, List.splitOn_eq_singleton hback]; rfl, ?_⟩
        rw [List.getLast?_append_of_ne_nil _ (List.cons_ne_nil _ _)]
        cases back with
        | nil => simp
        | cons c back =>
          rw [List.getLast?_cons_cons]
          refine iff_of_false (List.cons_ne_nil _ _) fun h => hback ?_
          exact List.mem_of_getLast? h

/-! The leftmost places of the parts. -/

/-- What comes behind the first place of a part. -/
def behindFirst (part text : List α) : Option (List α) :=
  if part.isPrefixOf text then some (text.drop part.length)
  else
    match text with
    | [] => none
    | _ :: text => behindFirst part text

/-- What comes behind parts that are looked for one behind the other. -/
def behindAll : List (List α) → List α → Option (List α)
  | [], text => some text
  | part :: parts, text => do behindAll parts (← behindFirst part text)

theorem exists_of_behindFirst (h : behindFirst part text = some rest) :
    ∃ front, text = front ++ part ++ rest := by
  induction text with
  | nil =>
    rw [behindFirst] at h
    split at h
    next hprefix =>
      cases h
      obtain ⟨back, hback⟩ := List.isPrefixOf_iff_prefix.1 hprefix
      obtain ⟨rfl, rfl⟩ := List.append_eq_nil_iff.1 hback
      exact ⟨[], rfl⟩
    · cases h
  | cons c text ih =>
    rw [behindFirst] at h
    split at h
    next hprefix =>
      cases h
      obtain ⟨back, hback⟩ := List.isPrefixOf_iff_prefix.1 hprefix
      exact ⟨[], by rw [← hback, List.drop_left, List.nil_append]⟩
    · obtain ⟨front, rfl⟩ := ih h
      exact ⟨c :: front, rfl⟩

/-- The first place leaves the most. -/
theorem behindFirst_greedy (front part rest : List α) :
    ∃ before, behindFirst part (front ++ part ++ rest) = some (before ++ rest) := by
  induction front with
  | nil =>
    have hprefix : part.isPrefixOf (part ++ rest) :=
      List.isPrefixOf_iff_prefix.2 (List.prefix_append _ _)
    refine ⟨[], ?_⟩
    rw [List.nil_append, behindFirst.eq_def, if_pos hprefix, List.drop_left, List.nil_append]
  | cons c front ih =>
    rw [List.cons_append, List.cons_append, behindFirst]
    split
    next hprefix =>
      obtain ⟨back, hback⟩ := List.isPrefixOf_iff_prefix.1 hprefix
      have hlength := congrArg List.length hback
      simp only [List.length_append, List.length_cons] at hlength
      have hrest : rest <:+ part ++ back := by
        rw [hback, ← List.cons_append, ← List.cons_append]
        exact List.suffix_append _ _
      have hsuffix : rest <:+ back :=
        List.suffix_of_suffix_length_le hrest (List.suffix_append _ _) (by omega)
      obtain ⟨before, rfl⟩ := hsuffix
      exact ⟨before, by rw [← hback, List.drop_left]⟩
    · exact ih

theorem inOrder_of_behindAll (h : behindAll parts text = some rest) : InOrder parts text rest := by
  induction parts generalizing text with
  | nil =>
    cases h
    exact .nil _
  | cons part parts ih =>
    obtain ⟨behind, hbehind, hrest⟩ := Option.bind_eq_some_iff.1 h
    obtain ⟨front, rfl⟩ := exists_of_behindFirst hbehind
    exact .cons front part (ih hrest)

/-- The leftmost places leave the most. -/
theorem behindAll_greedy (h : InOrder parts text rest) (before : List α) :
    ∃ before', behindAll parts (before ++ text) = some (before' ++ rest) := by
  induction h generalizing before with
  | nil text => exact ⟨before, rfl⟩
  | @cons _ text _ front part h ih =>
    obtain ⟨between, hbetween⟩ := behindFirst_greedy (before ++ front) part text
    obtain ⟨before', hbefore'⟩ := ih between
    refine ⟨before', ?_⟩
    rw [← List.append_assoc, ← List.append_assoc, behindAll, hbetween, Option.bind_eq_bind,
      Option.bind_some, hbefore']

theorem isSome_behindAll : (behindAll parts text).isSome ↔ ∃ rest, InOrder parts text rest := by
  rw [Option.isSome_iff_exists]
  constructor
  · rintro ⟨rest, h⟩
    exact ⟨rest, inOrder_of_behindAll h⟩
  · rintro ⟨rest, h⟩
    obtain ⟨before, hbefore⟩ := behindAll_greedy h []
    exact ⟨_, hbefore⟩

/-- The leftmost places use up a text if no shorter one would do. -/
theorem behindAll_eq_nil : behindAll parts text = some [] ↔ InOrder parts text [] ∧
    ∀ front back, text = front ++ back → back ≠ [] → ¬ InOrder parts front [] := by
  constructor
  · intro h
    refine ⟨inOrder_of_behindAll h, ?_⟩
    rintro front back rfl hne hfront
    obtain ⟨before, hbefore⟩ := behindAll_greedy (hfront.append back) []
    rw [List.nil_append, h, Option.some.injEq] at hbefore
    exact hne (List.append_eq_nil_iff.1 hbefore.symm).2
  · rintro ⟨h, hshortest⟩
    obtain ⟨rest, hrest⟩ := Option.isSome_iff_exists.1 (isSome_behindAll.2 ⟨[], h⟩)
    obtain ⟨used, htext, hused⟩ := (inOrder_of_behindAll hrest).split
    by_cases hne : rest = []
    · rw [hrest, hne]
    · exact absurd hused (hshortest used rest htext hne)

/-- The leftmost places of the parts of a pattern: the parts come up to the end, and if the last is
not empty, up to no place before. -/
theorem behindAll_accepts (parts : List (List α)) (last text : List α) :
    (∃ rest, behindAll ((parts ++ [last]).filter (· ≠ [])) text = some rest ∧
      (last = [] ∨ rest = [])) ↔ InOrder (parts ++ [last]) text [] ∧
        (last = [] ∨ ∀ front back, text = front ++ back → back ≠ [] →
          ¬ InOrder (parts ++ [last]) front []) := by
  by_cases hlast : last = []
  · subst hlast
    have hfilter : (parts ++ [[]]).filter (· ≠ []) = parts.filter (· ≠ []) := by simp
    simp only [true_or, and_true]
    rw [hfilter, ← Option.isSome_iff_exists, isSome_behindAll, exists_inOrder_filter,
      inOrder_concat_nil]
  · simp only [hlast, false_or, exists_eq_right]
    rw [behindAll_eq_nil]
    simp only [inOrder_filter hlast]

end splitting

end KevinDb
