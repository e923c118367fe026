import KevinDb.Lib.Glob

namespace KevinDb
set_option autoImplicit true

def normalizeLikePattern (pattern : String) : String :=
  pattern.map fun char => if char = '%' then '*' else char

/-- `strip_prefix`. -/
def stripPrefix (front text : List Char) : Option (List Char) :=
  if front.isPrefixOf text then some (text.drop front.length) else none

def simpleTrailingWildcardPrefix (pattern : String) : Option String :=
  if pattern.toList.getLast? = some '*' then
    (some (String.ofList pattern.toList.dropLast)).filter fun front => '*' ∉ front.toList
  else none

/-- The loop of `path_matches_pattern` over the parts of the pattern: what remains of the path. -/
def remainingBehind (startsWithStar first : Bool) (remaining : List Char) :
    List (List Char) → Option (List Char)
  | [] => some remaining
  | part :: parts =>
    if part.isEmpty then remainingBehind startsWithStar first remaining parts
    else if first && !startsWithStar then do
      remainingBehind startsWithStar false (← stripPrefix part remaining) parts
    else do
      remainingBehind startsWithStar false (← behindFirst part remaining) parts

def pathMatchesPattern (path pattern : String) : Bool :=
  if '*' ∉ pattern.toList then path = pattern
  else
    match remainingBehind (pattern.toList.head? = some '*') true path.toList
      (pattern.toList.splitOn '*') with
    | none => false
    | some remaining => pattern.toList.getLast? = some '*' || remaining.isEmpty

theorem stripPrefix_eq_some {front text back : List Char} :
    stripPrefix front text = some back ↔ text = front ++ back := by
  rw [stripPrefix]
  constructor
  · intro h
    split at h
    next hprefix =>
      cases h
      obtain ⟨back, rfl⟩ := List.isPrefixOf_iff_prefix.1 hprefix
      rw [List.drop_left]
    · cases h
  · rintro rfl
    rw [if_pos (List.isPrefixOf_iff_prefix.2 (List.prefix_append _ _)), List.drop_left]

theorem simpleTrailingWildcardPrefix_eq_some {pattern front : String} :
    simpleTrailingWildcardPrefix pattern = some front ↔
      pattern.toList = front.toList ++ ['*'] ∧ '*' ∉ front.toList := by
  rw [simpleTrailingWildcardPrefix]
  constructor
  · intro h
    split at h
    next hlast =>
      obtain ⟨hfront, hnone⟩ := Option.filter_eq_some_iff.1 h
      cases hfront
      obtain ⟨back, hback⟩ := List.getLast?_eq_some_iff.1 hlast
      simpa [hback] using hnone
    · cases h
  · rintro ⟨hpattern, hnone⟩
    rw [hpattern, List.getLast?_concat, if_pos rfl, List.dropLast_concat, String.ofList_toList,
      Option.filter_some, if_pos (by simpa using hnone)]

/-- Once a part is found, or if the pattern begins with a star, the loop takes the leftmost places of
the parts that are not empty. -/
theorem remainingBehind_eq {startsWithStar first : Bool} (h : first = false ∨ startsWithStar = true)
    (remaining : List Char) (parts : List (List Char)) :
    remainingBehind startsWithStar first remaining parts =
      behindAll (parts.filter (· ≠ [])) remaining := by
  induction parts generalizing first remaining with
  | nil => rfl
  | cons part parts ih =>
    rw [remainingBehind]
    split
    next hempty =>
      rw [ih h, List.filter_cons_of_neg (by simpa using hempty)]
    next hpart =>
      have hsearch : (first && !startsWithStar) = false := by
        rcases h with rfl | rfl
        · rfl
        · exact Bool.and_false _
      rw [hsearch, if_neg Bool.false_ne_true, List.filter_cons_of_pos (by simpa using hpart),
        behindAll]
      apply bind_congr
      intro behind
      exact ih (Or.inl rfl) behind

/-- What the loop does with the parts of a pattern. -/
theorem remainingBehind_splitOn {pattern front : List Char} {parts : List (List Char)}
    (hsplit : pattern.splitOn '*' = front :: parts) (hmem : '*' ∈ pattern) (path : List Char) :
    remainingBehind (pattern.head? = some '*') true path (pattern.splitOn '*') =
      (stripPrefix front path).bind (behindAll (parts.filter (· ≠ []))) := by
  have hstart : pattern.head? = some '*' ↔ front = [] := by
    rcases splitOn_cases '*' pattern with ⟨hnone, -⟩ | ⟨before, behind, hbefore, rfl, hcut⟩
    · exact absurd hmem hnone
    · rw [hcut, List.cons.injEq] at hsplit
      obtain ⟨rfl, -⟩ := hsplit
      cases before with
      | nil => simp
      | cons c before =>
        rw [List.mem_cons, not_or] at hbefore
        simp [Ne.symm hbefore.1]
  rw [hsplit]
  by_cases hfront : front = []
  · have hstrip : stripPrefix front path = some path :=
      stripPrefix_eq_some.2 (by rw [hfront, List.nil_append])
    rw [remainingBehind_eq (Or.inr (decide_eq_true (hstart.2 hfront))),
      List.filter_cons_of_neg (by simpa using hfront), hstrip, Option.bind_some]
  · have hanchored : (true && !decide (pattern.head? = some '*')) = true := by
      simpa using hstart.not.2 hfront
    rw [remainingBehind, if_neg (by simpa using hfront), hanchored, if_pos rfl]
    cases stripPrefix front path with
    | none => rfl
    | some rest =>
      rw [Option.bind_eq_bind, Option.bind_some, Option.bind_some]
      exact remainingBehind_eq (Or.inl rfl) rest parts

/-- A path is taken if the pattern with its stars replaced by some text gives it, and, unless the
pattern ends with a star, gives no beginning of it: the parts are looked for at their leftmost places
only. -/
theorem path_matches_pattern_iff (path pattern : String) :
    pathMatchesPattern path pattern ↔ Glob '*' pattern.toList path.toList ∧
      (pattern.toList.getLast? = some '*' ∨ ∀ front back, path.toList = front ++ back →
        back ≠ [] → ¬ Glob '*' pattern.toList front) := by
  rw [pathMatchesPattern]
  split
  next hnone =>
    have hglob (text : List Char) : Glob '*' pattern.toList text ↔ text = pattern.toList := by
      have happend : Glob '*' (pattern.toList ++ []) text ↔ _ := glob_append_iff hnone
      rw [List.append_nil] at happend
      simpa [glob_nil_iff] using happend
    rw [decide_eq_true_iff, hglob, String.toList_inj]
    refine (and_iff_left_of_imp ?_).symm
    rintro rfl
    refine Or.inr fun front back hpath hback hfront => hback ?_
    rw [(hglob front).1 hfront] at hpath
    exact List.append_right_eq_self.1 hpath.symm
  next hmem =>
    have hmem := not_not.1 hmem
    obtain ⟨front, parts, last, hsplit, hlast⟩ := exists_splitOn_concat hmem
    have hglob (text : List Char) : Glob '*' pattern.toList text ↔
        ∃ rest, text = front ++ rest ∧ InOrder (parts ++ [last]) rest [] := by
      rw [glob_iff_inOrder, hsplit]
      constructor
      · rintro ⟨_, _, rest, hparts, rfl, h⟩
        obtain ⟨rfl, rfl⟩ := List.cons.inj hparts
        exact ⟨rest, rfl, h⟩
      · rintro ⟨rest, rfl, h⟩
        exact ⟨front, _, rest, rfl, rfl, h⟩
    have hfound : (∃ remaining, (stripPrefix front path.toList).bind
        (behindAll ((parts ++ [last]).filter (· ≠ []))) = some remaining ∧
          (last = [] ∨ remaining = [])) ↔ ∃ rest, path.toList = front ++ rest ∧
            ∃ remaining, behindAll ((parts ++ [last]).filter (· ≠ [])) rest = some remaining ∧
              (last = [] ∨ remaining = []) := by
      simp only [Option.bind_eq_some_iff, stripPrefix_eq_some]
      constructor
      · rintro ⟨remaining, ⟨rest, hrest, hbehind⟩, hend⟩
        exact ⟨rest, hrest, remaining, hbehind, hend⟩
      · rintro ⟨rest, hrest, remaining, hbehind, hend⟩
        exact ⟨remaining, ⟨rest, hrest, hbehind⟩, hend⟩
    rw [remainingBehind_splitOn hsplit hmem]
    simp only [hglob]
    have hshape (found : Option (List Char)) : (match found with
      | none => false
      | some remaining =>
        decide (pattern.toList.getLast? = some '*') || remaining.isEmpty) = true ↔
        ∃ remaining, found = some remaining ∧ (last = [] ∨ remaining = []) := by
      cases found with
      | none => simp
      | some remaining => simp [hlast]
    rw [hshape, hfound, ← hlast]
    simp only [behindAll_accepts]
    constructor
    · rintro ⟨rest, hrest, hglobRest, hshortest⟩
      refine ⟨⟨rest, hrest, hglobRest⟩, hshortest.imp_right fun hshortest => ?_⟩
      rintro before behind hpath hne ⟨between, rfl, hbetween⟩
      rw [hrest, List.append_assoc, List.append_cancel_left_eq] at hpath
      exact hshortest between behind hpath hne hbetween
    · rintro ⟨⟨rest, hrest, hglobRest⟩, hshortest⟩
      refine ⟨rest, hrest, hglobRest, hshortest.imp_right fun hshortest => ?_⟩
      rintro between behind rfl hne hbetween
      exact hshortest (front ++ between) behind (by rw [hrest, List.append_assoc]) hne
        ⟨between, rfl, hbetween⟩

end KevinDb
