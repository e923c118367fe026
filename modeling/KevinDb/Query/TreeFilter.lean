import KevinDb.Lib.Utf8
import KevinDb.Query.FilterParser
import KevinDb.Query.Planner

namespace KevinDb
set_option autoImplicit true

/-- The state of `balanced_parentheses` before a character. The depth, an `i32` in the source, stays
far below its bound in any text that a request can hold. -/
structure ParenScan where
  depth : Int
  inString : Bool
  escaped : Bool

/-- A turn of the loop of `balanced_parentheses`. A parenthesis that closes none ends the loop. -/
def ParenScan.step (scan : ParenScan) (ch : Char) : Option ParenScan :=
  if scan.inString then
    if scan.escaped then some { scan with escaped := false }
    else if ch = '\\' then some { scan with escaped := true }
    else if ch = '"' then some { scan with inString := false }
    else some scan
  else if ch = '"' then some { scan with inString := true }
  else if ch = '(' then some { scan with depth := scan.depth + 1 }
  else if ch = ')' then
    if scan.depth - 1 < 0 then none else some { scan with depth := scan.depth - 1 }
  else some scan

def balancedParentheses (input : List Char) : Bool :=
  match input.foldlM ParenScan.step ⟨0, false, false⟩ with
  | none => false
  | some scan => scan.depth = 0 && !scan.inString

/-- `wrapper_inner`. There is no result where slicing the input panics. -/
def wrapperInner (wrapper : String) (input : List Char) : Option (Option (List Char)) :=
  let input := trimChars input
  let prefixLen := byteLength wrapper.toList
  if byteLength input < prefixLen + 2 then some none
  else do
    let (head, tail) ← splitAtByte prefixLen input
    if head.map Char.toLower ≠ wrapper.toList.map Char.toLower then return none
    else if tail.head? ≠ some '(' then return none
    else if input.getLast? ≠ some ')' then return none
    else
      let inner ← sliceBytes (prefixLen + 1) (byteLength input - 1) input
      return if balancedParentheses inner then some (trimChars inner) else none

/-- The wrappers are tried in order, down to one that has an inner text. -/
def unwrapFirst (input : List Char) (default : α) :
    List (String × α) → Option (α × List Char)
  | [] => some (default, input)
  | (wrapper, value) :: wrappers => do
    match ← wrapperInner wrapper input with
    | some inner => return (value, inner)
    | none => unwrapFirst input default wrappers

def modeWrappers : List (String × TreeFilterMode) :=
  [("filtered_only", .filteredOnly), ("show_all", .showAll), ("most_relevant", .mostRelevant)]

def scopeWrappers : List (String × TreeFilterScope) :=
  [("root", .root), ("child", .child), ("descendant", .descendant), ("trace", .trace)]

def unwrapMode (input : List Char) : Option (TreeFilterMode × List Char) :=
  unwrapFirst input .showAll modeWrappers

def unwrapScope (input : List Char) : Option (TreeFilterScope × List Char) :=
  unwrapFirst input .trace scopeWrappers

/-- `TreeFilterExpr::parse`. There is no result where it panics. -/
def TreeFilterExpr.parse (reader : FilterReader) (input : String) :
    Option (Except FilterError TreeFilterExpr) := do
  let input := trimChars input.toList
  let (mode, input) ← unwrapMode input
  let (scope, input) ← unwrapScope input
  return (parseFilterExpr reader (String.ofList input)).map fun predicate =>
    { scope, mode, predicate }

/-- The text is the body in the parentheses of a wrapper, which are balanced. -/
def Wraps (wrapper : String) (text body : List Char) : Prop :=
  ∃ head, text = head ++ '(' :: (body ++ [')']) ∧
    head.map Char.toLower = wrapper.toList.map Char.toLower ∧ balancedParentheses body

/-- A text that is long enough for a wrapper can be sliced after it. -/
def SlicesFit (wrapper : String) (text : List Char) : Prop :=
  byteLength wrapper.toList + 2 ≤ byteLength text → IsBoundary (byteLength wrapper.toList) text

variable {wrapper : String} {input text body head tail inner : List Char}

theorem Wraps.length_head (h : head.map Char.toLower = wrapper.toList.map Char.toLower) :
    byteLength head = byteLength wrapper.toList := by
  rw [← byteLength_map_toLower head, h, byteLength_map_toLower]

theorem Wraps.long (h : Wraps wrapper text body) :
    byteLength wrapper.toList + 2 ≤ byteLength text := by
  obtain ⟨head, rfl, hlower, -⟩ := h
  have hparens : ('('.utf8Size = 1) ∧ (')'.utf8Size = 1) := ⟨rfl, rfl⟩
  rw [byteLength_append, byteLength, byteLength_append, byteLength_singleton, hparens.1, hparens.2,
    Wraps.length_head hlower]
  omega

/-- A text that starts with an opening parenthesis after the wrapper, and ends with a closing one,
has something between them. -/
theorem exists_body (hlong : byteLength head + 2 ≤ byteLength (head ++ tail))
    (hopen : tail.head? = some '(') (hclose : (head ++ tail).getLast? = some ')') :
    ∃ body, tail = '(' :: (body ++ [')']) := by
  obtain ⟨rest, rfl⟩ := List.head?_eq_some_iff.1 hopen
  have hrest : rest ≠ [] := by
    rintro rfl
    have hsize : '('.utf8Size = 1 := rfl
    rw [byteLength_append, byteLength_singleton, hsize] at hlong
    omega
  rw [List.getLast?_append_of_ne_nil _ (List.cons_ne_nil _ _), List.getLast?_cons_of_ne_nil hrest,
    List.getLast?_eq_some_iff] at hclose
  obtain ⟨body, rfl⟩ := hclose
  exact ⟨body, rfl⟩

theorem sliceBytes_body (head body : List Char) :
    sliceBytes (byteLength head + 1) (byteLength (head ++ '(' :: (body ++ [')'])) - 1)
      (head ++ '(' :: (body ++ [')'])) = some body := by
  have htext : head ++ '(' :: (body ++ [')']) = head ++ ['('] ++ body ++ [')'] := by
    rw [List.append_assoc, List.append_assoc]
    rfl
  have hstart : byteLength head + 1 = byteLength (head ++ ['(']) :=
    (byteLength_append head ['(']).symm
  have hstop : byteLength (head ++ ['('] ++ body ++ [')']) - 1 =
      byteLength (head ++ ['('] ++ body) := by
    rw [byteLength_append (head ++ ['('] ++ body), byteLength_singleton]
    rfl
  rw [htext, hstart, hstop, sliceBytes_append]

/-- A wrapper that the text can be sliced after has an inner text exactly if it wraps a body. -/
theorem wrapperInner_of_split (hlong : byteLength wrapper.toList + 2 ≤ byteLength (head ++ tail))
    (hlength : byteLength head = byteLength wrapper.toList)
    (htext : trimChars input = head ++ tail) :
    ∃ result, wrapperInner wrapper input = some result ∧
      ∀ inner, result = some inner ↔
        ∃ body, Wraps wrapper (head ++ tail) body ∧ inner = trimChars body := by
  have hno (h : ∀ body, ¬ Wraps wrapper (head ++ tail) body) (inner : List Char) :
      none = some inner ↔ ∃ body, Wraps wrapper (head ++ tail) body ∧ inner = trimChars body :=
    ⟨nofun, fun ⟨body, hbody, _⟩ => absurd hbody (h body)⟩
  have hinv (body : List Char) (h : Wraps wrapper (head ++ tail) body) :
      head.map Char.toLower = wrapper.toList.map Char.toLower ∧ tail = '(' :: (body ++ [')']) ∧
        balancedParentheses body := by
    obtain ⟨head', htext', hlower, hbalanced⟩ := h
    obtain ⟨rfl, rfl⟩ := append_inj_of_byteLength htext'
      (hlength.trans (Wraps.length_head hlower).symm)
    exact ⟨hlower, rfl, hbalanced⟩
  rw [wrapperInner, htext]
  simp only [← hlength, splitAtByte_append]
  rw [if_neg (by omega), Option.bind_eq_bind, Option.bind_some]
  by_cases hlower : head.map Char.toLower = wrapper.toList.map Char.toLower
  · by_cases hopen : tail.head? = some '('
    · by_cases hclose : (head ++ tail).getLast? = some ')'
      · obtain ⟨body, rfl⟩ := exists_body (by omega) hopen hclose
        rw [if_neg (not_not_intro hlower), if_neg (not_not_intro hopen),
          if_neg (not_not_intro hclose), sliceBytes_body, Option.bind_eq_bind, Option.bind_some]
        refine ⟨_, rfl, fun inner => ?_⟩
        constructor
        · intro h
          rw [Option.ite_none_right_eq_some] at h
          exact ⟨body, ⟨head, rfl, hlower, h.1⟩, (Option.some.inj h.2).symm⟩
        · rintro ⟨body', hwraps, rfl⟩
          obtain ⟨-, hbody, hbalanced⟩ := hinv body' hwraps
          rw [List.cons_inj_right, List.append_left_inj] at hbody
          rw [hbody, if_pos hbalanced]
      · rw [if_neg (not_not_intro hlower), if_neg (not_not_intro hopen), if_pos hclose]
        refine ⟨none, rfl, hno fun body hwraps => hclose ?_⟩
        rw [(hinv body hwraps).2.1, ← List.cons_append, ← List.append_assoc, List.getLast?_concat]
    · rw [if_neg (not_not_intro hlower), if_pos hopen]
      refine ⟨none, rfl, hno fun body hwraps => hopen ?_⟩
      rw [(hinv body hwraps).2.1, List.head?_cons]
  · rw [if_pos hlower]
    exact ⟨none, rfl, hno fun body hwraps => hlower (hinv body hwraps).1⟩

/-- A wrapper's slices are in order exactly if the text can be sliced after it. -/
theorem isSome_wrapperInner :
    (wrapperInner wrapper input).isSome ↔ SlicesFit wrapper (trimChars input) := by
  rw [SlicesFit]
  by_cases hlong : byteLength wrapper.toList + 2 ≤ byteLength (trimChars input)
  · rw [imp_iff_right hlong]
    constructor
    · intro h
      rw [wrapperInner, if_neg (by omega)] at h
      rw [← isSome_splitAtByte]
      cases hsplit : splitAtByte (byteLength wrapper.toList) (trimChars input) with
      | none =>
        rw [hsplit] at h
        cases h
      | some parts => rfl
    · rintro ⟨head, tail, htext, hlength⟩
      obtain ⟨result, hresult, -⟩ := wrapperInner_of_split (htext ▸ hlong) hlength htext
      rw [hresult]
      rfl
  · rw [wrapperInner, if_pos (by omega)]
    exact ⟨fun _ h => absurd h hlong, fun _ => rfl⟩

theorem wrapperInner_eq_some : wrapperInner wrapper input = some (some inner) ↔
    ∃ body, Wraps wrapper (trimChars input) body ∧ inner = trimChars body := by
  constructor
  · intro h
    have hfits := isSome_wrapperInner.1 (Option.isSome_of_eq_some h)
    by_cases hlong : byteLength wrapper.toList + 2 ≤ byteLength (trimChars input)
    · obtain ⟨head, tail, htext, hlength⟩ := hfits hlong
      obtain ⟨result, hresult, hinner⟩ := wrapperInner_of_split (htext ▸ hlong) hlength htext
      rw [hresult] at h
      rw [htext]
      exact (hinner inner).1 (Option.some.inj h)
    · rw [wrapperInner, if_pos (by omega)] at h
      cases h
  · rintro ⟨body, hwraps, rfl⟩
    obtain ⟨head, htext, hlower, -⟩ := id hwraps
    have hlength := Wraps.length_head hlower
    obtain ⟨result, hresult, hinner⟩ :=
      wrapperInner_of_split (htext ▸ hwraps.long) hlength htext
    rw [hresult, (hinner (trimChars body)).2 ⟨body, htext ▸ hwraps, rfl⟩]

theorem Wraps.slicesFit (h : Wraps wrapper text body) : SlicesFit wrapper text := by
  obtain ⟨head, rfl, hlower, -⟩ := h
  exact fun _ => ⟨head, _, rfl, Wraps.length_head hlower⟩

/-- The wrappers that are tried, down to one that wraps the text, can be sliced off it. -/
def TriesFit (text : List Char) : List (String × α) → Prop
  | [] => True
  | (wrapper, _) :: wrappers =>
    SlicesFit wrapper text ∧ ((∃ body, Wraps wrapper text body) ∨ TriesFit text wrappers)

/-- What is left of a text: the body in the first of the wrappers that wraps it, if one does. -/
def Unwraps (text : List Char) (default : α) : List (String × α) → α → List Char → Prop
  | [], value, inner => value = default ∧ inner = text
  | (wrapper, wrapped) :: wrappers, value, inner =>
    (∃ body, Wraps wrapper text body ∧ value = wrapped ∧ inner = trimChars body) ∨
      (∀ body, ¬ Wraps wrapper text body) ∧ Unwraps text default wrappers value inner

theorem isSome_unwrapFirst {default : α} {wrappers : List (String × α)}
    (htrim : trimChars input = input) :
    (unwrapFirst input default wrappers).isSome ↔ TriesFit input wrappers := by
  induction wrappers with
  | nil => exact iff_of_true rfl trivial
  | cons entry wrappers ih =>
    rw [unwrapFirst, TriesFit]
    cases hresult : wrapperInner entry.1 input with
    | none =>
      have hfits := mt isSome_wrapperInner.2 (by rw [hresult]; exact Bool.false_ne_true)
      rw [htrim] at hfits
      exact iff_of_false Bool.false_ne_true fun h => hfits h.1
    | some result =>
      have hfits := isSome_wrapperInner.1 (Option.isSome_of_eq_some hresult)
      rw [htrim] at hfits
      cases result with
      | none =>
        have hwraps : ¬ ∃ body, Wraps entry.1 input body := by
          rintro ⟨body, hbody⟩
          rw [wrapperInner_eq_some.2 ⟨body, htrim.symm ▸ hbody, rfl⟩] at hresult
          cases hresult
        rw [and_iff_right hfits, or_iff_right hwraps, ← ih]
        rfl
      | some inner =>
        obtain ⟨body, hbody, -⟩ := wrapperInner_eq_some.1 hresult
        rw [htrim] at hbody
        exact iff_of_true rfl ⟨hfits, .inl ⟨body, hbody⟩⟩

theorem unwrapFirst_eq_some {default : α} {wrappers : List (String × α)} {value : α}
    (htrim : trimChars input = input) (hfit : TriesFit input wrappers) :
    unwrapFirst input default wrappers = some (value, inner) ↔
      Unwraps input default wrappers value inner := by
  induction wrappers with
  | nil =>
    rw [unwrapFirst, Unwraps, Option.some.injEq, Prod.mk.injEq, eq_comm, eq_comm (a := input)]
  | cons entry wrappers ih =>
    obtain ⟨wrapper, wrapped⟩ := entry
    rw [unwrapFirst, Unwraps]
    obtain ⟨result, hresult⟩ := Option.isSome_iff_exists.1
      (isSome_wrapperInner.2 (htrim.symm ▸ hfit.1))
    have hinner (inner : List Char) : result = some inner ↔
        ∃ body, Wraps wrapper input body ∧ inner = trimChars body := by
      rw [← Option.some.injEq, ← hresult, wrapperInner_eq_some, htrim]
    rw [hresult, Option.bind_eq_bind, Option.bind_some]
    cases result with
    | none =>
      have hwraps (body : List Char) : ¬ Wraps wrapper input body := fun hbody =>
        nomatch (hinner _).2 ⟨body, hbody, rfl⟩
      rw [or_iff_right fun ⟨body, hbody, _⟩ => hwraps body hbody, and_iff_right hwraps]
      exact ih (hfit.2.resolve_left fun ⟨body, hbody⟩ => hwraps body hbody)
    | some found =>
      obtain ⟨body, hbody, rfl⟩ := (hinner found).1 rfl
      rw [or_iff_left fun h => h.1 body hbody]
      constructor
      · intro h
        cases h
        exact ⟨body, hbody, rfl, rfl⟩
      · rintro ⟨body', hbody', rfl, rfl⟩
        rw [Option.some.inj ((hinner _).2 ⟨body', hbody', rfl⟩)]
        rfl

theorem Unwraps.trimmed {default value : α} {wrappers : List (String × α)}
    (h : Unwraps text default wrappers value inner) (htrim : trimChars text = text) :
    trimChars inner = inner := by
  induction wrappers with
  | nil =>
    rw [h.2]
    exact htrim
  | cons entry wrappers ih =>
    rcases h with ⟨body, -, -, rfl⟩ | ⟨-, h⟩
    · exact trimChars_trimChars body
    · exact ih h

theorem exists_unwraps (text : List Char) (default : α) (wrappers : List (String × α)) :
    ∃ value inner, Unwraps text default wrappers value inner := by
  induction wrappers with
  | nil => exact ⟨default, text, rfl, rfl⟩
  | cons entry wrappers ih =>
    by_cases hwraps : ∃ body, Wraps entry.1 text body
    · obtain ⟨body, hbody⟩ := hwraps
      exact ⟨entry.2, _, .inl ⟨body, hbody, rfl, rfl⟩⟩
    · obtain ⟨value, inner, h⟩ := ih
      exact ⟨value, inner, .inr ⟨fun body hbody => hwraps ⟨body, hbody⟩, h⟩⟩

/-- Every slice that parsing takes of a trimmed text lies on character boundaries: those for the
modes, and those for the scopes in what the mode leaves. -/
def SlicesInBounds (text : List Char) : Prop :=
  TriesFit text modeWrappers ∧ ∀ mode inner, Unwraps text .showAll modeWrappers mode inner →
    TriesFit inner scopeWrappers

/-- Parsing a text whose slices are in bounds parses what its mode and scope leave. -/
theorem TreeFilterExpr.parse_eq {reader : FilterReader} {input : String} {mode : TreeFilterMode}
    {scope : TreeFilterScope} {middle : List Char}
    (hbounds : SlicesInBounds (trimChars input.toList))
    (hmode : Unwraps (trimChars input.toList) .showAll modeWrappers mode middle)
    (hscope : Unwraps middle .trace scopeWrappers scope inner) :
    TreeFilterExpr.parse reader input =
      some ((parseFilterExpr reader (String.ofList inner)).map fun predicate =>
        { scope, mode, predicate }) := by
  have htrim := trimChars_trimChars input.toList
  rw [TreeFilterExpr.parse, unwrapMode, (unwrapFirst_eq_some htrim hbounds.1).2 hmode,
    Option.bind_eq_bind, Option.bind_some]
  simp only [unwrapScope]
  rw [(unwrapFirst_eq_some (hmode.trimmed htrim) (hbounds.2 _ _ hmode)).2 hscope]
  rfl

/-- Parsing a tree filter returns exactly if the slices are in bounds. -/
theorem TreeFilterExpr.isSome_parse (reader : FilterReader) (input : String) :
    (TreeFilterExpr.parse reader input).isSome ↔ SlicesInBounds (trimChars input.toList) := by
  have htrim := trimChars_trimChars input.toList
  constructor
  · intro h
    obtain ⟨result, hresult⟩ := Option.isSome_iff_exists.1 h
    rw [TreeFilterExpr.parse, Option.bind_eq_bind, Option.bind_eq_some_iff] at hresult
    obtain ⟨⟨mode, middle⟩, hmode, hresult⟩ := hresult
    obtain ⟨⟨scope, inner⟩, hscope, -⟩ := Option.bind_eq_some_iff.1 hresult
    have hfit := (isSome_unwrapFirst htrim).1 (Option.isSome_of_eq_some hmode)
    refine ⟨hfit, fun mode' middle' hunwraps => ?_⟩
    have hmode' := (unwrapFirst_eq_some htrim hfit).2 hunwraps
    cases hmode.symm.trans hmode'
    exact (isSome_unwrapFirst (hunwraps.trimmed htrim)).1 (Option.isSome_of_eq_some hscope)
  · intro h
    obtain ⟨mode, middle, hmode⟩ :=
      exists_unwraps (trimChars input.toList) TreeFilterMode.showAll modeWrappers
    obtain ⟨scope, inner, hscope⟩ := exists_unwraps middle TreeFilterScope.trace scopeWrappers
    rw [TreeFilterExpr.parse_eq h hmode hscope]
    rfl

/-- A letter of two bytes across the end of the longest scope name makes parsing panic. -/
theorem TreeFilterExpr.parse_panics :
    ¬ ∀ (reader : FilterReader) (input : String), (TreeFilterExpr.parse reader input).isSome := by
  intro h
  have hparse := h wholeReader "eq(name,\"é\")"
  have hnone : (TreeFilterExpr.parse wholeReader "eq(name,\"é\")").isSome = false := by
    decide +kernel
  rw [hnone] at hparse
  cases hparse

end KevinDb
