import KevinDb.Query.FilterLexer
import KevinDb.Query.TreeFilter

namespace KevinDb
set_option autoImplicit true

variable {reader : FilterReader} {text body head rest : List Char} {word word' : List Char}

/-- The text after a wrapper, in its parentheses. -/
def wrapIn (wrapper : String) (text : List Char) : List Char :=
  wrapper.toList ++ '(' :: (text ++ [')'])

def TreeFilterMode.wrapper : TreeFilterMode → String
  | .showAll => "show_all"
  | .filteredOnly => "filtered_only"
  | .mostRelevant => "most_relevant"

def TreeFilterScope.wrapper : TreeFilterScope → String
  | .trace => "trace"
  | .root => "root"
  | .child => "child"
  | .descendant => "descendant"

def wrapScope (scope : Option TreeFilterScope) (text : List Char) : List Char :=
  (scope.map TreeFilterScope.wrapper).elim text (wrapIn · text)

def wrapMode (mode : Option TreeFilterMode) (text : List Char) : List Char :=
  (mode.map TreeFilterMode.wrapper).elim text (wrapIn · text)

theorem toLower_cases (c : Char) : c.toLower = c ∨ c.isUpper ∧ c.toLower.isLower := by
  delta Char.toLower
  split
  next hupper =>
    right
    have hbounds : ('A'.val.toNat = 65) ∧ ('Z'.val.toNat = 90) ∧ ('a'.val.toNat = 97) ∧
      ('z'.val.toNat = 122) ∧ (('a'.val - 'A'.val).toNat = 32) := ⟨rfl, rfl, rfl, rfl, rfl⟩
    simp only [Char.isUpper, Char.isLower, Bool.and_eq_true, decide_eq_true_eq, ge_iff_le,
      UInt32.le_iff_toNat_le, UInt32.toNat_add] at hupper ⊢
    omega
  · exact .inl rfl

theorem eq_of_toLower_eq {c d : Char} (hd : d.isLower = false) (h : c.toLower = d) : c = d := by
  rcases toLower_cases c with heq | ⟨-, hlower⟩
  · rwa [heq] at h
  · rw [h, hd] at hlower
    cases hlower

theorem isIdentStart_of_toLower {c : Char} (h : isIdentStart c.toLower) : isIdentStart c := by
  rcases toLower_cases c with heq | ⟨hupper, -⟩
  · rwa [heq] at h
  · rw [isIdentStart, Char.isAlpha, hupper]
    rfl

theorem isIdentChar_of_toLower {c : Char} (h : isIdentChar c.toLower) : isIdentChar c := by
  rcases toLower_cases c with heq | ⟨hupper, -⟩
  · rwa [heq] at h
  · rw [isIdentChar, Char.isAlphanum, Char.isAlpha, hupper]
    rfl

/-- The text starts with the word in any case, and an opening parenthesis. -/
def Headed (word text : List Char) : Prop :=
  ∃ head rest, text = head ++ '(' :: rest ∧ head.map Char.toLower = word

theorem takeWhile_head (rest : List Char) (hword : '(' ∉ head.map Char.toLower) :
    (head ++ '(' :: rest).takeWhile (· ≠ '(') = head := by
  have hhead : ∀ c ∈ head, decide (c ≠ '(') = true := by
    intro c hc
    rw [decide_eq_true_iff]
    rintro rfl
    exact hword (List.mem_map.2 ⟨'(', hc, rfl⟩)
  rw [List.takeWhile_append_of_pos hhead, List.takeWhile_cons_of_neg (by decide),
    List.append_nil]

/-- The word before the first parenthesis is one only. -/
theorem Headed.unique (h : Headed word text) (h' : Headed word' text) (hword : '(' ∉ word)
    (hword' : '(' ∉ word') : word = word' := by
  obtain ⟨head, rest, rfl, rfl⟩ := h
  obtain ⟨head', rest', htext, rfl⟩ := h'
  rw [← takeWhile_head rest hword, htext, takeWhile_head rest' hword']

theorem Wraps.headed {wrapper : String} (h : Wraps wrapper text body) :
    Headed (wrapper.toList.map Char.toLower) text := by
  obtain ⟨head, rfl, hlower, -⟩ := h
  exact ⟨head, body ++ [')'], rfl, hlower⟩

/-- A word that could be the name of a function. -/
def IsName (word : List Char) : Prop :=
  word.map Char.toLower = word ∧ word.all isIdentChar ∧ word.head?.any isIdentStart

instance : DecidablePred IsName := fun word =>
  inferInstanceAs (Decidable (word.map Char.toLower = word ∧ _))

/-- A filter starts with the name of one of its functions. -/
theorem Headed.filterFunction {expr : FilterExpr} (h : Headed word text) (hname : IsName word) (hparse : parseFilterExpr reader (String.ofList text) = .ok expr) :
    ∃ function, KevinDb.filterFunction (String.ofList word) = .ok function := by
  obtain ⟨head, rest, rfl, rfl⟩ := h
  cases head with
  | nil => cases hname.2.2
  | cons ch head =>
    have hstart : isIdentStart ch := isIdentStart_of_toLower hname.2.2
    have hchars : ∀ c ∈ head, isIdentChar c := by
      intro c hc
      apply isIdentChar_of_toLower
      apply List.all_eq_true.1 hname.2.1
      exact List.mem_map_of_mem (List.mem_cons_of_mem ch hc)
    rw [parseFilterExpr, String.toList_ofList] at hparse
    obtain ⟨tokens, hlex, hparse⟩ := bind_eq_ok hparse
    have hopen : ∀ c, ('(' :: rest).head? = some c → isIdentChar c = false := by
      intro c hc
      cases hc
      rfl
    rw [lex_ident hstart hchars hopen, lex_mark (show markToken '(' = some .lParen from rfl)]
      at hlex
    obtain ⟨tokens, hlex', rfl⟩ := map_eq_ok hlex
    obtain ⟨tokens, -, rfl⟩ := map_eq_ok hlex'
    obtain ⟨⟨expr', parser⟩, hparse, -⟩ := bind_eq_ok hparse
    rw [Parser.parseExpr, if_neg (show ¬ maxFilterNodes < 0 + 1 by decide)] at hparse
    obtain ⟨⟨name, parser⟩, hident, hparse⟩ := bind_eq_ok hparse
    cases hident
    obtain ⟨parser, hopen, hparse⟩ := bind_eq_ok hparse
    obtain ⟨function, hfunction, -⟩ := bind_eq_ok hparse
    rw [toAsciiLowercase, String.toList_ofList] at hfunction
    exact ⟨function, hfunction⟩

/-- The wrappers are names, and none of them is the name of a function. -/
def AreWrappers (wrappers : List (String × α)) : Prop :=
  ∀ entry ∈ wrappers, IsName entry.1.toList ∧ (filterFunction entry.1).toOption.isNone

theorem areWrappers_modes : AreWrappers modeWrappers := by
  unfold AreWrappers
  decide +kernel

theorem areWrappers_scopes : AreWrappers scopeWrappers := by
  unfold AreWrappers
  decide +kernel

theorem unwraps_of_forall_not {default value : α} {wrappers : List (String × α)}
    (h : ∀ entry ∈ wrappers, ∀ body, ¬ Wraps entry.1 text body) :
    Unwraps text default wrappers value body ↔ value = default ∧ body = text := by
  induction wrappers with
  | nil => exact Iff.rfl
  | cons entry wrappers ih =>
    obtain ⟨hentry, h⟩ := List.forall_mem_cons.1 h
    have hnone : ¬ ∃ inner, Wraps entry.1 text inner ∧ value = entry.2 ∧ body = trimChars inner := by
      rintro ⟨inner, hinner, -⟩
      exact hentry inner hinner
    rw [Unwraps, or_iff_right hnone, and_iff_right hentry]
    exact ih h

/-- No wrapper wraps a filter. -/
theorem unwraps_filter {default value : α} {wrappers : List (String × α)}
    {expr : FilterExpr} (hwrappers : AreWrappers wrappers)
    (hparse : parseFilterExpr reader (String.ofList text) = .ok expr) :
    Unwraps text default wrappers value body ↔ value = default ∧ body = text := by
  apply unwraps_of_forall_not
  intro entry hentry body hwraps
  obtain ⟨hname, hnone⟩ := hwrappers entry hentry
  have hhead := hwraps.headed
  rw [hname.1] at hhead
  obtain ⟨function, hfunction⟩ := hhead.filterFunction hname hparse
  rw [String.ofList_toList] at hfunction
  rw [hfunction] at hnone
  cases hnone

section Wrapped
variable {wrapper wrapper' : String} {entries : List (String × α)} {value default : α}

theorem IsName.not_mem_paren (h : IsName word) : '(' ∉ word := fun hmem =>
  absurd (List.all_eq_true.1 h.2.1 _ hmem) (by decide)

theorem headed_wrapIn (hname : IsName wrapper.toList) :
    Headed wrapper.toList (wrapIn wrapper text) :=
  ⟨wrapper.toList, text ++ [')'], rfl, hname.1⟩

theorem wraps_wrapIn (hname : IsName wrapper.toList) (hname' : IsName wrapper'.toList) :
    Wraps wrapper' (wrapIn wrapper text) body ↔
      wrapper' = wrapper ∧ body = text ∧ balancedParentheses text := by
  constructor
  · intro h
    have hhead := h.headed
    rw [hname'.1] at hhead
    have hword := hhead.unique (headed_wrapIn hname) hname'.not_mem_paren hname.not_mem_paren
    obtain ⟨head, htext, hlower, hbalanced⟩ := h
    have hlength := Wraps.length_head hlower
    rw [hword] at hlength
    obtain ⟨-, hback⟩ := append_inj_of_byteLength htext hlength.symm
    rw [List.cons_inj_right, List.append_left_inj] at hback
    exact ⟨String.toList_inj.1 hword, hback.symm, hback ▸ hbalanced⟩
  · rintro ⟨rfl, rfl, hbalanced⟩
    exact ⟨wrapper'.toList, rfl, rfl, hbalanced⟩

theorem trimChars_wrapIn (hname : IsName wrapper.toList) :
    trimChars (wrapIn wrapper text) = wrapIn wrapper text := by
  apply trimChars_eq_self
  · rw [wrapIn]
    cases hword : wrapper.toList with
    | nil =>
      rw [hword] at hname
      cases hname.2.2
    | cons c word =>
      rw [hword] at hname
      exact isWhitespace_eq_false (isIdentChar_of_start hname.2.2)
  · rw [wrapIn, ← List.cons_append, ← List.append_assoc, List.getLast?_concat]
    rfl

/-- The entries without the wrapper leave a text in it as it is. -/
theorem unwraps_wrapIn_of_not_mem (hentries : AreWrappers entries) (hname : IsName wrapper.toList)
    (h : wrapper ∉ entries.map Prod.fst) :
    Unwraps (wrapIn wrapper text) default entries value body ↔
      value = default ∧ body = wrapIn wrapper text := by
  apply unwraps_of_forall_not
  intro entry hentry body hwraps
  obtain ⟨heq, -⟩ := (wraps_wrapIn hname (hentries entry hentry).1).1 hwraps
  exact h (List.mem_map.2 ⟨entry, hentry, heq⟩)

/-- The entry of the wrapper takes a text out of it if its parentheses are balanced. -/
theorem unwraps_wrapIn {wrapped : α} (hentries : AreWrappers entries)
    (hnodup : (entries.map Prod.fst).Nodup) (hentry : (wrapper, wrapped) ∈ entries) :
    Unwraps (wrapIn wrapper text) default entries value body ↔
      if balancedParentheses text then value = wrapped ∧ body = trimChars text
      else value = default ∧ body = wrapIn wrapper text := by
  induction entries with
  | nil => cases hentry
  | cons entry entries ih =>
    obtain ⟨hfirst, hrest⟩ := List.forall_mem_cons.1 hentries
    rw [List.map_cons, List.nodup_cons] at hnodup
    have hname := (hentries _ hentry).1
    rw [Unwraps]
    simp only [wraps_wrapIn hname hfirst.1]
    rcases List.mem_cons.1 hentry with rfl | hmem
    · by_cases hbalanced : balancedParentheses text
      · rw [if_pos hbalanced, or_iff_left fun h => h.1 text ⟨rfl, rfl, hbalanced⟩]
        constructor
        · rintro ⟨_, ⟨-, rfl, -⟩, hinner⟩
          exact hinner
        · exact fun hinner => ⟨text, ⟨rfl, rfl, hbalanced⟩, hinner⟩
      · rw [if_neg hbalanced, or_iff_right (not_exists.2 fun _ h => hbalanced h.1.2.2),
          and_iff_right fun _ h => hbalanced h.2.2]
        exact unwraps_wrapIn_of_not_mem hrest hname hnodup.1
    · have hne : entry.1 ≠ wrapper := by
        intro heq
        rw [heq] at hnodup
        exact hnodup.1 (List.mem_map.2 ⟨_, hmem, rfl⟩)
      rw [or_iff_right (not_exists.2 fun _ h => hne h.1.1), and_iff_right fun _ h => hne h.1]
      exact ih hrest hnodup.2 hmem

/-- A text in a wrapper is no filter. -/
theorem not_parse_wrapIn {expr : FilterExpr} (hentries : AreWrappers entries)
    (hentry : (wrapper, value) ∈ entries) :
    parseFilterExpr reader (String.ofList (wrapIn wrapper text)) ≠ .ok expr := by
  intro hparse
  obtain ⟨hname, hnone⟩ := hentries _ hentry
  obtain ⟨function, hfunction⟩ := (headed_wrapIn hname).filterFunction hname hparse
  rw [String.ofList_toList] at hfunction
  rw [hfunction] at hnone
  cases hnone

end Wrapped

def ParenScan.deeper (scan : ParenScan) : ParenScan :=
  { scan with depth := scan.depth + 1 }

theorem ParenScan.step_deeper {scan scan' : ParenScan} {ch : Char} (h : scan.step ch = some scan')
    (hdepth : 0 ≤ scan.depth) : scan.deeper.step ch = some scan'.deeper ∧ 0 ≤ scan'.depth := by
  rw [ParenScan.step] at h
  rw [ParenScan.step, ParenScan.deeper]
  split_ifs at h ⊢
  all_goals
    cases h
    first
      | exact ⟨rfl, hdepth⟩
      | exact ⟨rfl, by dsimp only; omega⟩
      | skip
  · dsimp only at *
    omega
  · refine ⟨?_, by dsimp only; omega⟩
    rw [ParenScan.deeper]
    dsimp only
    rw [Int.add_sub_cancel, Int.sub_add_cancel]

/-- Scanning a text one level deeper ends one level deeper. -/
theorem ParenScan.foldlM_deeper {scan scan' : ParenScan}
    (h : text.foldlM ParenScan.step scan = some scan') (hdepth : 0 ≤ scan.depth) :
    text.foldlM ParenScan.step scan.deeper = some scan'.deeper := by
  induction text generalizing scan with
  | nil =>
    cases h
    rfl
  | cons ch text ih =>
    rw [List.foldlM_cons, Option.bind_eq_bind, Option.bind_eq_some_iff] at h
    obtain ⟨next, hstep, h⟩ := h
    obtain ⟨hdeeper, hnext⟩ := ParenScan.step_deeper hstep hdepth
    rw [List.foldlM_cons, hdeeper]
    exact ih h hnext

theorem foldlM_step_name (hword : ∀ c ∈ word, isIdentChar c) {scan : ParenScan}
    (hout : scan.inString = false) : word.foldlM ParenScan.step scan = some scan := by
  induction word with
  | nil => rfl
  | cons ch word ih =>
    obtain ⟨hch, hword⟩ := List.forall_mem_cons.1 hword
    have hne {c : Char} (hc : isIdentChar c = false) : ch ≠ c := by
      rintro rfl
      rw [hc] at hch
      cases hch
    rw [List.foldlM_cons, ParenScan.step, if_neg (by rw [hout]; exact Bool.false_ne_true),
      if_neg (hne rfl), if_neg (hne rfl), if_neg (hne rfl)]
    exact ih hword

theorem balanced_wrapIn {wrapper : String} (hname : IsName wrapper.toList)
    (h : balancedParentheses text) : balancedParentheses (wrapIn wrapper text) := by
  rw [balancedParentheses] at h ⊢
  cases hscan : text.foldlM ParenScan.step ⟨0, false, false⟩ with
  | none =>
    rw [hscan] at h
    cases h
  | some scan =>
    rw [hscan, Bool.and_eq_true, decide_eq_true_eq, Bool.not_eq_true'] at h
    have hinside := ParenScan.foldlM_deeper hscan (Int.le_refl 0)
    have hclose : scan.deeper.step ')' = some { scan with depth := 0 } := by
      rw [ParenScan.step, ParenScan.deeper, h.1]
      simp [h.2]
    have hopen : ParenScan.step ⟨0, false, false⟩ '(' =
        some (ParenScan.deeper ⟨0, false, false⟩) := rfl
    rw [wrapIn, List.foldlM_append, foldlM_step_name (List.all_eq_true.1 hname.2.1) rfl,
      Option.bind_eq_bind, Option.bind_some, List.foldlM_cons, hopen, Option.bind_eq_bind,
      Option.bind_some, List.foldlM_append, hinside, Option.bind_eq_bind, Option.bind_some,
      List.foldlM_cons, hclose]
    simp [h.2]

/-- Parsing ignores the spaces around a filter. -/
theorem parseFilterExpr_trimChars {expr : FilterExpr}
    (h : parseFilterExpr reader (String.ofList text) = .ok expr) :
    parseFilterExpr reader (String.ofList (trimChars text)) = .ok expr := by
  obtain ⟨front, back, htext, hfront, hback⟩ := exists_trimChars text
  rw [parseFilterExpr, String.toList_ofList] at h ⊢
  obtain ⟨tokens, hlex, h⟩ := bind_eq_ok h
  rw [htext, List.append_assoc, lex_spaces_append hfront] at hlex
  rw [lex_append hback hlex]
  exact h

theorem mem_modeWrappers (mode : TreeFilterMode) : (mode.wrapper, mode) ∈ modeWrappers := by
  cases mode <;> simp [modeWrappers, TreeFilterMode.wrapper]

theorem mem_scopeWrappers (scope : TreeFilterScope) : (scope.wrapper, scope) ∈ scopeWrappers := by
  cases scope <;> simp [scopeWrappers, TreeFilterScope.wrapper]

theorem isName_mode (mode : TreeFilterMode) : IsName mode.wrapper.toList :=
  (areWrappers_modes _ (mem_modeWrappers mode)).1

theorem isName_scope (scope : TreeFilterScope) : IsName scope.wrapper.toList :=
  (areWrappers_scopes _ (mem_scopeWrappers scope)).1

theorem scope_wrapper_not_mem (scope : TreeFilterScope) :
    scope.wrapper ∉ modeWrappers.map Prod.fst := by
  cases scope <;> decide

theorem mode_wrapper_not_mem (mode : TreeFilterMode) :
    mode.wrapper ∉ scopeWrappers.map Prod.fst := by
  cases mode <;> decide

variable {expr : FilterExpr} {mode : TreeFilterMode} {scope : TreeFilterScope}
  {mode? : Option TreeFilterMode} {scope? : Option TreeFilterScope} {middle inner : List Char}

/-- Without a mode, none of the modes leaves anything but the text itself. -/
theorem unwraps_wrapScope (hparse : parseFilterExpr reader (String.ofList text) = .ok expr) :
    Unwraps (trimChars (wrapScope scope? text)) .showAll modeWrappers mode middle ↔
      mode = .showAll ∧ middle = trimChars (wrapScope scope? text) := by
  cases scope? with
  | none => exact unwraps_filter areWrappers_modes (parseFilterExpr_trimChars hparse)
  | some scope =>
    rw [show wrapScope (some scope) text = wrapIn scope.wrapper text from rfl,
      trimChars_wrapIn (isName_scope scope)]
    exact unwraps_wrapIn_of_not_mem areWrappers_modes (isName_scope scope)
      (scope_wrapper_not_mem scope)

/-- The mode wrapper is taken off if the parentheses in it are balanced. -/
theorem unwraps_wrapMode (mode' : TreeFilterMode) :
    Unwraps (trimChars (wrapMode (some mode') text)) .showAll modeWrappers mode middle ↔
      if balancedParentheses text then mode = mode' ∧ middle = trimChars text
      else mode = .showAll ∧ middle = wrapMode (some mode') text := by
  rw [show wrapMode (some mode') text = wrapIn mode'.wrapper text from rfl,
    trimChars_wrapIn (isName_mode mode')]
  exact unwraps_wrapIn areWrappers_modes (by decide) (mem_modeWrappers mode')

/-- The scope wrapper is taken off if the parentheses in it are balanced. -/
theorem unwraps_scope (hparse : parseFilterExpr reader (String.ofList text) = .ok expr) :
    Unwraps (trimChars (wrapScope scope? text)) .trace scopeWrappers scope inner ↔
      if scope?.isSome → balancedParentheses text then
        scope = scope?.getD .trace ∧ inner = trimChars text
      else scope = .trace ∧ inner = wrapScope scope? text := by
  cases scope? with
  | none =>
    rw [if_pos nofun]
    exact unwraps_filter areWrappers_scopes (parseFilterExpr_trimChars hparse)
  | some scope' =>
    rw [show wrapScope (some scope') text = wrapIn scope'.wrapper text from rfl,
      trimChars_wrapIn (isName_scope scope'),
      unwraps_wrapIn areWrappers_scopes (by decide) (mem_scopeWrappers scope')]
    simp only [Option.isSome_some, true_imp_iff, Option.getD_some]

/-- The text of a tree filter with an optional mode and an optional scope. -/
def wrapped (mode? : Option TreeFilterMode) (scope? : Option TreeFilterScope) (filter : String) :
    String :=
  String.ofList (wrapMode mode? (wrapScope scope? filter.toList))

/-- Balanced parentheses are balanced in a scope, too. -/
theorem balanced_wrapScope (h : balancedParentheses text) :
    balancedParentheses (wrapScope scope? text) := by
  cases scope? with
  | none => exact h
  | some scope => exact balanced_wrapIn (isName_scope scope) h

/-- What wrappers around balanced parentheses leave is the filter. -/
theorem unwraps_wrapped (hparse : parseFilterExpr reader (String.ofList text) = .ok expr)
    (hbalanced : mode?.isSome ∨ scope?.isSome → balancedParentheses text) :
    Unwraps (trimChars (wrapMode mode? (wrapScope scope? text))) .showAll modeWrappers
        (mode?.getD .showAll) (trimChars (wrapScope scope? text)) ∧
      Unwraps (trimChars (wrapScope scope? text)) .trace scopeWrappers (scope?.getD .trace)
        (trimChars text) := by
  constructor
  · cases mode? with
    | none => exact (unwraps_wrapScope hparse).2 ⟨rfl, rfl⟩
    | some mode =>
      rw [unwraps_wrapMode, if_pos (balanced_wrapScope (hbalanced (.inl rfl)))]
      exact ⟨rfl, rfl⟩
  · rw [unwraps_scope hparse, if_pos fun h => hbalanced (.inr h)]
    exact ⟨rfl, rfl⟩

/-- What wrappers around other parentheses leave is no filter. -/
theorem not_parse_unwrapped {expr' : FilterExpr}
    (hparse : parseFilterExpr reader (String.ofList text) = .ok expr)
    (hwrapped : mode?.isSome ∨ scope?.isSome) (hbalanced : ¬ balancedParentheses text)
    (hmode : Unwraps (trimChars (wrapMode mode? (wrapScope scope? text))) .showAll modeWrappers
      mode middle) (hscope : Unwraps middle .trace scopeWrappers scope inner) :
    parseFilterExpr reader (String.ofList inner) ≠ .ok expr' := by
  have hmiddle : (∃ scope', scope? = some scope' ∧ middle = trimChars (wrapScope scope? text)) ∨
      ∃ mode', mode? = some mode' ∧ middle = wrapIn mode'.wrapper (wrapScope scope? text) := by
    cases mode? with
    | none =>
      obtain ⟨scope', hsome⟩ := Option.isSome_iff_exists.1 (hwrapped.resolve_left nofun)
      exact .inl ⟨scope', hsome, ((unwraps_wrapScope hparse).1 hmode).2⟩
    | some mode' =>
      rw [unwraps_wrapMode] at hmode
      split at hmode
      next hinside =>
        cases scope? with
        | none => exact absurd hinside hbalanced
        | some scope' => exact .inl ⟨scope', rfl, hmode.2⟩
      · exact .inr ⟨mode', rfl, hmode.2⟩
  rcases hmiddle with ⟨scope', rfl, rfl⟩ | ⟨mode', rfl, rfl⟩
  · rw [unwraps_scope hparse, if_neg fun h => hbalanced (h rfl)] at hscope
    rw [hscope.2]
    exact not_parse_wrapIn areWrappers_scopes (mem_scopeWrappers scope')
  · rw [unwraps_wrapIn_of_not_mem areWrappers_scopes (isName_mode mode')
      (mode_wrapper_not_mem mode')] at hscope
    rw [hscope.2]
    exact not_parse_wrapIn areWrappers_modes (mem_modeWrappers mode')

/-- Wrappers around a filter are transparent exactly if the slices are in bounds and the
parentheses in the filter are balanced as the wrappers count them. -/
theorem TreeFilterExpr.parse_wrapped (reader : FilterReader) (filter : String)
    (predicate : FilterExpr) (hparse : parseFilterExpr reader filter = .ok predicate)
    (mode? : Option TreeFilterMode) (scope? : Option TreeFilterScope) :
    TreeFilterExpr.parse reader (wrapped mode? scope? filter) =
        some (.ok { scope := scope?.getD .trace, mode := mode?.getD .showAll, predicate }) ↔
      SlicesInBounds (trimChars (wrapped mode? scope? filter).toList) ∧
        (mode?.isSome ∨ scope?.isSome → balancedParentheses filter.toList) := by
  rw [← String.ofList_toList (s := filter)] at hparse
  have htext : (wrapped mode? scope? filter).toList =
      wrapMode mode? (wrapScope scope? filter.toList) := String.toList_ofList
  constructor
  · intro h
    have hbounds := (isSome_parse _ _).1 (Option.isSome_of_eq_some h)
    refine ⟨hbounds, fun hwrapped => ?_⟩
    by_contra hbalanced
    obtain ⟨mode, middle, hmode⟩ := exists_unwraps
      (trimChars (wrapped mode? scope? filter).toList) TreeFilterMode.showAll modeWrappers
    obtain ⟨scope, inner, hscope⟩ := exists_unwraps middle TreeFilterScope.trace scopeWrappers
    rw [parse_eq hbounds hmode hscope] at h
    obtain ⟨expr, hexpr, -⟩ := map_eq_ok (Option.some.inj h)
    rw [htext] at hmode
    exact not_parse_unwrapped hparse hwrapped hbalanced hmode hscope hexpr
  · rintro ⟨hbounds, hbalanced⟩
    obtain ⟨hmode, hscope⟩ := unwraps_wrapped hparse hbalanced
    rw [← htext] at hmode
    rw [parse_eq hbounds hmode hscope, parseFilterExpr_trimChars hparse]
    rfl

theorem TreeFilterExpr.parse_wrapped_root : ∃ predicate,
    parseFilterExpr wholeReader "eq(name,\"x\")" = .ok predicate ∧
      (TreeFilterExpr.parse wholeReader "root(eq(name,\"x\"))" =
          some (.ok { scope := .root, mode := .showAll, predicate }) ↔
        SlicesInBounds (trimChars "root(eq(name,\"x\"))".toList) ∧
          balancedParentheses "eq(name,\"x\")".toList) := by
  have hparse : (parseFilterExpr wholeReader "eq(name,\"x\")").toOption.isSome := by
    decide +kernel
  obtain ⟨predicate, hpredicate⟩ := Option.isSome_iff_exists.1 hparse
  have hok := eq_ok_of_toOption hpredicate
  refine ⟨predicate, hok, ?_⟩
  have h := TreeFilterExpr.parse_wrapped wholeReader _ predicate hok none (some .root)
  have htext : wrapped none (some .root) "eq(name,\"x\")" = "root(eq(name,\"x\"))" := by
    decide +kernel
  rw [htext, imp_iff_right (.inr rfl)] at h
  exact h

/-- A parenthesis in single quotes is text to the lexer and counts for the wrappers. -/
theorem TreeFilterExpr.wrapped_not_transparent :
    ¬ ∀ (reader : FilterReader) (filter : String) (predicate : FilterExpr),
      parseFilterExpr reader filter = .ok predicate →
      ∀ (mode? : Option TreeFilterMode) (scope? : Option TreeFilterScope),
        TreeFilterExpr.parse reader (wrapped mode? scope? filter) =
          some (.ok { scope := scope?.getD .trace, mode := mode?.getD .showAll, predicate }) := by
  intro h
  have hparse : (parseFilterExpr wholeReader "eq(name,'a)')").toOption.isSome := by
    decide +kernel
  obtain ⟨predicate, hpredicate⟩ := Option.isSome_iff_exists.1 hparse
  have htree := h wholeReader _ predicate (eq_ok_of_toOption hpredicate) none (some .root)
  have hfails : ((TreeFilterExpr.parse wholeReader (wrapped none (some .root) "eq(name,'a)')")).bind
      fun result => result.toOption.map fun _ => ()) = none := by
    decide +kernel
  rw [htree] at hfails
  cases hfails

end KevinDb
