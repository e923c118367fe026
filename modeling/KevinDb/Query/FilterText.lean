import KevinDb.Query.FilterMeaning
import KevinDb.Query.FilterParse

namespace KevinDb
set_option autoImplicit true

variable {reader : FilterReader} {formats : FilterFormats} {ch : Char} {rest : List Char}

def Token.isMark : Token → Bool
  | .lParen | .rParen | .lBracket | .rBracket | .comma => true
  | _ => false

/-- A character within double quotes. -/
def escapeChar (ch : Char) : List Char :=
  if ch = '"' ∨ ch = '\\' then ['\\', ch] else [ch]

/-- The canonical text of a token. -/
def Token.chars (formats : FilterFormats) : Token → List Char
  | .ident name => name.toList
  | .string value => '"' :: (value.toList.flatMap escapeChar ++ ['"'])
  | .number value => (formats.showF64 value).toList
  | .lParen => ['(']
  | .rParen => [')']
  | .lBracket => ['[']
  | .rBracket => [']']
  | .comma => [',', ' ']

/-- The canonical text of an expression. -/
def FilterExpr.text (formats : FilterFormats) (expr : FilterExpr) : String :=
  String.ofList (expr.tokens.flatMap (Token.chars formats))

/-- The text of the number is a decimal, and reads as the number. -/
def FilterFormats.IsDecimal (formats : FilterFormats) (value : ℚ) : Prop :=
  ∃ first digits, (formats.showF64 value).toList = first :: digits ∧
    (first = '-' ∨ first.isDigit) ∧ (∀ c ∈ digits, isNumberChar c) ∧
      formats.readF64 (formats.showF64 value) = some value

/-- The numbers among the values of an expression. -/
def FilterExpr.HasNumber (expr : FilterExpr) (value : ℚ) : Prop :=
  Slot.value (.number value) ∈ expr.slots

/-- The characters of an identifier. -/
def isWord : List Char → Bool
  | [] => false
  | ch :: chars => isIdentStart ch && chars.all isIdentChar

/-- The text of the token is one that the lexer takes for the token. -/
def Token.IsLexical (formats : FilterFormats) : Token → Prop
  | .ident name => isWord name.toList
  | .number value => formats.IsDecimal value
  | _ => True

theorem readString_escaped {chars value : List Char} :
    readString '"' value (chars.flatMap escapeChar ++ '"' :: rest) =
      .ok (String.ofList (value ++ chars), rest) := by
  induction chars generalizing value with
  | nil => rw [List.flatMap_nil, List.nil_append, List.append_nil, readString_quote]
  | cons c chars ih =>
    rw [List.flatMap_cons, List.append_assoc, List.append_cons value c chars]
    by_cases hescape : c = '"' ∨ c = '\\'
    · rw [escapeChar, if_pos hescape, List.cons_append, List.singleton_append,
        readString_escape value (by decide), ih]
    · obtain ⟨hquote, hescape'⟩ := not_or.1 hescape
      rw [escapeChar, if_neg hescape, List.singleton_append, readString_cons value hquote hescape',
        ih]

theorem lex_string {value : String} :
    lex reader ((Token.string value).chars formats ++ rest) =
      (lex reader rest).map (.string value :: ·) := by
  rw [Token.chars, List.cons_append, List.append_assoc, List.singleton_append]
  refine lex_token ?_
  have hread : readString '"' [] (value.toList.flatMap escapeChar ++ '"' :: rest) =
      .ok (value, rest) := by
    rw [readString_escaped, List.nil_append, String.ofList_toList]
  change (readString '"' [] (value.toList.flatMap escapeChar ++ '"' :: rest)).bind _ = _
  rw [hread]
  rfl

theorem isNumberStart_ne {c : Char} (hch : ch = '-' ∨ ch.isDigit) (hdash : c ≠ '-')
    (hdigit : c.isDigit = false) : ch ≠ c := by
  rintro rfl
  rcases hch with hch | hch
  · exact hdash hch
  · rw [hdigit] at hch
    cases hch

/-- A text that starts like a number is read as one. -/
theorem lexToken_number {chars : List Char} (hfirst : ch = '-' ∨ ch.isDigit) :
    lexToken reader ch chars =
      (readNumber reader (ch :: chars)).bind fun read => .ok (some read.1, read.2) := by
  have hspace : ¬ isWhitespace ch := by
    intro hspace
    have hno := isNumberChar_eq_false hspace
    rw [isNumberChar_of_start hfirst] at hno
    cases hno
  have hne {c : Char} (hdash : c ≠ '-') (hdigit : c.isDigit = false) : ¬ ch = c :=
    isNumberStart_ne hfirst hdash hdigit
  have hquote : ¬ (ch = '"' ∨ ch = singleQuote) :=
    not_or_intro (hne (by decide) rfl) (hne (by decide) rfl)
  rw [lexToken, if_neg hspace, if_neg (hne (by decide) rfl), if_neg (hne (by decide) rfl),
    if_neg (hne (by decide) rfl), if_neg (hne (by decide) rfl), if_neg (hne (by decide) rfl),
    if_neg hquote, if_pos hfirst]
  rfl

/-- The characters of a number are read as what they parse to. -/
theorem lex_number_chars {digits : List Char} {value : ℚ} (hfirst : ch = '-' ∨ ch.isDigit)
    (hdigits : ∀ c ∈ digits, isNumberChar c)
    (hread : reader.formats.readF64 (String.ofList (ch :: digits)) = some value)
    (hrest : ∀ c, rest.head? = some c → isNumberChar c = false) :
    lex reader (ch :: (digits ++ rest)) = (lex reader rest).map (.number value :: ·) := by
  refine lex_token ?_
  have hspan : (ch :: (digits ++ rest)).span isNumberChar = (ch :: digits, rest) :=
    span_word (List.forall_mem_cons.2 ⟨isNumberChar_of_start hfirst, hdigits⟩) hrest
  have hnumber : readNumber reader (ch :: (digits ++ rest)) = .ok (.number value, rest) :=
    readNumber_eq_ok.2 ⟨value, by rw [hspan, hread], rfl, by rw [hspan]⟩
  rw [lexToken_number hfirst, hnumber]
  rfl

theorem lex_number {value : ℚ} (hdecimal : reader.formats.IsDecimal value)
    (hrest : ∀ c, rest.head? = some c → isNumberChar c = false) :
    lex reader ((Token.number value).chars reader.formats ++ rest) =
      (lex reader rest).map (.number value :: ·) := by
  obtain ⟨first, digits, htext, hfirst, hdigits, hread⟩ := hdecimal
  rw [Token.chars, htext, List.cons_append]
  refine lex_number_chars hfirst hdigits ?_ hrest
  rw [← htext, String.ofList_toList, hread]

/-- The text of a token is read as the token, if a word or a number ends with it. -/
theorem lex_chars_append {token : Token} (hlexical : token.IsLexical reader.formats)
    (hrest : token.isMark ∨
      ∀ c, rest.head? = some c → isIdentChar c = false ∧ isNumberChar c = false) :
    lex reader (token.chars reader.formats ++ rest) = (lex reader rest).map (token :: ·) := by
  cases token with
  | ident name =>
    have hend : ∀ c, rest.head? = some c → isIdentChar c = false :=
      fun c hc => (hrest.resolve_left Bool.false_ne_true c hc).1
    rw [Token.IsLexical] at hlexical
    cases htext : name.toList with
    | nil =>
      rw [htext] at hlexical
      cases hlexical
    | cons first word =>
      rw [htext, isWord, Bool.and_eq_true, List.all_eq_true] at hlexical
      rw [Token.chars, htext, lex_ident hlexical.1 hlexical.2 hend, ← htext, String.ofList_toList]
  | string value => exact lex_string
  | number value =>
    exact lex_number hlexical fun c hc => (hrest.resolve_left Bool.false_ne_true c hc).2
  | lParen => exact lex_mark rfl
  | rParen => exact lex_mark rfl
  | lBracket => exact lex_mark rfl
  | rBracket => exact lex_mark rfl
  | comma =>
    rw [Token.chars, List.cons_append, lex_mark rfl, lex_spaces_append (List.forall_mem_singleton.2 rfl)]

theorem head?_chars_of_isMark {token : Token} (hmark : token.isMark) :
    ∃ c chars, token.chars formats = c :: chars ∧ isIdentChar c = false ∧
      isNumberChar c = false := by
  cases token with
  | lParen => exact ⟨_, _, rfl, rfl, rfl⟩
  | rParen => exact ⟨_, _, rfl, rfl, rfl⟩
  | lBracket => exact ⟨_, _, rfl, rfl, rfl⟩
  | rBracket => exact ⟨_, _, rfl, rfl, rfl⟩
  | comma => exact ⟨_, _, rfl, rfl, rfl⟩
  | _ => cases hmark

/-- The text of tokens is read as the tokens, if there is a mark between any two others. -/
theorem lex_chars {tokens : List Token}
    (hlexical : ∀ token ∈ tokens, token.IsLexical reader.formats)
    (hapart : tokens.IsChain fun token next => token.isMark ∨ next.isMark) :
    lex reader (tokens.flatMap (Token.chars reader.formats)) = .ok tokens := by
  induction tokens with
  | nil => rfl
  | cons token tokens ih =>
    obtain ⟨htoken, hlexical⟩ := List.forall_mem_cons.1 hlexical
    rw [List.flatMap_cons, lex_chars_append htoken, ih hlexical hapart.tail]
    · rfl
    · cases tokens with
      | nil => exact .inr nofun
      | cons next tokens =>
        refine (List.isChain_cons_cons.1 hapart).1.imp_right fun hnext c hc => ?_
        obtain ⟨first, chars, htext, hfirst⟩ := head?_chars_of_isMark hnext
        rw [List.flatMap_cons, htext] at hc
        cases hc
        exact hfirst

/-- Places with a mark between any two others, and no marks but the punctuation. -/
structure SlotsApart (slots : List Slot) : Prop where
  chain : slots.IsChain fun slot next => slot.token.isMark ∨ next.token.isMark
  marks : ∀ mark, Slot.mark mark ∈ slots → mark.isMark

theorem slotsApart_nil : SlotsApart [] :=
  ⟨.nil, nofun⟩

theorem slotsApart_singleton (slot : Slot) (hslot : ∀ mark, slot ≠ .mark mark) :
    SlotsApart [slot] :=
  ⟨.singleton _, fun mark hmem => absurd (List.mem_singleton.1 hmem).symm (hslot mark)⟩

/-- Places with a mark between them stay apart. -/
theorem SlotsApart.append_mark {slots slots' : List Slot} (h : SlotsApart slots) (mark : Token)
    (hmark : mark.isMark) (h' : SlotsApart slots') : SlotsApart (slots ++ .mark mark :: slots') where
  chain := by
    refine List.isChain_append.2 ⟨h.chain, ?_, fun slot _ next hnext => ?_⟩
    · refine List.isChain_cons.2 ⟨fun _ _ => .inl hmark, h'.chain⟩
    · cases hnext
      exact .inr hmark
  marks mark' hmem := by
    rcases List.mem_append.1 hmem with hmem | hmem
    · exact h.marks mark' hmem
    · rcases List.mem_cons.1 hmem with heq | hmem
      · cases heq
        exact hmark
      · exact h'.marks mark' hmem

theorem SlotsApart.commaSlots {groups : List (List Slot)} (h : ∀ slots ∈ groups, SlotsApart slots) :
    SlotsApart (commaSlots groups) := by
  induction groups with
  | nil => exact slotsApart_nil
  | cons slots groups ih =>
    obtain ⟨hslots, hgroups⟩ := List.forall_mem_cons.1 h
    cases groups with
    | nil => exact hslots
    | cons next groups => exact hslots.append_mark .comma rfl (ih hgroups)

theorem SlotsApart.callSlots {function : FilterFunction} {arguments : List Slot}
    (h : SlotsApart arguments) : SlotsApart (callSlots function arguments) :=
  (slotsApart_singleton (.call function) nofun).append_mark .lParen rfl
    (h.append_mark .rParen rfl slotsApart_nil)

theorem FilterExpr.slotsApart (expr : FilterExpr) : SlotsApart expr.slots := by
  have hfield (field : FilterField) {slots : List Slot} (h : SlotsApart slots) :
      SlotsApart (.field field :: .mark .comma :: slots) :=
    (slotsApart_singleton (.field field) nofun).append_mark .comma rfl h
  have hvalue (value : FilterValue) : SlotsApart [.value value] := slotsApart_singleton _ nofun
  have htext (text : String) : SlotsApart [.text text] := slotsApart_singleton _ nofun
  induction expr using FilterExpr.induction with
  | hatom expr hatom =>
    refine SlotsApart.callSlots ?_
    cases expr with
    | and children => cases hatom
    | or children => cases hatom
    | compare op field value => exact hfield field (hvalue value)
    | has field value => exact hfield field (hvalue value)
    | isIn field values =>
      have hvalues : SlotsApart (commaSlots (values.map fun value => [.value value])) := by
        refine .commaSlots fun slots hslots => ?_
        obtain ⟨value, -, rfl⟩ := List.mem_map.1 hslots
        exact hvalue value
      apply hfield
      exact slotsApart_nil.append_mark .lBracket rfl
        (hvalues.append_mark .rBracket rfl slotsApart_nil)
    | contains field value negated => exact hfield field (hvalue value)
    | search field query =>
      cases field with
      | none => exact htext query
      | some field => exact hfield field (htext query)
    | jsonKey field pattern =>
      cases field with
      | none => exact htext pattern
      | some field => exact hfield field (htext pattern)
    | jsonKeySearch field path query =>
      cases field with
      | none =>
        exact (slotsApart_singleton (.path path) nofun).append_mark .comma rfl (htext query)
      | some field =>
        exact hfield field ((htext path).append_mark .comma rfl (htext query))
  | hand children ih =>
    refine SlotsApart.callSlots (.commaSlots fun slots hslots => ?_)
    rw [childSlots_eq] at hslots
    obtain ⟨child, hchild, rfl⟩ := List.mem_map.1 hslots
    exact ih child hchild
  | hor children ih =>
    refine SlotsApart.callSlots (.commaSlots fun slots hslots => ?_)
    rw [childSlots_eq] at hslots
    obtain ⟨child, hchild, rfl⟩ := List.mem_map.1 hslots
    exact ih child hchild

theorem FilterFunction.filterFunction_name (function : FilterFunction) :
    filterFunction (toAsciiLowercase function.name) = .ok function := by
  cases function with
  | compare op => cases op <;> rfl
  | contains negated => cases negated <;> rfl
  | _ => rfl

/-- A place reads its canonical token. -/
theorem Slot.reads_token (slot : Slot) : slot.reads formats slot.token := by
  cases slot with
  | call function => exact ⟨function.name, rfl, function.filterFunction_name⟩
  | field field => exact ⟨field.spelling, rfl, field.parseField_spelling⟩
  | value value =>
    cases value with
    | string value => rfl
    | number value => rfl
    | bool value => cases value <;> rfl
  | text value => rfl
  | path value => exact ⟨rfl, rfl⟩
  | mark token => rfl

theorem FilterExpr.spelledBy_tokens (expr : FilterExpr) : expr.spelledBy formats expr.tokens := by
  rw [spelledBy, tokens, List.forall₂_map_right_iff, List.forall₂_same]
  exact fun slot _ => slot.reads_token

theorem FilterFunction.isLexical_name (function : FilterFunction) :
    (Token.ident function.name).IsLexical formats := by
  cases function with
  | compare op => cases op <;> rfl
  | contains negated => cases negated <;> rfl
  | _ => rfl

theorem FilterField.isLexical_spelling (field : FilterField) :
    (Token.ident field.spelling).IsLexical formats := by
  cases field <;> rfl

theorem FilterExpr.isLexical_tokens {expr : FilterExpr}
    (hdecimal : ∀ value, expr.HasNumber value → formats.IsDecimal value) :
    ∀ token ∈ expr.tokens, token.IsLexical formats := by
  intro token htoken
  obtain ⟨slot, hslot, rfl⟩ := List.mem_map.1 htoken
  cases slot with
  | call function => exact function.isLexical_name
  | field field => exact field.isLexical_spelling
  | value value =>
    cases value with
    | string value => trivial
    | number value => exact hdecimal value hslot
    | bool value => cases value <;> rfl
  | text value => trivial
  | path value => trivial
  | mark token =>
    have hmark := expr.slotsApart.marks token hslot
    cases token with
    | ident => cases hmark
    | number => cases hmark
    | _ => trivial

/-- The canonical text of an expression is read as its canonical tokens. -/
theorem FilterExpr.lex_text {expr : FilterExpr}
    (hdecimal : ∀ value, expr.HasNumber value → reader.formats.IsDecimal value) :
    lex reader (expr.text reader.formats).toList = .ok expr.tokens := by
  rw [text, String.toList_ofList]
  refine lex_chars (isLexical_tokens hdecimal) ?_
  rw [tokens, List.isChain_map]
  exact expr.slotsApart.chain

/-- An expression within the limits is what the parser reads from its canonical text. -/
theorem parseFilterExpr_text {expr : FilterExpr} (hlimits : expr.withinLimits)
    (hdecimal : ∀ value, expr.HasNumber value → reader.formats.IsDecimal value) :
    parseFilterExpr reader (expr.text reader.formats) = .ok expr :=
  parseFilterExpr_eq_ok.2
    ⟨expr.tokens, FilterExpr.lex_text hdecimal, expr.spelledBy_tokens, hlimits⟩

theorem Parser.length_parseExpr {levels : Nat} {parser parser' : Parser} {expr : FilterExpr}
    (h : parseExpr reader levels parser = .ok (expr, parser')) :
    parser'.tokens.length ≤ parser.tokens.length :=
  (parseExpr_eq_ok.1 h).2.2.length_le

theorem Parser.length_parseValue {parser parser' : Parser} {value : FilterValue}
    (h : parser.parseValue reader = .ok (value, parser')) :
    parser'.tokens.length ≤ parser.tokens.length := by
  rw [(parseValue_eq_ok.1 h).length]
  exact Nat.le_succ _

/-- The bounds on the turns of the loops bound nothing: a loop that may take more turns than there
are characters or tokens reads the same. -/
structure LoopsEnd (reader : FilterReader) : Prop where
  lex : ∀ chars turns, chars.length ≤ turns → lexTurns reader turns chars = lex reader chars
  exprs : ∀ levels parser turns, parser.tokens.length < turns →
    Parser.elements (Parser.parseExpr reader levels) turns parser =
      Parser.elements (Parser.parseExpr reader levels) (parser.tokens.length + 1) parser
  values : ∀ parser turns, parser.tokens.length < turns →
    Parser.elements (Parser.parseValue reader) turns parser =
      Parser.elements (Parser.parseValue reader) (parser.tokens.length + 1) parser

theorem loopsEnd (reader : FilterReader) : LoopsEnd reader where
  lex _ _ h := lexTurns_of_le h
  exprs _ _ _ h := Parser.elements_turns reader.formats
    (fun _ _ _ => Parser.length_parseExpr) h (Nat.lt_succ_self _)
  values _ _ h := Parser.elements_turns reader.formats
    (fun _ _ _ => Parser.length_parseValue) h (Nat.lt_succ_self _)

/-- The parser of filters accepts its grammar: it reads the canonical text of an expression back, a
text that it accepts is one whose tokens spell a single expression, and its loops end. -/
theorem parseFilterExpr_grammar (reader : FilterReader) :
    (∀ expr : FilterExpr, expr.withinLimits →
      (∀ value, expr.HasNumber value → reader.formats.IsDecimal value) →
        parseFilterExpr reader (expr.text reader.formats) = .ok expr) ∧
    (∀ input expr, parseFilterExpr reader input = .ok expr → expr.withinLimits ∧
      ∃ tokens, lex reader input.toList = .ok tokens ∧ expr.spelledBy reader.formats tokens ∧
        ∀ expr' : FilterExpr, expr'.withinLimits → expr'.spelledBy reader.formats tokens →
          expr' = expr) ∧
    LoopsEnd reader := by
  refine ⟨fun expr hlimits hdecimal => parseFilterExpr_text hlimits hdecimal, ?_, loopsEnd reader⟩
  intro input expr h
  obtain ⟨tokens, hlex, hspelled, hlimits⟩ := parseFilterExpr_eq_ok.1 h
  exact ⟨hlimits, tokens, hlex, hspelled, fun expr' hlimits' hspelled' =>
    FilterExpr.spelledBy_unique hspelled' hlimits' hspelled hlimits⟩

/-- The parser reads back a comparison of a count of tokens. -/
theorem parseFilterExpr_grammar_tokens :
    parseFilterExpr wholeReader
      (FilterExpr.text wholeReader.formats (.compare .gt .promptTokens (.number 5))) =
        .ok (.compare .gt .promptTokens (.number 5)) := by
  apply (parseFilterExpr_grammar wholeReader).1
  · exact ⟨by decide, by decide⟩
  · intro value hvalue
    have heq : value = 5 := by
      simpa [FilterExpr.HasNumber, FilterExpr.slots, FilterExpr.arguments, callSlots] using hvalue
    subst heq
    have htext : wholeReader.formats.showF64 5 = Int.repr 5 := by decide +kernel
    have hread : wholeReader.formats.readF64 (wholeReader.formats.showF64 5) = some 5 := by
      rw [htext]
      show (Int.repr 5).toInt?.map (fun value : Int => (value : ℚ)) = some 5
      rw [Int.toInt?_repr]
      simp
    exact ⟨'5', [], by decide +kernel, .inr rfl, nofun, hread⟩

/-- The tokens of a place up to the aliases of the fields, the case of the operators, and texts that
are read from numbers. -/
def Slot.readsExactly (formats : FilterFormats) : Slot → Token → Prop
  | .call f, token => ∃ name, token = .ident name ∧ toAsciiLowercase name = f.name
  | .field f, token => ∃ name, token = .ident name ∧ parseField name = .ok f
  | .value v, token => token = (Slot.value v).token
  | .text t, token => token = .string t ∨ ∃ value, token = .number value ∧ formats.showF64 value = t
  | .path t, token => token = .string t ∨ ∃ value, token = .number value ∧ formats.showF64 value = t
  | .mark m, token => token = m

/-- `search(true)` searches for a text, which is read from a boolean. -/
theorem accepted_not_spelledExactly :
    ¬ ∀ input expr, parseFilterExpr wholeReader input = .ok expr →
      ∃ (expr' : FilterExpr) (tokens : List Token), lex wholeReader input.toList = .ok tokens ∧
        List.Forall₂ (Slot.readsExactly wholeReader.formats) expr'.slots tokens := by
  intro hall
  have hlexed : lex wholeReader "search(true)".toList =
      .ok [.ident "search", .lParen, .ident "true", .rParen] :=
    eq_ok_of_toOption (by decide +kernel)
  have haccepted : parseFilterExpr wholeReader "search(true)" = .ok (.search none "true") :=
    parseFilterExpr_eq_ok.2 ⟨_, hlexed, .cons ⟨_, rfl, rfl⟩ (.cons rfl (.cons rfl (.cons rfl .nil))),
      by decide, by decide⟩
  obtain ⟨expr, tokens, hlex, hspelled⟩ := hall _ _ haccepted
  cases hlexed.symm.trans hlex
  obtain ⟨⟨name, heq, hname⟩, hspelled⟩ := List.forall₂_cons.1 hspelled
  cases heq
  have hfunction : expr.function = .search := by
    have hread := expr.function.filterFunction_name
    rw [← hname] at hread
    exact (Except.ok.inj hread).symm
  obtain ⟨-, hspelled⟩ := List.forall₂_cons.1 hspelled
  cases expr with
  | search field query =>
    cases field with
    | none =>
      obtain ⟨htext, -⟩ := List.forall₂_cons.1 hspelled
      rcases htext with htext | ⟨value, htext, -⟩
      · cases htext
      · cases htext
    | some field => cases hspelled.length_eq
  | _ => cases hfunction

end KevinDb
