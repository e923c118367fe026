import KevinDb.Server.StructuredFilter

namespace KevinDb
set_option autoImplicit true

/-- How a literal is used: as a value, as a text, or as a path with no field before it. -/
inductive LiteralRole where
  | value
  | text
  | path
deriving DecidableEq

structure LiteralUse where
  role : LiteralRole
  literal : Json

def Json.filterValue : Json → Option FilterValue
  | .string value => some (.string value)
  | .number value => some (.number value.value)
  | .bool value => some (.bool value)
  | _ => none

/-- The place of the grammar that a literal takes. -/
def LiteralRole.slot (formats : FilterFormats) (value : FilterValue) : LiteralRole → Slot
  | .value => .value value
  | .text => .text (value.asString formats)
  | .path => .path (value.asString formats)

/-- The names of optional fields are known. -/
def KnownField : Option String → Option FilterField → Prop
  | none, none => True
  | some name, some field => parseField name = .ok field
  | _, _ => False

mutual

/-- A structured filter says the same as an expression, with these literals: the names of its fields
are known, and it has no filter texts in it. -/
inductive StructuredMeans (formats : FilterFormats) : Json → FilterExpr → List LiteralUse → Prop
  | and (hshape : structuredShape value = .ok (.logical .and children))
      (hchildren : StructuredAllMean formats children exprs uses) :
      StructuredMeans formats value (.and exprs) uses
  | or (hshape : structuredShape value = .ok (.logical .or children))
      (hchildren : StructuredAllMean formats children exprs uses) :
      StructuredMeans formats value (.or exprs) uses
  | search (hshape : structuredShape value = .ok (.search name query))
      (hname : KnownField name field) (hquery : query.filterValue = some text) :
      StructuredMeans formats value (.search field (text.asString formats)) [⟨.text, query⟩]
  | jsonKey (hshape : structuredShape value = .ok (.jsonKey name path))
      (hname : KnownField name field) (hpath : path.filterValue = some text) :
      StructuredMeans formats value (.jsonKey field (text.asString formats)) [⟨.text, path⟩]
  | jsonKeySearch (hshape : structuredShape value = .ok (.jsonKeySearch name path query))
      (hname : KnownField name field) (hpath : path.filterValue = some pathText)
      (hquery : query.filterValue = some text) :
      StructuredMeans formats value
        (.jsonKeySearch field (pathText.asString formats) (text.asString formats))
        [⟨if field.isNone then .path else .text, path⟩, ⟨.text, query⟩]
  | isIn (hshape : structuredShape value = .ok (.isIn name literals))
      (hname : parseField name = .ok field)
      (hvalues : literals.mapM Json.filterValue = some values) :
      StructuredMeans formats value (.isIn field values) (literals.map (LiteralUse.mk .value))
  | compare (hshape : structuredShape value = .ok (.call (.compare op) name literal))
      (hname : parseField name = .ok field) (hvalue : literal.filterValue = some compared) :
      StructuredMeans formats value (.compare op field compared) [⟨.value, literal⟩]
  | has (hshape : structuredShape value = .ok (.call .has name literal))
      (hname : parseField name = .ok field) (hvalue : literal.filterValue = some compared) :
      StructuredMeans formats value (.has field compared) [⟨.value, literal⟩]
  | contains (hshape : structuredShape value = .ok (.call (.contains negated) name literal))
      (hname : parseField name = .ok field) (hvalue : literal.filterValue = some compared) :
      StructuredMeans formats value (.contains field compared negated) [⟨.value, literal⟩]

inductive StructuredAllMean (formats : FilterFormats) :
    List Json → List FilterExpr → List LiteralUse → Prop
  | nil : StructuredAllMean formats [] [] []
  | cons (hchild : StructuredMeans formats child expr uses)
      (hchildren : StructuredAllMean formats children exprs rest) :
      StructuredAllMean formats (child :: children) (expr :: exprs) (uses ++ rest)

end

/-- The text of a literal is read as the literal: no control character in a string, no number with
an exponent or without a double, and no boolean that could be the name of a field. -/
def LiteralUse.Kept (encoder : JsonEncoder) (formats : FilterFormats) (literal : LiteralUse) :
    Prop :=
  match literal.literal with
  | .string text => ∀ ch ∈ text.toList, ' ' ≤ ch
  | .number number => (∀ ch ∈ encoder.number number, isNumberChar ch) ∧
      ∃ read, formats.readF64 (String.ofList (encoder.number number)) = some read ∧
        if literal.role = .value then read = number.value
        else trimFloat formats read = trimFloat formats number.value
  | .bool _ => literal.role ≠ .path
  | _ => False

/-- The texts that take a place of the grammar: the name of a function or of a field, punctuation,
and what the encoder makes of a literal. -/
inductive PrintedAs (encoder : JsonEncoder) (formats : FilterFormats) :
    Slot → List Char → Option LiteralUse → Prop
  | call (function : FilterFunction) :
      PrintedAs encoder formats (.call function) function.name.toList none
  | mark (mark : Token) (hmark : mark.isMark) :
      PrintedAs encoder formats (.mark mark) (mark.chars formats) none
  | field (hname : parseField name = .ok field) :
      PrintedAs encoder formats (.field field) name.toList none
  | literal (role : LiteralRole) (hvalue : literal.filterValue = some value)
      (hchars : structuredFilterLiteral encoder literal = .ok chars) :
      PrintedAs encoder formats (role.slot formats value) chars (some ⟨role, literal⟩)

/-- A text made of such texts, one after the other. -/
inductive Spells (encoder : JsonEncoder) (formats : FilterFormats) :
    List Slot → List Char → List LiteralUse → Prop
  | nil : Spells encoder formats [] [] []
  | cons (hprinted : PrintedAs encoder formats slot chars literal)
      (hrest : Spells encoder formats slots chars' uses) :
      Spells encoder formats (slot :: slots) (chars ++ chars') (literal.toList ++ uses)

variable {encoder : JsonEncoder} {formats : FilterFormats} {reader : FilterReader}
  {slots slots' : List Slot} {chars chars' rest : List Char} {uses uses' : List LiteralUse}

theorem Spells.append (h : Spells encoder formats slots chars uses)
    (h' : Spells encoder formats slots' chars' uses') :
    Spells encoder formats (slots ++ slots') (chars ++ chars') (uses ++ uses') := by
  induction h with
  | nil => exact h'
  | cons hprinted _ ih =>
    rw [List.cons_append, List.append_assoc, List.append_assoc]
    exact .cons hprinted ih

theorem Spells.of_printed {slot : Slot} {literal : Option LiteralUse}
    (h : PrintedAs encoder formats slot chars literal) :
    Spells encoder formats [slot] chars literal.toList := by
  have hcons := Spells.cons h .nil
  rwa [List.append_nil, List.append_nil] at hcons

theorem Spells.mark_append (mark : Token) (hmark : mark.isMark)
    (h : Spells encoder formats slots chars uses) :
    Spells encoder formats (.mark mark :: slots) (mark.chars formats ++ chars) uses :=
  .cons (.mark mark hmark) h

theorem Spells.append_mark (h : Spells encoder formats slots chars uses) (mark : Token)
    (hmark : mark.isMark) :
    Spells encoder formats (slots ++ [.mark mark]) (chars ++ mark.chars formats) uses := by
  have happend := h.append (Spells.of_printed (.mark mark hmark))
  rwa [Option.toList_none, List.append_nil] at happend

theorem LiteralRole.slot_isMark (role : LiteralRole) (value : FilterValue) :
    (role.slot formats value).token.isMark = false := by
  cases role with
  | value => cases value <;> rfl
  | text => rfl
  | path => rfl

/-- A token of punctuation takes only the place that asks for it. -/
theorem PrintedAs.eq_mark {slot : Slot} {literal : Option LiteralUse}
    (h : PrintedAs encoder formats slot chars literal) (hmark : slot.token.isMark) :
    ∃ mark : Token, mark.isMark ∧ chars = mark.chars formats := by
  cases h with
  | call function => cases hmark
  | mark mark hmark => exact ⟨mark, hmark, rfl⟩
  | field hname => cases hmark
  | literal role hvalue hchars =>
    rw [role.slot_isMark] at hmark
    cases hmark

/-- Neither a word nor a number goes on into a text that starts with punctuation. -/
theorem Spells.head (h : Spells encoder formats slots chars uses)
    (hmark : ∀ slot, slots.head? = some slot → slot.token.isMark) :
    ∀ c, chars.head? = some c → isIdentChar c = false ∧ isNumberChar c = false := by
  cases h with
  | nil => exact nofun
  | cons hprinted hrest =>
    intro c hc
    obtain ⟨mark, hismark, rfl⟩ := hprinted.eq_mark (hmark _ rfl)
    obtain ⟨first, rest, hchars, hfirst⟩ := @head?_chars_of_isMark formats _ hismark
    rw [hchars] at hc
    cases hc
    exact hfirst

/-- The names of fields are words. -/
theorem isWord_of_parseField {name : String} {field : FilterField}
    (h : parseField name = .ok field) : isWord name.toList := by
  unfold parseField at h
  split at h
  all_goals first
    | rfl
    | cases h

/-- The texts of names and of punctuation are read as their tokens. -/
theorem PrintedAs.lex_name {slot : Slot}
    (h : PrintedAs encoder reader.formats slot chars none)
    (hrest : slot.token.isMark ∨
      ∀ c, rest.head? = some c → isIdentChar c = false ∧ isNumberChar c = false) :
    ∃ token, slot.reads reader.formats token ∧
      lex reader (chars ++ rest) = (lex reader rest).map (token :: ·) := by
  cases h with
  | call function =>
    refine ⟨.ident function.name, (Slot.call function).reads_token, ?_⟩
    exact lex_chars_append function.isLexical_name (hrest.imp_left fun h => by cases h)
  | mark mark hmark =>
    refine ⟨mark, rfl, lex_chars_append ?_ (.inl hmark)⟩
    cases mark with
    | ident | number => cases hmark
    | _ => trivial
  | field hname =>
    rename_i name field
    refine ⟨.ident name, ⟨name, rfl, hname⟩, ?_⟩
    have hword : (Token.ident name).IsLexical reader.formats := isWord_of_parseField hname
    exact lex_chars_append hword (hrest.imp_left fun h => by cases h)

/-- What a string reads as: its characters, but for control characters, of which the escape loses
the backslash. -/
theorem readString_encoded (hencoder : encoder.Conforms) (text : List Char) :
    ∃ decoded : List Char, (∀ value rest, readString '"' value
        (text.flatMap encoder.escape ++ '"' :: rest) = .ok (String.ofList (value ++ decoded), rest)) ∧
      (∀ ch ∈ decoded, ' ' ≤ ch) ∧ ((∀ ch ∈ text, ' ' ≤ ch) → decoded = text) := by
  induction text with
  | nil => exact ⟨[], fun value rest => by
      rw [List.flatMap_nil, List.nil_append, List.append_nil, readString_quote], nofun, fun _ => rfl⟩
  | cons ch text ih =>
    obtain ⟨decoded, hread, hplain, hsame⟩ := ih
    obtain ⟨front, hfront, hfrontPlain, hfrontSame⟩ : ∃ front : List Char,
        (∀ value rest, readString '"' value (encoder.escape ch ++ rest) =
          readString '"' (value ++ front) rest) ∧
        (∀ c ∈ front, ' ' ≤ c) ∧ (' ' ≤ ch → front = [ch]) := by
      by_cases hcontrol : ch < ' '
      · obtain ⟨kind, digits, hescape, hkind, hdigits⟩ := hencoder.control ch hcontrol
        have hskip : ∀ (digits : List Char), (∀ d ∈ digits, ' ' ≤ d ∧ d ≠ '"' ∧ d ≠ '\\') →
            ∀ value rest, readString '"' value (digits ++ rest) =
              readString '"' (value ++ digits) rest := by
          intro digits hdigits
          induction digits with
          | nil => exact fun value rest => by rw [List.nil_append, List.append_nil]
          | cons digit digits ih =>
            obtain ⟨⟨-, hquote, hbackslash⟩, hdigits⟩ := List.forall_mem_cons.1 hdigits
            intro value rest
            rw [List.cons_append, readString_cons value hquote hbackslash, ih hdigits,
              List.append_assoc, List.singleton_append]
        refine ⟨kind :: digits, fun value rest => ?_,
          List.forall_mem_cons.2 ⟨hkind, fun d hd => (hdigits d hd).1⟩,
          fun h => absurd hcontrol (not_lt.2 h)⟩
        rw [hescape, List.cons_append, List.cons_append, readString_escape value (by decide),
          hskip digits hdigits, List.append_assoc, List.singleton_append]
      · have hle := not_lt.1 hcontrol
        refine ⟨[ch], fun value rest => ?_, List.forall_mem_singleton.2 hle, fun _ => rfl⟩
        by_cases hquoted : ch = '"' ∨ ch = '\\'
        · rw [hencoder.quoted ch hquoted, List.cons_append, List.singleton_append,
            readString_escape value (by decide)]
        · obtain ⟨hquote, hbackslash⟩ := not_or.1 hquoted
          rw [hencoder.plain ch hquoted hle, List.singleton_append,
            readString_cons value hquote hbackslash]
    refine ⟨front ++ decoded, fun value rest => ?_, ?_, fun h => ?_⟩
    · rw [List.flatMap_cons, List.append_assoc, hfront, hread, List.append_assoc]
    · exact List.forall_mem_append.2 ⟨hfrontPlain, hplain⟩
    · obtain ⟨hch, htext⟩ := List.forall_mem_cons.1 h
      rw [hfrontSame hch, hsame htext, List.singleton_append]

/-- A text splits where the characters to keep end, whatever follows it. -/
theorem exists_span (keep : Char → Bool) (word : List Char)
    (hrest : ∀ c, rest.head? = some c → keep c = false) :
    ∃ kept left, word = kept ++ left ∧ (∀ c ∈ kept, keep c) ∧
      ∀ c, (left ++ rest).head? = some c → keep c = false := by
  refine ⟨word.takeWhile keep, word.dropWhile keep, (List.takeWhile_append_dropWhile).symm,
    fun c hc => List.mem_takeWhile_imp hc, fun c hc => ?_⟩
  cases hleft : word.dropWhile keep with
  | nil =>
    rw [hleft] at hc
    exact hrest c hc
  | cons first left =>
    have hfirst := List.head?_dropWhile_not keep word
    rw [hleft] at hc hfirst
    cases hc
    simpa using hfirst

/-- A text that starts like a number gives the number before the other characters. -/
theorem lex_number_eq_ok {ch : Char} {digits : List Char} {tokens : List Token}
    (hfirst : ch = '-' ∨ ch.isDigit) (hrest : ∀ c, rest.head? = some c → isNumberChar c = false)
    (h : lex reader (ch :: (digits ++ rest)) = .ok tokens) :
    ∃ kept left value tokens', digits = kept ++ left ∧ (∀ c ∈ kept, isNumberChar c) ∧
      reader.formats.readF64 (String.ofList (ch :: kept)) = some value ∧
      lex reader (left ++ rest) = .ok tokens' ∧ tokens = .number value :: tokens' := by
  obtain ⟨kept, left, rfl, hkept, hleft⟩ := exists_span isNumberChar digits hrest
  obtain ⟨token, rest', tokens', hread, hlex, rfl⟩ := lex_cons_eq_ok.1 h
  rw [lexToken_number hfirst] at hread
  obtain ⟨⟨number, left'⟩, hnumber, hread⟩ := bind_eq_ok hread
  obtain ⟨value, hvalue, rfl, rfl⟩ := readNumber_eq_ok.1 hnumber
  cases hread
  have hspan : (ch :: (kept ++ left ++ rest)).span isNumberChar = (ch :: kept, left ++ rest) := by
    rw [List.append_assoc, ← List.cons_append]
    exact span_word (List.forall_mem_cons.2 ⟨isNumberChar_of_start hfirst, hkept⟩) hleft
  rw [hspan] at hvalue hlex
  exact ⟨kept, left, value, tokens', rfl, hkept, hvalue, hlex, rfl⟩

/-- The characters of a number of JSON give tokens of their own. -/
theorem lex_json_chars {digits : List Char} {tokens : List Token}
    (hdigits : ∀ c ∈ digits, isJsonNumberChar c)
    (hrest : ∀ c, rest.head? = some c → isIdentChar c = false ∧ isNumberChar c = false)
    (h : lex reader (digits ++ rest) = .ok tokens) :
    ∃ part tokens', tokens = part ++ tokens' ∧ lex reader rest = .ok tokens' ∧
      (digits ≠ [] → part ≠ []) := by
  induction hlength : digits.length using Nat.strong_induction_on generalizing digits tokens with
  | _ n ih =>
    have hident : ∀ c, rest.head? = some c → isIdentChar c = false := fun c hc => (hrest c hc).1
    have hnumber : ∀ c, rest.head? = some c → isNumberChar c = false := fun c hc => (hrest c hc).2
    cases digits with
    | nil => exact ⟨[], tokens, rfl, h, fun hne => absurd rfl hne⟩
    | cons ch digits =>
      obtain ⟨hch, hdigits⟩ := List.forall_mem_cons.1 hdigits
      rw [List.length_cons] at hlength
      rw [List.cons_append] at h
      have hnext : ∀ kept left : List Char, ∀ tokens', digits = kept ++ left →
          lex reader (left ++ rest) = .ok tokens' → ∀ token, tokens = token :: tokens' →
          ∃ part tokens', tokens = part ++ tokens' ∧ lex reader rest = .ok tokens' ∧
            (ch :: digits ≠ [] → part ≠ []) := by
        rintro kept left tokens' rfl hlex token rfl
        rw [List.length_append] at hlength
        obtain ⟨part, tokens'', rfl, hlex', -⟩ := ih left.length (by omega)
          (fun c hc => hdigits c (List.mem_append_right _ hc)) hlex rfl
        exact ⟨token :: part, tokens'', rfl, hlex', fun _ => nofun⟩
      have hcases : (ch = '-' ∨ ch.isDigit) ∨ isIdentStart ch ∨ ch = '+' ∨ ch = '.' := by
        rw [isJsonNumberChar, Bool.or_eq_true, decide_eq_true_eq] at hch
        simp only [List.mem_cons, List.not_mem_nil, or_false] at hch
        rcases hch with hdigit | rfl | rfl | rfl | rfl | rfl
        · exact .inl (.inr hdigit)
        · exact .inl (.inl rfl)
        · exact .inr (.inr (.inl rfl))
        · exact .inr (.inr (.inr rfl))
        · exact .inr (.inl rfl)
        · exact .inr (.inl rfl)
      rcases hcases with hfirst | hfirst | rfl | rfl
      · obtain ⟨kept, left, value, tokens', hsplit, -, -, hlex, htokens⟩ :=
          lex_number_eq_ok hfirst hnumber h
        exact hnext kept left tokens' hsplit hlex _ htokens
      · obtain ⟨kept, left, hsplit, hkept, hleft⟩ := exists_span isIdentChar digits hident
        rw [hsplit, List.append_assoc, ← List.cons_append, lex_ident hfirst hkept hleft] at h
        obtain ⟨tokens', hlex, htokens⟩ := map_eq_ok h
        exact hnext kept left tokens' hsplit hlex _ htokens.symm
      · obtain ⟨token, rest', tokens', hread, -⟩ := lex_cons_eq_ok.1 h
        cases hread
      · obtain ⟨token, rest', tokens', hread, -⟩ := lex_cons_eq_ok.1 h
        cases hread

/-- What a string of JSON reads as. -/
theorem lex_encoded_string (hencoder : encoder.Conforms) (text : String) :
    ∃ decoded : String, (∀ rest, lex reader ('"' :: (text.toList.flatMap encoder.escape ++ '"' ::
        rest)) = (lex reader rest).map (.string decoded :: ·)) ∧
      (decoded = text ↔ ∀ ch ∈ text.toList, ' ' ≤ ch) := by
  obtain ⟨decoded, hread, hplain, hsame⟩ := readString_encoded hencoder text.toList
  refine ⟨String.ofList decoded, fun rest => lex_token ?_, ?_, fun h => ?_⟩
  · have hstring := hread [] rest
    rw [List.nil_append] at hstring
    change (readString '"' [] (text.toList.flatMap encoder.escape ++ '"' :: rest)).bind _ = _
    rw [hstring]
    rfl
  · rintro rfl
    rwa [String.toList_ofList]
  · rw [hsame h, String.ofList_toList]

theorem LiteralRole.reads_string {role : LiteralRole} {text decoded : String} :
    (role.slot formats (.string text)).reads formats (.string decoded) ↔ decoded = text := by
  cases role with
  | value => simp [LiteralRole.slot, Slot.reads, Token.value?]
  | text => simp [LiteralRole.slot, Slot.reads, Token.text?, Token.value?, FilterValue.asString]
  | path =>
    simp [LiteralRole.slot, Slot.reads, Token.text?, Token.value?, FilterValue.asString,
      Token.isIdent]

theorem LiteralRole.reads_number {role : LiteralRole} {number read : ℚ} :
    (role.slot formats (.number number)).reads formats (.number read) ↔
      if role = .value then read = number
      else trimFloat formats read = trimFloat formats number := by
  cases role with
  | value => simp [LiteralRole.slot, Slot.reads, Token.value?]
  | text => simp [LiteralRole.slot, Slot.reads, Token.text?, Token.value?, FilterValue.asString]
  | path =>
    simp [LiteralRole.slot, Slot.reads, Token.text?, Token.value?, FilterValue.asString,
      Token.isIdent]

theorem LiteralRole.reads_bool {role : LiteralRole} {flag : Bool} :
    (role.slot formats (.bool flag)).reads formats (.ident (if flag then "true" else "false")) ↔
      role ≠ .path := by
  cases role with
  | value => cases flag <;> exact iff_of_true rfl nofun
  | text => cases flag <;> exact iff_of_true rfl nofun
  | path => exact iff_of_false (fun h => by cases h.1) fun h => h rfl

/-- The text of a literal that is kept is read as one token that takes its place. -/
theorem lex_literal_of_kept (hencoder : encoder.Conforms) {role : LiteralRole} {literal : Json}
    {value : FilterValue} (hvalue : literal.filterValue = some value)
    (hchars : structuredFilterLiteral encoder literal = .ok chars)
    (hrest : ∀ c, rest.head? = some c → isIdentChar c = false ∧ isNumberChar c = false)
    (hkept : LiteralUse.Kept encoder reader.formats ⟨role, literal⟩) :
    ∃ token, (role.slot reader.formats value).reads reader.formats token ∧
      lex reader (chars ++ rest) = (lex reader rest).map (token :: ·) := by
  cases literal with
  | string text =>
    cases hvalue
    cases hchars
    obtain ⟨decoded, hlex, hsame⟩ := @lex_encoded_string encoder reader hencoder text
    refine ⟨.string decoded, LiteralRole.reads_string.2 (hsame.2 hkept), ?_⟩
    rw [List.cons_append, List.append_assoc, List.singleton_append, hlex]
  | number number =>
    cases hvalue
    cases hchars
    obtain ⟨hall, read, hread, hsame⟩ := hkept
    obtain ⟨first, digits, htext, hfirst, -⟩ := hencoder.number number
    rw [htext] at hall hread ⊢
    exact ⟨.number read, LiteralRole.reads_number.2 hsame, lex_number_chars hfirst
      (List.forall_mem_cons.1 hall).2 hread fun c hc => (hrest c hc).2⟩
  | bool flag =>
    cases hvalue
    cases hchars
    refine ⟨.ident (if flag then "true" else "false"), LiteralRole.reads_bool.2 hkept, ?_⟩
    have hword : (Token.ident (if flag then "true" else "false")).IsLexical reader.formats := by
      cases flag <;> rfl
    exact lex_chars_append hword (.inr hrest)
  | _ => cases hvalue

/-- The text of a literal gives a token, and if it gives one that takes its place, it is kept. -/
theorem kept_of_lex_literal (hencoder : encoder.Conforms) {role : LiteralRole} {literal : Json}
    {value : FilterValue} {tokens : List Token} (hvalue : literal.filterValue = some value)
    (hchars : structuredFilterLiteral encoder literal = .ok chars)
    (hrest : ∀ c, rest.head? = some c → isIdentChar c = false ∧ isNumberChar c = false)
    (h : lex reader (chars ++ rest) = .ok tokens) :
    ∃ part tokens', tokens = part ++ tokens' ∧ lex reader rest = .ok tokens' ∧ part ≠ [] ∧
      ∀ token, part = [token] → (role.slot reader.formats value).reads reader.formats token →
        LiteralUse.Kept encoder reader.formats ⟨role, literal⟩ := by
  cases literal with
  | string text =>
    cases hvalue
    cases hchars
    obtain ⟨decoded, hlex, hsame⟩ := @lex_encoded_string encoder reader hencoder text
    rw [List.cons_append, List.append_assoc, List.singleton_append, hlex] at h
    obtain ⟨tokens', hrest', rfl⟩ := map_eq_ok h
    refine ⟨[.string decoded], tokens', rfl, hrest', List.cons_ne_nil _ _, fun token htoken hreads => ?_⟩
    cases htoken
    exact hsame.1 (LiteralRole.reads_string.1 hreads)
  | number number =>
    cases hvalue
    cases hchars
    obtain ⟨first, digits, htext, hfirst, hdigits⟩ := hencoder.number number
    rw [htext, List.cons_append] at h
    obtain ⟨kept, left, read, tokens', hsplit, hkept, hread, hlex, rfl⟩ :=
      lex_number_eq_ok hfirst (fun c hc => (hrest c hc).2) h
    have hleft : ∀ c ∈ left, isJsonNumberChar c := fun c hc =>
      hdigits c (hsplit ▸ List.mem_append_right _ hc)
    obtain ⟨part, tokens'', rfl, hlex', hne⟩ := lex_json_chars hleft hrest hlex
    refine ⟨.number read :: part, tokens'', rfl, hlex', List.cons_ne_nil _ _, fun token htoken hreads => ?_⟩
    obtain ⟨rfl, rfl⟩ := List.cons.inj htoken
    have hnil : left = [] := by
      by_contra hleft
      exact hne hleft rfl
    rw [hnil, List.append_nil] at hsplit
    subst hsplit
    refine ⟨?_, read, ?_, LiteralRole.reads_number.1 hreads⟩
    · rw [htext]
      exact List.forall_mem_cons.2 ⟨isNumberChar_of_start hfirst, hkept⟩
    · rw [htext, hread]
  | bool flag =>
    cases hvalue
    cases hchars
    have hword : (Token.ident (if flag then "true" else "false")).IsLexical reader.formats := by
      cases flag <;> rfl
    have hlex := lex_chars_append hword (.inr hrest)
    rw [Token.chars] at hlex
    rw [hlex] at h
    obtain ⟨tokens', hrest', rfl⟩ := map_eq_ok h
    refine ⟨[_], tokens', rfl, hrest', List.cons_ne_nil _ _, fun token htoken hreads => ?_⟩
    cases htoken
    exact LiteralRole.reads_bool.1 hreads
  | _ => cases hvalue

/-- A place that is no punctuation ends before punctuation, or at the end. -/
theorem Spells.ends {slot : Slot}
    (hapart : (slot :: slots).IsChain fun slot next => slot.token.isMark ∨ next.token.isMark)
    (h : Spells encoder formats slots chars uses) :
    slot.token.isMark ∨
      ∀ c, chars.head? = some c → isIdentChar c = false ∧ isNumberChar c = false := by
  cases slots with
  | nil =>
    cases h
    exact .inr nofun
  | cons next slots =>
    exact (List.isChain_cons_cons.1 hapart).1.imp_right fun hnext =>
      h.head fun slot hslot => Option.some.inj hslot ▸ hnext

/-- A text whose literals are kept is read as the tokens that take its places. -/
theorem Spells.lex_of_kept (hencoder : encoder.Conforms)
    (h : Spells encoder reader.formats slots chars uses)
    (hapart : slots.IsChain fun slot next => slot.token.isMark ∨ next.token.isMark)
    (hkept : ∀ literal ∈ uses, literal.Kept encoder reader.formats) :
    ∃ tokens, lex reader chars = .ok tokens ∧
      List.Forall₂ (Slot.reads reader.formats) slots tokens := by
  induction h with
  | nil => exact ⟨[], rfl, .nil⟩
  | @cons slot chars literal slots chars' uses hprinted hrest ih =>
    obtain ⟨hkept, hkeptRest⟩ := List.forall_mem_append.1 hkept
    obtain ⟨tokens, hlex, hreads⟩ := ih hapart.tail hkeptRest
    have hends := hrest.ends hapart
    obtain ⟨token, htoken, hfirst⟩ : ∃ token, slot.reads reader.formats token ∧
        lex reader (chars ++ chars') = (lex reader chars').map (token :: ·) := by
      cases literal with
      | none => exact hprinted.lex_name hends
      | some literal =>
        cases hprinted with
        | literal role hvalue hchars =>
          rw [role.slot_isMark] at hends
          exact lex_literal_of_kept hencoder hvalue hchars (hends.resolve_left Bool.false_ne_true)
            (hkept _ (List.mem_singleton_self _))
    exact ⟨token :: tokens, by rw [hfirst, hlex]; rfl, .cons htoken hreads⟩

/-- A text gives at least one token for each place, and if it gives just one that takes it, its
literals are kept. -/
theorem Spells.kept_of_lex (hencoder : encoder.Conforms)
    (h : Spells encoder reader.formats slots chars uses)
    (hapart : slots.IsChain fun slot next => slot.token.isMark ∨ next.token.isMark)
    {tokens : List Token} (hlex : lex reader chars = .ok tokens) :
    slots.length ≤ tokens.length ∧
      (List.Forall₂ (Slot.reads reader.formats) slots tokens →
        ∀ literal ∈ uses, literal.Kept encoder reader.formats) := by
  induction h generalizing tokens with
  | nil => exact ⟨Nat.zero_le _, fun _ => nofun⟩
  | @cons slot chars literal slots chars' uses hprinted hrest ih =>
    have hends := hrest.ends hapart
    obtain ⟨part, tokens', rfl, hlex', hne, hkept⟩ : ∃ part tokens', tokens = part ++ tokens' ∧
        lex reader chars' = .ok tokens' ∧ part ≠ [] ∧ ∀ token, part = [token] →
          slot.reads reader.formats token →
            ∀ use ∈ literal, LiteralUse.Kept encoder reader.formats use := by
      cases literal with
      | none =>
        obtain ⟨token, -, hfirst⟩ := hprinted.lex_name hends
        rw [hfirst] at hlex
        obtain ⟨tokens', hlex', rfl⟩ := map_eq_ok hlex
        exact ⟨[token], tokens', rfl, hlex', nofun, fun _ _ _ _ => nofun⟩
      | some literal =>
        cases hprinted with
        | literal role hvalue hchars =>
          rw [role.slot_isMark] at hends
          obtain ⟨part, tokens', htokens, hlex', hne, hkept⟩ := kept_of_lex_literal hencoder hvalue
            hchars (hends.resolve_left Bool.false_ne_true) hlex
          exact ⟨part, tokens', htokens, hlex', hne, fun token htoken hreads use huse =>
            Option.some.inj huse ▸ hkept token htoken hreads⟩
    obtain ⟨hlength, hkeptRest⟩ := ih hapart.tail hlex'
    have hpart : 0 < part.length := List.length_pos_of_ne_nil hne
    rw [List.length_cons, List.length_append]
    refine ⟨by omega, fun hreads => ?_⟩
    have hsame := hreads.length_eq
    rw [List.length_cons, List.length_append] at hsame
    obtain ⟨token, rfl⟩ := List.length_eq_one_iff.1 (show part.length = 1 by omega)
    obtain ⟨htoken, hreads⟩ := List.forall₂_cons.1 hreads
    refine List.forall_mem_append.2 ⟨fun use huse => ?_, hkeptRest hreads⟩
    exact hkept token rfl htoken use (Option.mem_toList.1 huse)

end KevinDb
