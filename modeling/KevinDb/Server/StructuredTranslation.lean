import KevinDb.Server.StructuredMeaning

namespace KevinDb
set_option autoImplicit true

/-- Texts that spell groups of places, one after the other. -/
inductive SpellsAll (encoder : JsonEncoder) (formats : FilterFormats) :
    List (List Slot) → List (List Char) → List LiteralUse → Prop
  | nil : SpellsAll encoder formats [] [] []
  | cons (h : Spells encoder formats slots chars uses)
      (hrest : SpellsAll encoder formats groups texts uses') :
      SpellsAll encoder formats (slots :: groups) (chars :: texts) (uses ++ uses')

variable {encoder : JsonEncoder} {formats : FilterFormats} {reader : FilterReader}
  {groups : List (List Slot)} {texts : List (List Char)} {chars : List Char}
  {uses : List LiteralUse} {literal : Json} {value : FilterValue} {role : LiteralRole}

theorem SpellsAll.commas (h : SpellsAll encoder formats groups texts uses) :
    Spells encoder formats (commaSlots groups) ([',', ' '].intercalate texts) uses := by
  induction h with
  | nil => exact .nil
  | cons hspells hrest ih =>
    cases hrest with
    | nil =>
      rw [List.intercalate_singleton, List.append_nil]
      exact hspells
    | cons hnext hrest =>
      rw [List.intercalate_cons_cons, List.append_assoc]
      exact hspells.append (ih.mark_append .comma rfl)

/-- A function with its arguments. -/
theorem SpellsAll.call (function : FilterFunction)
    (h : SpellsAll encoder formats groups texts uses) :
    Spells encoder formats (callSlots function (commaSlots groups)) (callText function texts)
      uses := by
  have harguments := (h.commas.append_mark .rParen rfl).mark_append .lParen rfl
  exact .cons (.call function) harguments

theorem SpellsAll.cons_field {name : String} {field : FilterField} (hname : parseField name = .ok field)
    (h : SpellsAll encoder formats groups texts uses) :
    SpellsAll encoder formats ([.field field] :: groups) (name.toList :: texts) uses :=
  .cons (.of_printed (.field hname)) h

theorem SpellsAll.cons_literal (role : LiteralRole) (hvalue : literal.filterValue = some value)
    (hchars : structuredFilterLiteral encoder literal = .ok chars)
    (h : SpellsAll encoder formats groups texts uses) :
    SpellsAll encoder formats ([role.slot formats value] :: groups) (chars :: texts)
      (⟨role, literal⟩ :: uses) :=
  .cons (.of_printed (.literal role hvalue hchars)) h

/-- The values of a list are spelled one after the other. -/
theorem SpellsAll.values {literals : List Json} {values : List FilterValue}
    (hvalues : literals.mapM Json.filterValue = some values)
    (htexts : literals.mapM (structuredFilterLiteral encoder) = .ok texts) :
    SpellsAll encoder formats (values.map fun value => [.value value]) texts
      (literals.map (LiteralUse.mk .value)) := by
  induction literals generalizing values texts with
  | nil =>
    cases hvalues
    cases htexts
    exact .nil
  | cons literal literals ih =>
    obtain ⟨chars, texts', hchars, htexts', rfl⟩ := mapM_cons_eq_ok.1 htexts
    rw [List.mapM_cons] at hvalues
    obtain ⟨value, hvalue, hvalues⟩ := Option.bind_eq_some_iff.1 hvalues
    obtain ⟨values, hvalues', heq⟩ := Option.bind_eq_some_iff.1 hvalues
    cases heq
    exact (ih hvalues' htexts').cons_literal .value hvalue hchars

/-- The text of a function of an optional field and of literals. -/
theorem SpellsAll.scoped {name : Option String}
    {field : Option FilterField} (hname : KnownField name field)
    (h : SpellsAll encoder formats groups texts uses) :
    SpellsAll encoder formats ((field.toList.map fun field => [.field field]) ++ groups)
      (name.toList.map String.toList ++ texts) uses := by
  cases name with
  | none =>
    cases field with
    | none => exact h
    | some field => exact hname.elim
  | some name =>
    cases field with
    | none => exact hname.elim
    | some field => exact h.cons_field hname

theorem scopedText_eq_ok {function : FilterFunction} {name : Option String} {literals : List Json}
    {text : List Char} (h : scopedText encoder function name literals = .ok text) :
    ∃ texts, literals.mapM (structuredFilterLiteral encoder) = .ok texts ∧
      text = callText function (name.toList.map String.toList ++ texts) := by
  obtain ⟨texts, htexts, heq⟩ := bind_eq_ok h
  cases heq
  exact ⟨texts, htexts, rfl⟩

/-- The text of a structured filter spells the places of an expression that says the same. -/
theorem StructuredMeans.spells {structured : Json} {expr : FilterExpr}
    (h : StructuredMeans formats structured expr uses) {text : List Char}
    (htext : structuredFilterToText encoder structured = .ok text) :
    Spells encoder formats expr.slots text uses := by
  have hempty : SpellsAll encoder formats [] [] [] := .nil
  have hlogical {value : Json} {children : List Json} {exprs : List FilterExpr}
      {uses : List LiteralUse} {text : List Char} (operator : FilterFunction)
      (hshape : structuredShape value = .ok (.logical operator children))
      (ih : ∀ texts, children.mapM (structuredFilterToText encoder) = .ok texts →
        SpellsAll encoder formats (FilterExpr.childSlots exprs) texts uses)
      (htext : structuredFilterToText encoder value = .ok text) :
      Spells encoder formats (callSlots operator (commaSlots (FilterExpr.childSlots exprs))) text
        uses := by
    rw [structuredFilterToText_logical hshape, compileStructuredLogical] at htext
    split at htext
    · cases htext
    · obtain ⟨texts, htexts, heq⟩ := bind_eq_ok htext
      cases heq
      rw [List.mapM_map] at htexts
      exact (ih texts htexts).call operator
  have hcall {value literal : Json} {name : String} {field : FilterField}
      {compared : FilterValue} {text : List Char} (function : FilterFunction)
      (hshape : structuredShape value = .ok (.call function name literal))
      (hname : parseField name = .ok field) (hvalue : literal.filterValue = some compared)
      (htext : structuredFilterToText encoder value = .ok text) :
      Spells encoder formats (callSlots function [.field field, .mark .comma, .value compared]) text
        [⟨.value, literal⟩] := by
    rw [structuredFilterToText_shape hshape nofun] at htext
    obtain ⟨chars, hchars, heq⟩ := bind_eq_ok htext
    cases heq
    exact ((hempty.cons_literal .value hvalue hchars).cons_field hname).call function
  induction h using StructuredMeans.rec
    (motive_2 := fun children exprs uses _ => ∀ texts,
      children.mapM (structuredFilterToText encoder) = .ok texts →
        SpellsAll encoder formats (FilterExpr.childSlots exprs) texts uses)
    generalizing text with
  | and hshape hchildren ih => exact hlogical .and hshape ih htext
  | or hshape hchildren ih => exact hlogical .or hshape ih htext
  | @search value name query field compared hshape hname hquery =>
    rw [structuredFilterToText_shape hshape nofun] at htext
    obtain ⟨texts, htexts, rfl⟩ := scopedText_eq_ok htext
    obtain ⟨chars, texts, hchars, hnil, rfl⟩ := mapM_cons_eq_ok.1 htexts
    cases hnil
    have hspells := ((hempty.cons_literal .text hquery hchars).scoped hname).call .search
    cases field with
    | none => exact hspells
    | some field => exact hspells
  | @jsonKey value name path field compared hshape hname hpath =>
    rw [structuredFilterToText_shape hshape nofun] at htext
    obtain ⟨texts, htexts, rfl⟩ := scopedText_eq_ok htext
    obtain ⟨chars, texts, hchars, hnil, rfl⟩ := mapM_cons_eq_ok.1 htexts
    cases hnil
    have hspells := ((hempty.cons_literal .text hpath hchars).scoped hname).call .jsonKey
    cases field with
    | none => exact hspells
    | some field => exact hspells
  | @jsonKeySearch value name path query field pathText compared hshape hname hpath hquery =>
    rw [structuredFilterToText_shape hshape nofun] at htext
    obtain ⟨texts, htexts, rfl⟩ := scopedText_eq_ok htext
    obtain ⟨chars, texts, hchars, hrest, rfl⟩ := mapM_cons_eq_ok.1 htexts
    obtain ⟨chars', texts, hchars', hnil, rfl⟩ := mapM_cons_eq_ok.1 hrest
    cases hnil
    have hliterals := (hempty.cons_literal .text hquery hchars').cons_literal
      (if field.isNone then .path else .text) hpath hchars
    have hspells := (hliterals.scoped hname).call .jsonKeySearch
    cases field with
    | none => exact hspells
    | some field => exact hspells
  | isIn hshape hname hvalues =>
    rw [structuredFilterToText_shape hshape nofun] at htext
    obtain ⟨texts, htexts, heq⟩ := bind_eq_ok htext
    cases heq
    have hvalues : SpellsAll encoder formats _ texts _ := SpellsAll.values hvalues htexts
    have hlist := (hvalues.commas.append_mark .rBracket rfl).mark_append .lBracket rfl
    have hspells := ((SpellsAll.cons hlist hempty).cons_field hname).call .isIn
    rw [List.append_nil] at hspells
    exact hspells
  | compare hshape hname hvalue => exact hcall (.compare _) hshape hname hvalue htext
  | has hshape hname hvalue => exact hcall .has hshape hname hvalue htext
  | contains hshape hname hvalue => exact hcall (.contains _) hshape hname hvalue htext
  | nil texts htexts =>
    cases htexts
    exact .nil
  | cons hchild hchildren ih ihs texts htexts =>
    obtain ⟨chars, texts, hchars, hrest, rfl⟩ := mapM_cons_eq_ok.1 htexts
    exact .cons (ih hchars) (ihs texts hrest)

/-- A structured filter that is accepted, whose expression is within the limits of the parser, is
read back as the expression exactly if each of its literals is kept. -/
theorem structuredFilter_reads_back_iff (hencoder : encoder.Conforms) {structured : Json}
    {expr : FilterExpr} {text : List Char}
    (h : StructuredMeans reader.formats structured expr uses) (hlimits : expr.withinLimits)
    (htext : structuredFilterToText encoder structured = .ok text) :
    parseFilterExpr reader (String.ofList text) = .ok expr ↔
      ∀ literal ∈ uses, literal.Kept encoder reader.formats := by
  have hspells := h.spells htext
  have hchain := expr.slotsApart.chain
  rw [parseFilterExpr_eq_ok, String.toList_ofList]
  constructor
  · rintro ⟨tokens, hlex, hreads, -⟩
    exact (hspells.kept_of_lex hencoder hchain hlex).2 hreads
  · intro hkept
    obtain ⟨tokens, hlex, hreads⟩ := hspells.lex_of_kept hencoder hchain hkept
    exact ⟨tokens, hlex, hreads, hlimits⟩

/-- The digits of an integer. -/
def wholeDigits (value : Int) : List Char :=
  if value < 0 then '-' :: Nat.toDigits 10 value.natAbs else Nat.toDigits 10 value.natAbs

/-- An encoder that leaves out the fraction of a number. -/
def wholeEncoder : JsonEncoder where
  escape ch :=
    if ch = '"' ∨ ch = '\\' then ['\\', ch]
    else if ' ' ≤ ch then [ch]
    else if ch = '\n' then ['\\', 'n']
    else if ch = '\r' then ['\\', 'r']
    else if ch = '\t' then ['\\', 't']
    else '\\' :: 'u' :: '0' :: '0' ::
      [Nat.digitChar (ch.toNat / 16), Nat.digitChar (ch.toNat % 16)]
  number value := wholeDigits ⌊value.value⌋

theorem wholeDigits_spec (value : Int) : ∃ start chars, wholeDigits value = start :: chars ∧
    (start = '-' ∨ start.isDigit) ∧ ∀ ch ∈ chars, isJsonNumberChar ch := by
  have hdigit : ∀ ch ∈ Nat.toDigits 10 value.natAbs, ch.isDigit := fun ch hch =>
    Nat.isDigit_of_mem_toDigits (by decide) (by decide) hch
  have hnumber : ∀ ch ∈ Nat.toDigits 10 value.natAbs, isJsonNumberChar ch := fun ch hch => by
    rw [isJsonNumberChar, hdigit ch hch, Bool.true_or]
  rw [wholeDigits]
  split
  · exact ⟨'-', _, rfl, .inl rfl, hnumber⟩
  · obtain ⟨start, chars, heq⟩ :=
      List.exists_cons_of_ne_nil (@Nat.toDigits_ne_nil value.natAbs 10)
    rw [heq] at hdigit hnumber ⊢
    exact ⟨start, chars, rfl, .inr (hdigit start (List.mem_cons_self ..)),
      (List.forall_mem_cons.1 hnumber).2⟩

theorem wholeEncoder_conforms : wholeEncoder.Conforms where
  quoted ch h := if_pos h
  plain ch h hplain := (if_neg h).trans (if_pos hplain)
  number value := wholeDigits_spec _
  control ch h := by
    have hquoted : ¬ (ch = '"' ∨ ch = '\\') := by
      rintro (rfl | rfl)
      all_goals exact absurd h (by decide)
    have hhex : ∀ digit < 16, ' ' ≤ Nat.digitChar digit ∧ Nat.digitChar digit ≠ '"' ∧
        Nat.digitChar digit ≠ '\\' := by decide
    have hlt : ch.toNat < 32 := h
    have hescape : wholeEncoder.escape ch = _ := (if_neg hquoted).trans (if_neg (not_le.2 h))
    rw [hescape]
    split_ifs
    · exact ⟨'n', [], rfl, by decide, nofun⟩
    · exact ⟨'r', [], rfl, by decide, nofun⟩
    · exact ⟨'t', [], rfl, by decide, nofun⟩
    · refine ⟨'u', _, rfl, by decide, ?_⟩
      have hzero : ' ' ≤ '0' ∧ '0' ≠ '"' ∧ '0' ≠ '\\' := by decide
      exact List.forall_mem_cons.2 ⟨hzero, List.forall_mem_cons.2 ⟨hzero,
        List.forall_mem_cons.2 ⟨hhex _ (by omega), List.forall_mem_singleton.2
          (hhex _ (by omega))⟩⟩⟩

/-- A condition on the name of a run. -/
def nameFilter (name : String) : Json :=
  .object [("field", .string "name"), ("value", .string name)]

theorem structuredShape_nameFilter (name : String) :
    structuredShape (nameFilter name) = .ok (.call (.compare .eq) "name" (.string name)) := by
  rw [nameFilter, structuredShape, structuredObject]
  change (normalizeStructuredOperator "eq").bind (fun operator => structuredOperator _ operator) = _
  rfl

theorem structuredMeans_nameFilter (formats : FilterFormats) (name : String) :
    StructuredMeans formats (nameFilter name) (.compare .eq .name (.string name))
      [⟨.value, .string name⟩] :=
  .compare (structuredShape_nameFilter name) rfl rfl

theorem structuredFilterToText_nameFilter (name : String) :
    structuredFilterToText wholeEncoder (nameFilter name) = .ok (callText (.compare .eq)
      ["name".toList, '"' :: (name.toList.flatMap wholeEncoder.escape ++ ['"'])]) := by
  rw [structuredFilterToText_shape (structuredShape_nameFilter name) nofun]
  rfl

/-- The filter for the runs of the name `a` is read back. -/
theorem structuredFilter_reads_back_name :
    structuredFilterToText wholeEncoder (nameFilter "a") = .ok "eq(name, \"a\")".toList ∧
      parseFilterExpr wholeReader (String.ofList "eq(name, \"a\")".toList) =
        .ok (.compare .eq .name (.string "a")) := by
  have htext : structuredFilterToText wholeEncoder (nameFilter "a") =
      .ok "eq(name, \"a\")".toList :=
    (structuredFilterToText_nameFilter "a").trans (congrArg Except.ok (by decide +kernel))
  refine ⟨htext, (structuredFilter_reads_back_iff wholeEncoder_conforms
    (structuredMeans_nameFilter wholeReader.formats "a") ⟨by decide, by decide⟩ htext).2 ?_⟩
  have hplain : ∀ ch ∈ ['a'], ' ' ≤ ch := List.forall_mem_singleton.2 (by decide)
  exact List.forall_mem_singleton.2 hplain

/-- A line break in a name is read back as the letter of its escape. -/
theorem structuredFilter_loses_newline : ¬ ∀ structured expr uses text,
    StructuredMeans wholeReader.formats structured expr uses → expr.withinLimits →
      structuredFilterToText wholeEncoder structured = .ok text →
        parseFilterExpr wholeReader (String.ofList text) = .ok expr := by
  intro hall
  have htext := structuredFilterToText_nameFilter "a\nb"
  have hparse := hall _ _ _ _ (structuredMeans_nameFilter wholeReader.formats "a\nb")
    ⟨by decide, by decide⟩ htext
  have htext : callText (.compare .eq) ["name".toList, '"' ::
      ("a\nb".toList.flatMap wholeEncoder.escape ++ ['"'])] = "eq(name, \"a\\nb\")".toList := by
    decide +kernel
  have hlexed : lex wholeReader "eq(name, \"a\\nb\")".toList = .ok
      [.ident "eq", .lParen, .ident "name", .comma, .string "anb", .rParen] :=
    eq_ok_of_toOption (by decide +kernel)
  obtain ⟨tokens, hlex, hreads, -⟩ := parseFilterExpr_eq_ok.1 hparse
  rw [String.toList_ofList, htext, hlexed] at hlex
  cases hlex
  have hvalue : some (FilterValue.string "anb") = some (.string "a\nb") :=
    hreads.get (by decide : 4 < 6) (by decide : 4 < 6)
  exact absurd hvalue (by decide)

end KevinDb
