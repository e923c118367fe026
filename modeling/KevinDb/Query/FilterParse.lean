import KevinDb.Query.FilterGrammar

namespace KevinDb
set_option autoImplicit true

variable {reader : FilterReader} {formats : FilterFormats} {slot : Slot} {slots slots' : List Slot}
  {parser parser' : Parser}

/-- The parser reads a token in a place. -/
def Slot.Step (formats : FilterFormats) (slot : Slot) (parser parser' : Parser) : Prop :=
  ∃ token, slot.reads formats token ∧
    parser = { parser' with tokens := token :: parser'.tokens }

/-- The parser reads tokens in places, and counts nodes. -/
def Reads (formats : FilterFormats) (slots : List Slot) (nodes : Nat) (parser parser' : Parser) :
    Prop :=
  ∃ tokens, List.Forall₂ (Slot.reads formats) slots tokens ∧
    parser.tokens = tokens ++ parser'.tokens ∧ parser'.nodes = parser.nodes + nodes

theorem reads_nil : Reads formats [] nodes parser parser' ↔
    parser.tokens = parser'.tokens ∧ parser'.nodes = parser.nodes + nodes := by
  rw [Reads]
  constructor
  · rintro ⟨tokens, hreads, h⟩
    cases hreads
    exact h
  · exact fun h => ⟨[], .nil, h⟩

theorem reads_cons : Reads formats (slot :: slots) nodes parser parser' ↔
    ∃ next, slot.Step formats parser next ∧ Reads formats slots nodes next parser' := by
  constructor
  · rintro ⟨tokens, hreads, htokens, hnodes⟩
    cases hreads with
    | @cons _ token _ tokens hslot hslots =>
      refine ⟨⟨tokens ++ parser'.tokens, parser.nodes⟩, ⟨token, hslot, ?_⟩, tokens, hslots, rfl,
        hnodes⟩
      cases parser
      cases htokens
      rfl
  · rintro ⟨next, ⟨token, hslot, rfl⟩, tokens, hslots, htokens, hnodes⟩
    refine ⟨token :: tokens, .cons hslot hslots, ?_, hnodes⟩
    rw [List.cons_append, ← htokens]

theorem reads_append : Reads formats (slots ++ slots') (nodes + nodes') parser parser' ↔
    ∃ next, Reads formats slots nodes parser next ∧ Reads formats slots' nodes' next parser' := by
  induction slots generalizing parser with
  | nil =>
    simp only [List.nil_append, reads_nil]
    constructor
    · rintro ⟨tokens, hreads, htokens, hnodes⟩
      exact ⟨⟨parser.tokens, parser.nodes + nodes⟩, ⟨rfl, rfl⟩, tokens, hreads, htokens, by
        rw [hnodes, Nat.add_assoc]⟩
    · rintro ⟨next, ⟨htokens, hnodes⟩, tokens, hreads, htokens', hnodes'⟩
      exact ⟨tokens, hreads, htokens.trans htokens', by rw [hnodes', hnodes, Nat.add_assoc]⟩
  | cons slot slots ih =>
    simp only [List.cons_append, reads_cons, ih]
    constructor
    · rintro ⟨next, hstep, last, hslots, hslots'⟩
      exact ⟨last, ⟨next, hstep, hslots⟩, hslots'⟩
    · rintro ⟨last, ⟨next, hstep, hslots⟩, hslots'⟩
      exact ⟨next, hstep, last, hslots, hslots'⟩

/-- Nodes can be counted before the tokens of an expression or with them. -/
theorem reads_count :
    Reads formats slots nodes { parser with nodes := parser.nodes + 1 } parser' ↔
      Reads formats slots (nodes + 1) parser parser' := by
  simp only [Reads, Nat.add_assoc, Nat.add_comm 1 nodes]

/-- A last part without nodes of its own. -/
theorem reads_append_zero : Reads formats (slots ++ slots') nodes parser parser' ↔
    ∃ next, Reads formats slots nodes parser next ∧ Reads formats slots' 0 next parser' := by
  show Reads formats (slots ++ slots') (nodes + 0) parser parser' ↔ _
  exact reads_append

theorem reads_nil_zero : Reads formats [] 0 parser parser' ↔ parser = parser' := by
  rw [reads_nil, Nat.add_zero]
  constructor
  · rintro ⟨htokens, hnodes⟩
    cases parser
    cases parser'
    cases htokens
    cases hnodes
    rfl
  · rintro rfl
    exact ⟨rfl, rfl⟩

theorem reads_singleton :
    Reads formats [slot] 0 parser parser' ↔ slot.Step formats parser parser' := by
  simp only [reads_cons, reads_nil_zero, exists_eq_right]

theorem Reads.length_le (h : Reads formats slots nodes parser parser') :
    parser'.tokens.length ≤ parser.tokens.length := by
  obtain ⟨tokens, -, htokens, -⟩ := h
  rw [htokens, List.length_append]
  exact Nat.le_add_left _ _

theorem Reads.nodes_le (h : Reads formats slots nodes parser parser') :
    parser.nodes ≤ parser'.nodes := by
  obtain ⟨tokens, -, -, hnodes⟩ := h
  omega

theorem Slot.Step.length (h : slot.Step formats parser parser') :
    parser.tokens.length = parser'.tokens.length + 1 := by
  obtain ⟨token, -, rfl⟩ := h
  exact List.length_cons

theorem Slot.Step.nodes_eq (h : slot.Step formats parser parser') :
    parser.nodes = parser'.nodes := by
  obtain ⟨token, -, rfl⟩ := h
  rfl

theorem Slot.Step.head_mark {mark : Token} (h : (Slot.mark mark).Step formats parser parser') :
    parser.tokens.head? = some mark := by
  obtain ⟨token, rfl, rfl⟩ := h
  rfl

theorem commaSlots_cons {rest : List (List Slot)} (hne : rest ≠ []) :
    commaSlots (slots :: rest) = slots ++ .mark .comma :: commaSlots rest := by
  cases rest with
  | nil => exact absurd rfl hne
  | cons next rest => rfl

namespace Parser

theorem expect_eq_ok {mark : Token} : parser.expect reader mark = .ok parser' ↔
    (Slot.mark mark).Step reader.formats parser parser' := by
  obtain ⟨tokens, nodes⟩ := parser
  rw [expect]
  constructor
  · intro h
    cases tokens with
    | nil => cases h
    | cons token tokens =>
      dsimp only at h
      split at h
      next heq =>
        cases h
        exact ⟨token, heq, rfl⟩
      · cases h
  · rintro ⟨token, rfl, heq⟩
    cases heq
    exact if_pos rfl

theorem expectIdent_eq_ok {name : String} : parser.expectIdent reader = .ok (name, parser') ↔
    parser = { parser' with tokens := .ident name :: parser'.tokens } := by
  obtain ⟨tokens, nodes⟩ := parser
  rw [expectIdent]
  constructor
  · intro h
    split at h
    next htokens =>
      cases htokens
      cases h
      rfl
    · cases h
    · cases h
  · intro h
    cases h
    rfl

theorem parseValue_eq_ok {value : FilterValue} :
    parser.parseValue reader = .ok (value, parser') ↔
      (Slot.value value).Step reader.formats parser parser' := by
  obtain ⟨tokens, nodes⟩ := parser
  rw [parseValue]
  constructor
  · intro h
    cases tokens with
    | nil => cases h
    | cons token tokens =>
      dsimp only at h
      split at h
      next hvalue =>
        cases h
        exact ⟨token, hvalue, rfl⟩
      · cases h
  · rintro ⟨token, hvalue, heq⟩
    cases heq
    dsimp only
    rw [show token.value? = some value from hvalue]

theorem parseText_eq_ok {text : String} : parser.parseText reader = .ok (text, parser') ↔
    (Slot.text text).Step reader.formats parser parser' := by
  rw [parseText, bind_eq_ok_iff]
  simp only [Prod.exists, parseValue_eq_ok]
  constructor
  · rintro ⟨value, next, ⟨token, hvalue, rfl⟩, h⟩
    cases h
    exact ⟨token, Option.map_eq_some_iff.2 ⟨value, hvalue, rfl⟩, rfl⟩
  · rintro ⟨token, htext, rfl⟩
    obtain ⟨value, hvalue, rfl⟩ := Option.map_eq_some_iff.1 htext
    exact ⟨value, parser', ⟨token, hvalue, rfl⟩, rfl⟩

theorem parseFieldName_eq_ok {field : FilterField} :
    parser.parseFieldName reader = .ok (field, parser') ↔
      (Slot.field field).Step reader.formats parser parser' := by
  rw [parseFieldName, bind_eq_ok_iff]
  simp only [Prod.exists, expectIdent_eq_ok, bind_eq_ok_iff]
  constructor
  · rintro ⟨name, next, rfl, field, hfield, h⟩
    cases h
    exact ⟨.ident name, ⟨name, rfl, hfield⟩, rfl⟩
  · rintro ⟨token, ⟨name, rfl, hfield⟩, rfl⟩
    exact ⟨name, parser', rfl, field, hfield, rfl⟩

theorem parseOptionalFieldPrefix_some {field : FilterField} :
    parser.parseOptionalFieldPrefix = .ok (some field, parser') ↔
      ∃ next, (Slot.field field).Step formats parser next ∧
        (Slot.mark .comma).Step formats next parser' := by
  obtain ⟨tokens, nodes⟩ := parser
  rw [parseOptionalFieldPrefix]
  constructor
  · intro h
    split at h
    next name tokens htokens =>
      obtain ⟨field, hfield, h⟩ := bind_eq_ok h
      cases htokens
      cases h
      exact ⟨⟨.comma :: tokens, nodes⟩, ⟨.ident name, ⟨name, rfl, hfield⟩, rfl⟩, .comma, rfl, rfl⟩
    · cases h
  · rintro ⟨next, ⟨token, ⟨name, rfl, hfield⟩, heq⟩, mark, rfl, rfl⟩
    cases heq
    dsimp only
    rw [hfield]
    rfl

theorem parseOptionalFieldPrefix_none :
    parser.parseOptionalFieldPrefix = .ok (none, parser') ↔
      parser = parser' ∧ ∀ name tokens, parser.tokens ≠ .ident name :: .comma :: tokens := by
  rw [parseOptionalFieldPrefix]
  split
  next name tokens htokens =>
    rw [htokens]
    constructor
    · intro h
      obtain ⟨field, -, h⟩ := bind_eq_ok h
      cases h
    · exact fun h => absurd rfl (h.2 name tokens)
  next hne =>
    constructor
    · intro h
      cases h
      exact ⟨rfl, hne⟩
    · rintro ⟨rfl, -⟩
      rfl

section Elements
variable {element : Parser → Except FilterError (Parsed α)} {places : α → List Slot}
  {count : α → Nat} {Fits : α → Prop} {Within : Nat → Prop} {values : List α}

/-- What an element of a list reads: values that fit, within a limit on the nodes. -/
def ReadsElement (formats : FilterFormats) (element : Parser → Except FilterError (Parsed α))
    (places : α → List Slot) (count : α → Nat) (Fits : α → Prop) (Within : Nat → Prop) : Prop :=
  ∀ value parser parser', element parser = .ok (value, parser') ↔
    Fits value ∧ Within parser'.nodes ∧
      Reads formats (places value) (count value) parser parser'

theorem consumeIf_eq_some (formats : FilterFormats) {mark : Token} :
    parser.consumeIf mark = some parser' ↔ (Slot.mark mark).Step formats parser parser' := by
  obtain ⟨tokens, nodes⟩ := parser
  rw [consumeIf, peekIs, Option.ite_none_right_eq_some, decide_eq_true_iff]
  constructor
  · rintro ⟨hhead, heq⟩
    obtain ⟨rest, rfl⟩ := List.head?_eq_some_iff.1 hhead
    cases heq
    exact ⟨mark, rfl, rfl⟩
  · rintro ⟨token, rfl, heq⟩
    cases heq
    exact ⟨rfl, rfl⟩

theorem consumeIf_eq_none {mark : Token} :
    parser.consumeIf mark = none ↔ parser.tokens.head? ≠ some mark := by
  rw [consumeIf, peekIs]
  split
  next hhead => exact iff_of_false nofun (not_not_intro (of_decide_eq_true hhead))
  next hhead => exact iff_of_true rfl (of_decide_eq_false (Bool.eq_false_of_not_eq_true hhead))

/-- The loop reads elements with commas between them, and stops before anything but a comma. -/
theorem elements_eq_ok (helement : ReadsElement formats element places count Fits Within)
    (hwithin : ∀ m n, m ≤ n → Within n → Within m) {turns : Nat}
    (hturns : parser.tokens.length < turns) :
    elements element turns parser = .ok (values, parser') ↔
      values ≠ [] ∧ (∀ value ∈ values, Fits value) ∧ Within parser'.nodes ∧
        Reads formats (commaSlots (values.map places)) (values.map count).sum parser parser' ∧
          parser'.tokens.head? ≠ some .comma := by
  induction turns generalizing parser values with
  | zero => exact absurd hturns (Nat.not_lt_zero _)
  | succ turns ih =>
    rw [elements, bind_eq_ok_iff]
    simp only [Prod.exists, helement _ _ _]
    constructor
    · rintro ⟨value, next, ⟨hfits, hnodes, hreads⟩, h⟩
      cases hcomma : next.consumeIf .comma with
      | none =>
        rw [hcomma] at h
        cases h
        refine ⟨List.cons_ne_nil _ _, List.forall_mem_singleton.2 hfits, hnodes, hreads, ?_⟩
        exact consumeIf_eq_none.1 hcomma
      | some last =>
        rw [hcomma] at h
        obtain ⟨⟨rest, parser'⟩, hrest, heq⟩ := bind_eq_ok h
        cases heq
        have hstep := (consumeIf_eq_some formats).1 hcomma
        rw [ih (by have := hreads.length_le; have := hstep.length; omega)] at hrest
        obtain ⟨hne, hrestFits, hwithin', hrestReads, hhead⟩ := hrest
        refine ⟨List.cons_ne_nil _ _, List.forall_mem_cons.2 ⟨hfits, hrestFits⟩, hwithin', ?_, hhead⟩
        rw [List.map_cons, List.map_cons, List.sum_cons, commaSlots_cons (by simpa using hne)]
        exact reads_append.2 ⟨next, hreads, reads_cons.2 ⟨last, hstep, hrestReads⟩⟩
    · rintro ⟨hne, hfits, hnodes, hreads, hhead⟩
      cases values with
      | nil => exact absurd rfl hne
      | cons value rest =>
        obtain ⟨hvalue, hrest⟩ := List.forall_mem_cons.1 hfits
        by_cases hlast : rest = []
        · subst hlast
          refine ⟨value, parser', ⟨hvalue, hnodes, hreads⟩, ?_⟩
          rw [consumeIf_eq_none.2 hhead]
          rfl
        · rw [List.map_cons, List.map_cons, List.sum_cons, commaSlots_cons (by simpa using hlast)]
            at hreads
          obtain ⟨next, hfirst, hreads⟩ := reads_append.1 hreads
          obtain ⟨last, hstep, hreads⟩ := reads_cons.1 hreads
          have hmono : next.nodes ≤ parser'.nodes := by
            have := hreads.nodes_le
            have := hstep.nodes_eq
            omega
          refine ⟨value, next, ⟨hvalue, hwithin _ _ hmono hnodes, hfirst⟩, ?_⟩
          rw [(consumeIf_eq_some formats).2 hstep]
          have hlength : last.tokens.length < turns := by
            have := hfirst.length_le
            have := hstep.length
            omega
          dsimp only
          rw [(ih hlength).2 ⟨hlast, hrest, hnodes, hreads, hhead⟩]
          rfl

/-- More turns than tokens make no difference to the loop. -/
theorem elements_turns (formats : FilterFormats)
    (hshrinks : ∀ value parser parser', element parser = .ok (value, parser') →
      parser'.tokens.length ≤ parser.tokens.length) {turns turns' : Nat}
    (hturns : parser.tokens.length < turns) (hturns' : parser.tokens.length < turns') :
    elements element turns parser = elements element turns' parser := by
  induction turns generalizing parser turns' with
  | zero => exact absurd hturns (Nat.not_lt_zero _)
  | succ turns ih =>
    obtain ⟨turns', rfl⟩ := Nat.exists_eq_succ_of_ne_zero (Nat.ne_of_gt (Nat.zero_lt_of_lt hturns'))
    rw [elements, elements]
    cases hread : element parser with
    | error e => rfl
    | ok result =>
      simp only [bind, Except.bind]
      cases hcomma : result.2.consumeIf .comma with
      | none => rfl
      | some next =>
        have hlength := hshrinks _ _ _ hread
        obtain ⟨token, -, heq⟩ := (consumeIf_eq_some formats).1 hcomma
        rw [heq, List.length_cons] at hlength
        have hrest : elements element turns next = elements element turns' next :=
          ih (by omega) (by omega)
        dsimp only
        rw [hrest]

/-- Before the closing token, the elements are read up to it. -/
theorem elementsUntil_eq_ok (helement : ReadsElement formats element places count Fits Within)
    (hwithin : ∀ m n, m ≤ n → Within n → Within m) {closing : Token} (hcomma : closing ≠ .comma)
    (hfirst : ∀ value parser parser', Reads formats (places value) (count value) parser parser' →
      parser.tokens.head? ≠ some closing)
    (hclosing : parser'.tokens.head? = some closing) :
    parser.elementsUntil closing element = .ok (values, parser') ↔
      (∀ value ∈ values, Fits value) ∧ (values = [] ∨ Within parser'.nodes) ∧
        Reads formats (commaSlots (values.map places)) (values.map count).sum parser parser' := by
  rw [elementsUntil, peekIs]
  split
  next hpeek =>
    rw [decide_eq_true_iff] at hpeek
    constructor
    · intro h
      cases h
      exact ⟨nofun, .inl rfl, reads_nil_zero.2 rfl⟩
    · rintro ⟨-, -, hreads⟩
      cases values with
      | nil => rw [reads_nil_zero.1 hreads]
      | cons value rest =>
        exfalso
        cases rest with
        | nil => exact hfirst value _ _ hreads hpeek
        | cons next rest =>
          simp only [List.map_cons, List.sum_cons] at hreads
          rw [commaSlots_cons (List.cons_ne_nil _ _)] at hreads
          obtain ⟨middle, hreads, -⟩ := reads_append.1 hreads
          exact hfirst value _ _ hreads hpeek
  next hpeek =>
    rw [elements_eq_ok helement hwithin (Nat.lt_succ_self _), hclosing]
    constructor
    · rintro ⟨-, hfits, hnodes, hreads, -⟩
      exact ⟨hfits, .inr hnodes, hreads⟩
    · rintro ⟨hfits, hnodes, hreads⟩
      have hne : values ≠ [] := by
        rintro rfl
        rw [reads_nil_zero.1 hreads, hclosing] at hpeek
        exact hpeek (decide_eq_true rfl)
      exact ⟨hne, hfits, hnodes.resolve_left hne, hreads, fun h => hcomma (Option.some.inj h)⟩

end Elements

theorem parseList_eq_ok {values : List FilterValue} :
    parser.parseList reader = .ok (values, parser') ↔
      Reads reader.formats (.mark .lBracket ::
        (commaSlots (values.map fun value => [.value value]) ++ [.mark .rBracket])) 0
          parser parser' := by
  have hvalue : ReadsElement reader.formats (parseValue reader) (fun value => [.value value])
      (fun _ => 0) (fun _ => True) fun _ => True := by
    intro value parser parser'
    rw [parseValue_eq_ok, reads_singleton, true_and, true_and]
  have hfirst : ∀ value : FilterValue, ∀ parser parser',
      Reads reader.formats [.value value] 0 parser parser' →
        parser.tokens.head? ≠ some .rBracket := by
    rintro value parser parser' hreads hhead
    obtain ⟨token, htoken, rfl⟩ := reads_singleton.1 hreads
    cases hhead
    cases htoken
  have hsum : (values.map fun _ => 0).sum = 0 := List.sum_map_zero
  have hspec {parser parser' : Parser} (hclosing : parser'.tokens.head? = some .rBracket) :
      parser.elementsUntil .rBracket (parseValue reader) = .ok (values, parser') ↔
        Reads reader.formats (commaSlots (values.map fun value => [.value value])) 0
          parser parser' := by
    rw [elementsUntil_eq_ok hvalue (fun _ _ _ _ => trivial) Token.noConfusion hfirst hclosing,
      hsum]
    simp only [or_true, implies_true, true_and]
  rw [parseList, bind_eq_ok_iff]
  simp only [bind_eq_ok_iff, expect_eq_ok, Prod.exists]
  constructor
  · rintro ⟨opened, hopen, values', last, helements, next, hclose, heq⟩
    cases heq
    have helements := (hspec hclose.head_mark).1 helements
    exact reads_cons.2 ⟨opened, hopen, reads_append.2 ⟨last, helements, reads_singleton.2 hclose⟩⟩
  · intro hreads
    obtain ⟨opened, hopen, hreads⟩ := reads_cons.1 hreads
    obtain ⟨last, helements, hclose⟩ := reads_append_zero.1 hreads
    have hclose := reads_singleton.1 hclose
    exact ⟨opened, hopen, values, last, (hspec hclose.head_mark).2 helements, parser', hclose, rfl⟩

end Parser

/-- An expression is read by its slots, if it is not too deep for the levels and not too large. -/
def FilterExpr.Reads (reader : FilterReader) (levels : Nat) (expr : FilterExpr)
    (parser parser' : Parser) : Prop :=
  expr.depth < levels ∧ parser'.nodes ≤ maxFilterNodes ∧
    KevinDb.Reads reader.formats expr.slots expr.nodes parser parser'

namespace Parser

variable {expr : FilterExpr} {levels : Nat} {child : Parser → Except FilterError (Parsed FilterExpr)}

/-- A field and a value, for a function of both. -/
theorem parseFieldValue_eq_ok (f : FilterField → FilterValue → FilterExpr) :
    (do
      let (field, parser) ← parser.parseFieldName reader
      let parser ← parser.expect reader .comma
      let (value, parser) ← parser.parseValue reader
      return (f field value, parser)) = Except.ok (expr, parser') ↔
    ∃ field value, expr = f field value ∧ Reads reader.formats
      [.field field, .mark .comma, .value value] 0 parser parser' := by
  simp only [bind_eq_ok_iff, Prod.exists, parseFieldName_eq_ok, expect_eq_ok, parseValue_eq_ok,
    reads_cons, reads_nil_zero]
  constructor
  · rintro ⟨field, next, hfield, last, hcomma, value, parser', hvalue, heq⟩
    cases heq
    exact ⟨field, value, rfl, next, hfield, last, hcomma, parser', hvalue, rfl⟩
  · rintro ⟨field, value, rfl, next, hfield, last, hcomma, parser', hvalue, rfl⟩
    exact ⟨field, next, hfield, last, hcomma, value, parser', hvalue, rfl⟩

/-- A text, behind a field or not. -/
theorem parseFieldText_eq_ok (f : Option FilterField → String → FilterExpr)
    (hclosing : parser'.tokens.head? = some .rParen) :
    (do
      let (field, parser) ← parser.parseOptionalFieldPrefix
      let (text, parser) ← parser.parseText reader
      return (f field text, parser)) = Except.ok (expr, parser') ↔
    ∃ field text, expr = f field text ∧
      Reads reader.formats (optionalField field ++ [.text text]) 0 parser parser' := by
  simp only [bind_eq_ok_iff, Prod.exists, parseText_eq_ok]
  constructor
  · rintro ⟨field, next, hfield, text, parser', htext, heq⟩
    cases heq
    refine ⟨field, text, rfl, ?_⟩
    cases field with
    | none =>
      rw [(parseOptionalFieldPrefix_none.1 hfield).1]
      exact reads_singleton.2 htext
    | some field =>
      obtain ⟨middle, hname, hcomma⟩ := parseOptionalFieldPrefix_some.1 hfield
      exact reads_cons.2 ⟨middle, hname, reads_cons.2 ⟨next, hcomma, reads_singleton.2 htext⟩⟩
  · rintro ⟨field, text, rfl, hreads⟩
    cases field with
    | none =>
      have htext := reads_singleton.1 hreads
      refine ⟨none, parser, parseOptionalFieldPrefix_none.2 ⟨rfl, ?_⟩, text, parser', htext, rfl⟩
      rintro name tokens htokens
      obtain ⟨token, -, rfl⟩ := htext
      rw [(List.cons.inj htokens).2] at hclosing
      cases hclosing
    | some field =>
      obtain ⟨middle, hname, hreads⟩ := reads_cons.1 hreads
      obtain ⟨next, hcomma, hreads⟩ := reads_cons.1 hreads
      exact ⟨some field, next, parseOptionalFieldPrefix_some.2 ⟨middle, hname, hcomma⟩, text,
        parser', reads_singleton.1 hreads, rfl⟩

/-- A path and a text, behind a field or not. -/
theorem parseFieldPathText_eq_ok :
    (do
      let (field, parser) ← parser.parseOptionalFieldPrefix
      let (path, parser) ← parser.parseText reader
      let parser ← parser.expect reader .comma
      let (query, parser) ← parser.parseText reader
      return (FilterExpr.jsonKeySearch field path query, parser)) = Except.ok (expr, parser') ↔
    ∃ field path query, expr = .jsonKeySearch field path query ∧
      Reads reader.formats expr.arguments 0 parser parser' := by
  simp only [bind_eq_ok_iff, Prod.exists, parseText_eq_ok, expect_eq_ok]
  constructor
  · rintro ⟨field, next, hfield, path, afterPath, hpath, last, hcomma, query, parser', hquery, heq⟩
    cases heq
    refine ⟨field, path, query, rfl, ?_⟩
    have hrest := reads_cons.2 ⟨last, hcomma, reads_singleton.2 hquery⟩
    cases field with
    | none =>
      obtain ⟨rfl, hno⟩ := parseOptionalFieldPrefix_none.1 hfield
      refine reads_cons.2 ⟨afterPath, ?_, hrest⟩
      obtain ⟨token, htext, rfl⟩ := hpath
      refine ⟨token, ⟨?_, htext⟩, rfl⟩
      obtain ⟨mark, rfl, rfl⟩ := hcomma
      cases token with
      | ident name => exact absurd rfl (hno name last.tokens)
      | _ => rfl
    | some field =>
      obtain ⟨middle, hname, hseparator⟩ := parseOptionalFieldPrefix_some.1 hfield
      exact reads_cons.2 ⟨middle, hname, reads_cons.2 ⟨next, hseparator,
        reads_cons.2 ⟨afterPath, hpath, hrest⟩⟩⟩
  · rintro ⟨field, path, query, rfl, hreads⟩
    cases field with
    | none =>
      obtain ⟨afterPath, hpath, hreads⟩ := reads_cons.1 hreads
      obtain ⟨last, hcomma, hquery⟩ := reads_cons.1 hreads
      obtain ⟨token, ⟨hident, htext⟩, rfl⟩ := hpath
      refine ⟨none, _, parseOptionalFieldPrefix_none.2 ⟨rfl, ?_⟩, path, afterPath,
        ⟨token, htext, rfl⟩, last, hcomma, query, parser', reads_singleton.1 hquery, rfl⟩
      intro name tokens htokens
      rw [(List.cons.inj htokens).1] at hident
      cases hident
    | some field =>
      obtain ⟨middle, hname, hreads⟩ := reads_cons.1 hreads
      obtain ⟨next, hseparator, hreads⟩ := reads_cons.1 hreads
      obtain ⟨afterPath, hpath, hreads⟩ := reads_cons.1 hreads
      obtain ⟨last, hcomma, hquery⟩ := reads_cons.1 hreads
      exact ⟨some field, next, parseOptionalFieldPrefix_some.2 ⟨middle, hname, hseparator⟩, path,
        afterPath, hpath, last, hcomma, query, parser', reads_singleton.1 hquery, rfl⟩

/-- The children of an expression, up to the closing parenthesis. -/
theorem children_eq_ok {children : List FilterExpr}
    (hchild : ReadsElement reader.formats child FilterExpr.slots FilterExpr.nodes
      (fun expr => expr.depth < levels) (· ≤ maxFilterNodes))
    (hclosing : parser'.tokens.head? = some .rParen) (hnodes : parser.nodes ≤ maxFilterNodes) :
    parser.elementsUntil .rParen child = .ok (children, parser') ↔
      FilterExpr.childLevels children ≤ levels ∧ parser'.nodes ≤ maxFilterNodes ∧
        Reads reader.formats (commaSlots (FilterExpr.childSlots children))
          (FilterExpr.childNodes children) parser parser' := by
  have hfirst : ∀ expr : FilterExpr, ∀ parser parser',
      Reads reader.formats expr.slots expr.nodes parser parser' →
        parser.tokens.head? ≠ some .rParen := by
    rintro expr parser parser' hreads hhead
    obtain ⟨next, ⟨token, ⟨name, rfl, -⟩, rfl⟩, -⟩ := reads_cons.1 hreads
    cases hhead
  rw [elementsUntil_eq_ok hchild (fun m n => Nat.le_trans) Token.noConfusion hfirst hclosing,
    FilterExpr.childLevels_le, FilterExpr.childSlots_eq, FilterExpr.childNodes_eq]
  refine and_congr_right fun _ => and_congr_left fun hreads => or_iff_right_of_imp ?_
  rintro rfl
  rwa [← reads_nil_zero.1 hreads]

theorem parseArguments_sound {function : FilterFunction}
    (hchild : ReadsElement reader.formats child FilterExpr.slots FilterExpr.nodes
      (fun expr => expr.depth < levels) (· ≤ maxFilterNodes))
    (hclosing : parser'.tokens.head? = some .rParen) (hnodes : parser.nodes ≤ maxFilterNodes)
    (h : parser.parseArguments reader child function = .ok (expr, parser')) :
    expr.function = function ∧ expr.depth ≤ levels ∧ parser'.nodes ≤ maxFilterNodes ∧
      Reads reader.formats expr.arguments expr.descendants parser parser' := by
  have hleaf {slots : List Slot} (hreads : Reads reader.formats slots 0 parser parser') :
      0 ≤ levels ∧ parser'.nodes ≤ maxFilterNodes ∧
        Reads reader.formats slots 0 parser parser' := by
    refine ⟨Nat.zero_le _, ?_, hreads⟩
    obtain ⟨tokens, -, -, hcount⟩ := hreads
    omega
  cases function with
  | and =>
    obtain ⟨⟨children, parser'⟩, hchildren, heq⟩ := bind_eq_ok h
    cases heq
    exact ⟨rfl, (children_eq_ok hchild hclosing hnodes).1 hchildren⟩
  | or =>
    obtain ⟨⟨children, parser'⟩, hchildren, heq⟩ := bind_eq_ok h
    cases heq
    exact ⟨rfl, (children_eq_ok hchild hclosing hnodes).1 hchildren⟩
  | compare op =>
    obtain ⟨field, value, rfl, hreads⟩ := (parseFieldValue_eq_ok _).1 h
    exact ⟨rfl, hleaf hreads⟩
  | has =>
    obtain ⟨field, value, rfl, hreads⟩ := (parseFieldValue_eq_ok _).1 h
    exact ⟨rfl, hleaf hreads⟩
  | isIn =>
    obtain ⟨⟨field, next⟩, hfield, h⟩ := bind_eq_ok h
    obtain ⟨last, hcomma, h⟩ := bind_eq_ok h
    obtain ⟨⟨values, parser'⟩, hvalues, heq⟩ := bind_eq_ok h
    cases heq
    exact ⟨rfl, hleaf (reads_cons.2 ⟨next, parseFieldName_eq_ok.1 hfield,
      reads_cons.2 ⟨last, expect_eq_ok.1 hcomma, parseList_eq_ok.1 hvalues⟩⟩)⟩
  | contains negated =>
    obtain ⟨field, value, rfl, hreads⟩ :=
      (parseFieldValue_eq_ok fun field value => .contains field value negated).1 h
    exact ⟨rfl, hleaf hreads⟩
  | search =>
    obtain ⟨field, query, rfl, hreads⟩ := (parseFieldText_eq_ok _ hclosing).1 h
    exact ⟨rfl, hleaf hreads⟩
  | jsonKey =>
    obtain ⟨field, pattern, rfl, hreads⟩ := (parseFieldText_eq_ok _ hclosing).1 h
    exact ⟨rfl, hleaf hreads⟩
  | jsonKeySearch =>
    obtain ⟨field, path, query, rfl, hreads⟩ := parseFieldPathText_eq_ok.1 h
    exact ⟨rfl, hleaf hreads⟩

theorem parseArguments_complete
    (hchild : ReadsElement reader.formats child FilterExpr.slots FilterExpr.nodes
      (fun expr => expr.depth < levels) (· ≤ maxFilterNodes))
    (hclosing : parser'.tokens.head? = some .rParen) (hdepth : expr.depth ≤ levels)
    (hnodes : parser'.nodes ≤ maxFilterNodes)
    (hreads : Reads reader.formats expr.arguments expr.descendants parser parser') :
    parser.parseArguments reader child expr.function = .ok (expr, parser') := by
  have hbefore := Nat.le_trans hreads.nodes_le hnodes
  cases expr with
  | and children =>
    exact bind_eq_ok_iff.2
      ⟨_, (children_eq_ok hchild hclosing hbefore).2 ⟨hdepth, hnodes, hreads⟩, rfl⟩
  | or children =>
    exact bind_eq_ok_iff.2
      ⟨_, (children_eq_ok hchild hclosing hbefore).2 ⟨hdepth, hnodes, hreads⟩, rfl⟩
  | compare op field value => exact (parseFieldValue_eq_ok _).2 ⟨field, value, rfl, hreads⟩
  | has field value => exact (parseFieldValue_eq_ok _).2 ⟨field, value, rfl, hreads⟩
  | isIn field values =>
    obtain ⟨next, hfield, hreads⟩ := reads_cons.1 hreads
    obtain ⟨last, hcomma, hreads⟩ := reads_cons.1 hreads
    exact bind_eq_ok_iff.2 ⟨_, parseFieldName_eq_ok.2 hfield, bind_eq_ok_iff.2
      ⟨last, expect_eq_ok.2 hcomma, bind_eq_ok_iff.2 ⟨_, parseList_eq_ok.2 hreads, rfl⟩⟩⟩
  | contains field value negated =>
    exact (parseFieldValue_eq_ok fun field value => .contains field value negated).2
      ⟨field, value, rfl, hreads⟩
  | search field query => exact (parseFieldText_eq_ok _ hclosing).2 ⟨field, query, rfl, hreads⟩
  | jsonKey field pattern =>
    exact (parseFieldText_eq_ok _ hclosing).2 ⟨field, pattern, rfl, hreads⟩
  | jsonKeySearch field path query =>
    exact parseFieldPathText_eq_ok.2 ⟨field, path, query, rfl, by cases field <;> exact hreads⟩

/-- The parser reads exactly the expressions that are spelled by its tokens. -/
theorem parseExpr_eq_ok : parseExpr reader levels parser = .ok (expr, parser') ↔
    expr.Reads reader levels parser parser' := by
  induction levels generalizing parser parser' expr with
  | zero => exact iff_of_false nofun fun h => Nat.not_lt_zero _ h.1
  | succ levels ih =>
    have hchild : ReadsElement reader.formats (parseExpr reader levels) FilterExpr.slots
        FilterExpr.nodes (fun expr => expr.depth < levels) (· ≤ maxFilterNodes) :=
      fun expr parser parser' => ih
    rw [parseExpr]
    constructor
    · intro h
      split at h
      · cases h
      next hlimit =>
        obtain ⟨⟨name, named⟩, hname, h⟩ := bind_eq_ok h
        obtain ⟨opened, hopen, h⟩ := bind_eq_ok h
        obtain ⟨function, hfunction, h⟩ := bind_eq_ok h
        obtain ⟨⟨expr, last⟩, harguments, h⟩ := bind_eq_ok h
        obtain ⟨closed, hclose, heq⟩ := bind_eq_ok h
        cases heq
        rw [expectIdent_eq_ok] at hname
        rw [expect_eq_ok] at hopen hclose
        have hcount : parser.nodes + 1 = named.nodes := congrArg Parser.nodes hname
        have hlimit' : opened.nodes ≤ maxFilterNodes := by
          rw [← hopen.nodes_eq]
          omega
        obtain ⟨rfl, hdepth, hnodes, hreads⟩ :=
          parseArguments_sound hchild hclose.head_mark hlimit' harguments
        refine ⟨Nat.lt_succ_of_le hdepth, hclose.nodes_eq ▸ hnodes, reads_count.1 ?_⟩
        refine reads_cons.2 ⟨named, ⟨.ident name, ⟨name, rfl, hfunction⟩, hname⟩, ?_⟩
        refine reads_cons.2 ⟨opened, hopen, ?_⟩
        exact reads_append_zero.2 ⟨last, hreads, reads_singleton.2 hclose⟩
    · rintro ⟨hdepth, hnodes, hreads⟩
      obtain ⟨named, ⟨token, ⟨name, rfl, hfunction⟩, hname⟩, hreads⟩ :=
        reads_cons.1 (reads_count.2 hreads)
      obtain ⟨opened, hopen, hreads⟩ := reads_cons.1 hreads
      obtain ⟨last, hreads, hclose⟩ :=
        reads_append_zero.1 hreads
      have hclose := reads_singleton.1 hclose
      have hcount : parser.nodes + 1 = named.nodes := congrArg Parser.nodes hname
      have hlimit : parser.nodes + 1 ≤ maxFilterNodes := by
        have := hopen.nodes_eq
        have := hreads.nodes_le
        have := hclose.nodes_eq
        omega
      rw [if_neg (Nat.not_lt.2 hlimit)]
      exact bind_eq_ok_iff.2 ⟨_, expectIdent_eq_ok.2 hname, bind_eq_ok_iff.2
        ⟨opened, expect_eq_ok.2 hopen, bind_eq_ok_iff.2 ⟨_, hfunction, bind_eq_ok_iff.2
          ⟨_, parseArguments_complete hchild hclose.head_mark (Nat.le_of_lt_succ hdepth)
            (hclose.nodes_eq ▸ hnodes) hreads, bind_eq_ok_iff.2
              ⟨parser', expect_eq_ok.2 hclose, rfl⟩⟩⟩⟩⟩

end Parser

/-- What the parser accepts: a text whose tokens spell an expression within its limits. -/
theorem parseFilterExpr_eq_ok {input : String} {expr : FilterExpr} :
    parseFilterExpr reader input = .ok expr ↔ ∃ tokens, lex reader input.toList = .ok tokens ∧
      expr.spelledBy reader.formats tokens ∧ expr.withinLimits := by
  rw [parseFilterExpr]
  simp only [bind_eq_ok_iff, Prod.exists, Parser.parseExpr_eq_ok]
  refine exists_congr fun tokens => and_congr_right fun _ => ?_
  constructor
  · rintro ⟨expr', parser, ⟨hdepth, hnodes, read, hreads, htokens, hcount⟩, h⟩
    split at h
    next hdone =>
      cases h
      rw [hdone, List.append_nil] at htokens
      have htokens : tokens = read := htokens
      rw [hcount] at hnodes
      exact ⟨htokens ▸ hreads, by simpa using hnodes, Nat.le_of_lt_succ hdepth⟩
    · cases h
  · rintro ⟨hreads, hnodes, hdepth⟩
    refine ⟨expr, ⟨[], expr.nodes⟩, ⟨Nat.lt_succ_of_le hdepth, hnodes, tokens, hreads, ?_, ?_⟩, rfl⟩
    · exact (List.append_nil tokens).symm
    · exact (Nat.zero_add _).symm

/-- The tokens of a text spell one expression only. -/
theorem FilterExpr.spelledBy_unique {expr expr' : FilterExpr} {tokens : List Token}
    (h : expr.spelledBy reader.formats tokens) (hlimits : expr.withinLimits)
    (h' : expr'.spelledBy reader.formats tokens) (hlimits' : expr'.withinLimits) :
    expr = expr' := by
  have hreads {expr : FilterExpr} (h : expr.spelledBy reader.formats tokens)
      (hlimits : expr.withinLimits) :
      Parser.parseExpr reader (maxFilterDepth + 1) ⟨tokens, 0⟩ = .ok (expr, ⟨[], expr.nodes⟩) :=
    Parser.parseExpr_eq_ok.2 ⟨Nat.lt_succ_of_le hlimits.2, hlimits.1, tokens, h,
      (List.append_nil tokens).symm, (Nat.zero_add _).symm⟩
  have heq := (hreads h hlimits).symm.trans (hreads h' hlimits')
  exact (Prod.mk.inj (Except.ok.inj heq)).1

end KevinDb
