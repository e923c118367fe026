import KevinDb.Lib.Result
import KevinDb.Query.FilterParser

namespace KevinDb
set_option autoImplicit true

variable {reader : FilterReader} {ch quote : Char} {chars rest back : List Char}

theorem length_readString {value : List Char} {text : String}
    (h : readString quote value chars = .ok (text, rest)) : rest.length ≤ chars.length := by
  fun_induction readString quote value chars with
  | case1 => cases h
  | case2 value chars =>
    cases h
    exact Nat.le_succ _
  | case3 => cases h
  | case4 value hquote escaped chars ih => exact Nat.le_succ_of_le (Nat.le_succ_of_le (ih h))
  | case5 value ch chars hquote hescape ih => exact Nat.le_succ_of_le (ih h)

theorem readString_quote (value : List Char) :
    readString quote value (quote :: chars) = .ok (String.ofList value, chars) := by
  rw [readString.eq_def]
  exact if_pos rfl

theorem readString_escape (value : List Char) (hne : '\\' ≠ quote) :
    readString quote value ('\\' :: ch :: chars) = readString quote (value ++ [ch]) chars := by
  rw [readString.eq_def]
  exact (if_neg hne).trans (if_pos rfl)

theorem readString_cons (value : List Char) (hne : ch ≠ quote) (hescape : ch ≠ '\\') :
    readString quote value (ch :: chars) = readString quote (value ++ [ch]) chars := by
  rw [readString.eq_def]
  exact (if_neg hne).trans (if_neg hescape)

theorem ne_of_isWhitespace {c : Char} (hch : isWhitespace ch = false) (hc : isWhitespace c) :
    c ≠ ch := by
  rintro rfl
  rw [hc] at hch
  cases hch

/-- Spaces do not end a string. -/
theorem readString_spaces {value : List Char} (hquote : isWhitespace quote = false)
    (hback : ∀ c ∈ back, isWhitespace c) (result : String × List Char) :
    readString quote value back ≠ .ok result := by
  induction back generalizing value with
  | nil => exact fun h => by cases h
  | cons c back ih =>
    obtain ⟨hc, hback⟩ := List.forall_mem_cons.1 hback
    rw [readString_cons value (ne_of_isWhitespace hquote hc) (ne_of_isWhitespace rfl hc)]
    exact ih hback

/-- A string that ends before some spaces does not depend on them. -/
theorem readString_append {value : List Char} {text : String} (hquote : isWhitespace quote = false)
    (hback : ∀ c ∈ back, isWhitespace c)
    (h : readString quote value (chars ++ back) = .ok (text, rest)) :
    ∃ rest', rest = rest' ++ back ∧ readString quote value chars = .ok (text, rest') := by
  fun_induction readString quote value chars with
  | case1 value => exact absurd h (readString_spaces hquote hback _)
  | case2 value chars =>
    rw [List.cons_append, readString_quote] at h
    cases h
    exact ⟨chars, rfl, rfl⟩
  | case3 value hne =>
    cases back with
    | nil =>
      rw [List.append_nil, readString.eq_def] at h
      exact absurd (((if_neg hne).trans (if_pos rfl)).symm.trans h) nofun
    | cons c back =>
      rw [List.cons_append, List.nil_append, readString_escape value hne] at h
      exact absurd h (readString_spaces hquote (List.forall_mem_cons.1 hback).2 _)
  | case4 value escaped chars hne ih =>
    rw [List.cons_append, List.cons_append, readString_escape value hne] at h
    exact ih h
  | case5 value ch chars hne hescape ih =>
    rw [List.cons_append, readString_cons value hne hescape] at h
    exact ih h

theorem span_append {keep : Char → Bool} (hback : ∀ c ∈ back, keep c = false) :
    (chars ++ back).span keep = ((chars.span keep).1, (chars.span keep).2 ++ back) := by
  rw [List.span_eq_takeWhile_dropWhile, List.span_eq_takeWhile_dropWhile]
  induction chars with
  | nil =>
    cases back with
    | nil => rfl
    | cons c back =>
      have hc := hback c List.mem_cons_self
      rw [List.nil_append, List.takeWhile_cons_of_neg (by rw [hc]; exact Bool.false_ne_true),
        List.dropWhile_cons_of_neg (by rw [hc]; exact Bool.false_ne_true)]
      rfl
  | cons c chars ih =>
    rw [Prod.mk.injEq] at ih
    by_cases hc : keep c
    · rw [List.cons_append, List.takeWhile_cons_of_pos hc, List.dropWhile_cons_of_pos hc,
        List.takeWhile_cons_of_pos hc, List.dropWhile_cons_of_pos hc, ih.1, ih.2]
    · rw [List.cons_append, List.takeWhile_cons_of_neg hc, List.dropWhile_cons_of_neg hc,
        List.takeWhile_cons_of_neg hc, List.dropWhile_cons_of_neg hc, List.cons_append]

theorem toNat_of_isWhitespace {c : Char} (hc : isWhitespace c) :
    c.toNat ≤ 32 ∨ 133 ≤ c.toNat := by
  simp only [isWhitespace, Bool.or_eq_true, Bool.and_eq_true, decide_eq_true_eq,
    List.contains_eq_mem, List.mem_cons, List.not_mem_nil, or_false] at hc
  omega

theorem toNat_of_isAlphanum {c : Char} (hc : c.isAlphanum) : 48 ≤ c.toNat ∧ c.toNat ≤ 122 := by
  simp only [Char.isAlphanum, Char.isAlpha, Char.isUpper, Char.isLower, Char.isDigit,
    Bool.or_eq_true, Bool.and_eq_true, decide_eq_true_eq, ge_iff_le, UInt32.le_iff_toNat_le] at hc
  have hval : c.val.toNat = c.toNat := rfl
  have hbounds : ('A'.val.toNat = 65) ∧ ('Z'.val.toNat = 90) ∧ ('a'.val.toNat = 97) ∧
    ('z'.val.toNat = 122) ∧ ('0'.val.toNat = 48) ∧ ('9'.val.toNat = 57) :=
    ⟨rfl, rfl, rfl, rfl, rfl, rfl⟩
  omega

theorem isIdentChar_eq_false {c : Char} (hc : isWhitespace c) : isIdentChar c = false := by
  rw [isIdentChar, Bool.or_eq_false_iff, decide_eq_false_iff_not]
  refine ⟨?_, ne_of_isWhitespace rfl hc⟩
  by_contra halpha
  rw [Bool.not_eq_false] at halpha
  have hrange := toNat_of_isAlphanum halpha
  have hspace := toNat_of_isWhitespace hc
  omega

theorem isNumberChar_eq_false {c : Char} (hc : isWhitespace c) : isNumberChar c = false := by
  have hdigit : c.isDigit = false := by
    by_contra hdigit
    rw [Bool.not_eq_false] at hdigit
    have hrange := toNat_of_isAlphanum (Bool.or_eq_true_iff.2 (.inr hdigit))
    have hspace := toNat_of_isWhitespace hc
    omega
  rw [isNumberChar, hdigit, Bool.false_or, Bool.or_eq_false_iff, decide_eq_false_iff_not,
    decide_eq_false_iff_not]
  exact ⟨ne_of_isWhitespace rfl hc, ne_of_isWhitespace rfl hc⟩

theorem isNumberChar_of_start (h : ch = '-' ∨ ch.isDigit) : isNumberChar ch := by
  rcases h with rfl | h
  · rfl
  · rw [isNumberChar, h]
    rfl

theorem isIdentChar_of_start (h : isIdentStart ch) : isIdentChar ch := by
  rw [isIdentStart, Bool.or_eq_true] at h
  rw [isIdentChar, Bool.or_eq_true, Char.isAlphanum, Bool.or_eq_true]
  exact h.imp_left .inl

/-- A number is what the span of its characters reads as. -/
theorem readNumber_eq_ok {token : Token} : readNumber reader chars = .ok (token, rest) ↔
    ∃ number, reader.formats.readF64 (String.ofList (chars.span isNumberChar).1) = some number ∧
      token = .number number ∧ rest = (chars.span isNumberChar).2 := by
  rw [readNumber]
  obtain ⟨front, back⟩ := chars.span isNumberChar
  dsimp only
  cases hnumber : reader.formats.readF64 (String.ofList front) with
  | none => simp
  | some number => simp [eq_comm]

theorem length_span {keep : Char → Bool} (hch : keep ch) :
    ((ch :: chars).span keep).2.length ≤ chars.length := by
  rw [List.span_eq_takeWhile_dropWhile, List.dropWhile_cons_of_pos hch]
  exact (List.dropWhile_suffix keep).length_le

/-- A turn reads the first character, and perhaps more. -/
theorem length_lexToken {token : Option Token} (h : lexToken reader ch chars = .ok (token, rest)) :
    rest.length ≤ chars.length := by
  rw [lexToken] at h
  split_ifs at h with _ _ _ _ _ _ hquote hnumber hident
  any_goals
    cases h
    exact Nat.le_refl _
  · obtain ⟨⟨text, rest'⟩, hread, heq⟩ := bind_eq_ok h
    cases heq
    exact length_readString hread
  · obtain ⟨⟨number, rest'⟩, hread, heq⟩ := bind_eq_ok h
    cases heq
    obtain ⟨number, -, -, rfl⟩ := readNumber_eq_ok.1 hread
    exact length_span (isNumberChar_of_start hnumber)
  · cases h
    exact length_span (isIdentChar_of_start hident)

/-- A turn before some spaces leaves them as they are. -/
theorem lexToken_append {token : Option Token} (hback : ∀ c ∈ back, isWhitespace c)
    (h : lexToken reader ch (chars ++ back) = .ok (token, rest)) :
    ∃ rest', rest = rest' ++ back ∧ lexToken reader ch chars = .ok (token, rest') := by
  rw [lexToken] at h ⊢
  split_ifs at h ⊢ with _ _ _ _ _ _ hquote hnumber hident
  any_goals
    cases h
    exact ⟨chars, rfl, rfl⟩
  · obtain ⟨⟨text, rest'⟩, hread, heq⟩ := bind_eq_ok h
    cases heq
    have hspace : isWhitespace ch = false := by
      rcases hquote with rfl | rfl
      · rfl
      · rfl
    obtain ⟨rest', rfl, hread'⟩ := readString_append hspace hback hread
    refine ⟨rest', rfl, ?_⟩
    rw [hread']
    rfl
  · obtain ⟨⟨token, rest'⟩, hread, heq⟩ := bind_eq_ok h
    cases heq
    obtain ⟨number, htext, rfl, rfl⟩ := readNumber_eq_ok.1 hread
    rw [← List.cons_append, span_append fun c hc => isNumberChar_eq_false (hback c hc)] at htext ⊢
    refine ⟨_, rfl, ?_⟩
    rw [readNumber_eq_ok.2 ⟨number, htext, rfl, rfl⟩]
    rfl
  · rw [← List.cons_append, readIdent,
      span_append fun c hc => isIdentChar_eq_false (hback c hc)] at h
    cases h
    exact ⟨_, rfl, rfl⟩

theorem lexTurns_of_le {turns : Nat} (h : chars.length ≤ turns) :
    lexTurns reader turns chars = lex reader chars := by
  suffices hall : ∀ n, ∀ chars : List Char, chars.length ≤ n → ∀ turns, chars.length ≤ turns →
      lexTurns reader turns chars = lex reader chars from hall _ chars (Nat.le_refl _) turns h
  intro n
  induction n with
  | zero =>
    intro chars hn turns _
    cases List.length_eq_zero_iff.1 (Nat.le_zero.1 hn)
    cases turns with
    | zero => rfl
    | succ turns => rfl
  | succ n ih =>
    intro chars hn turns hturns
    cases chars with
    | nil =>
      cases turns with
      | zero => rfl
      | succ turns => rfl
    | cons ch chars =>
      obtain ⟨turns, rfl⟩ := Nat.exists_eq_succ_of_ne_zero
        (Nat.ne_of_gt (Nat.lt_of_lt_of_le (Nat.zero_lt_succ _) hturns))
      rw [lex, List.length_cons, lexTurns, lexTurns]
      cases hread : lexToken reader ch chars with
      | error e => rfl
      | ok result =>
        have hrest := length_lexToken hread
        rw [List.length_cons] at hn hturns
        have hleft := ih result.2 (by omega) turns (by omega)
        have hright := ih result.2 (by omega) chars.length hrest
        simp only [hleft, hright, bind, Except.bind]

theorem lex_cons : lex reader (ch :: chars) = do
    let (token, rest) ← lexToken reader ch chars
    let tokens ← lex reader rest
    return token.toList ++ tokens := by
  rw [lex, List.length_cons, lexTurns]
  cases hread : lexToken reader ch chars with
  | error e => rfl
  | ok result =>
    simp only [bind, Except.bind, lexTurns_of_le (length_lexToken hread)]

/-- A text lexes if its first token can be read and the rest lexes. -/
theorem lex_cons_eq_ok {tokens : List Token} : lex reader (ch :: chars) = .ok tokens ↔
    ∃ token rest tokens', lexToken reader ch chars = .ok (token, rest) ∧
      lex reader rest = .ok tokens' ∧ tokens = token.toList ++ tokens' := by
  rw [lex_cons]
  constructor
  · intro h
    obtain ⟨⟨token, rest⟩, hread, h⟩ := bind_eq_ok h
    obtain ⟨tokens', hlex, heq⟩ := bind_eq_ok h
    cases heq
    exact ⟨token, rest, tokens', hread, hlex, rfl⟩
  · rintro ⟨token, rest, tokens', hread, hlex, rfl⟩
    rw [hread]
    simp only [bind, Except.bind, hlex]
    rfl

theorem lex_spaces_append {front : List Char} (hfront : ∀ c ∈ front, isWhitespace c) :
    lex reader (front ++ chars) = lex reader chars := by
  induction front with
  | nil => rfl
  | cons c front ih =>
    obtain ⟨hc, hfront⟩ := List.forall_mem_cons.1 hfront
    rw [List.cons_append, lex_cons, lexToken, if_pos hc, ← ih hfront]
    simp only [bind, Except.bind]
    cases lex reader (front ++ chars) with
    | error e => rfl
    | ok tokens => rfl

/-- Spaces behind a text that lexes do not matter. -/
theorem lex_append {tokens : List Token} (hback : ∀ c ∈ back, isWhitespace c)
    (h : lex reader (chars ++ back) = .ok tokens) : lex reader chars = .ok tokens := by
  suffices hall : ∀ n, ∀ chars : List Char, chars.length ≤ n → ∀ tokens,
      lex reader (chars ++ back) = .ok tokens → lex reader chars = .ok tokens from
    hall _ chars (Nat.le_refl _) tokens h
  intro n
  induction n with
  | zero =>
    intro chars hn tokens h
    cases List.length_eq_zero_iff.1 (Nat.le_zero.1 hn)
    rw [List.nil_append, ← List.append_nil back, lex_spaces_append hback] at h
    exact h
  | succ n ih =>
    intro chars hn tokens h
    cases chars with
    | nil =>
      rw [List.nil_append, ← List.append_nil back, lex_spaces_append hback] at h
      exact h
    | cons ch chars =>
      rw [List.cons_append, lex_cons_eq_ok] at h
      obtain ⟨token, rest, tokens', hread, hlex, rfl⟩ := h
      obtain ⟨rest', rfl, hread'⟩ := lexToken_append hback hread
      have hrest := length_lexToken hread'
      rw [List.length_cons] at hn
      exact lex_cons_eq_ok.2
        ⟨token, rest', tokens', hread', ih rest' (by omega) tokens' hlex, rfl⟩

theorem isIdentStart_ne {c : Char} (hch : isIdentStart ch) (hc : isIdentStart c = false) :
    ch ≠ c := by
  rintro rfl
  rw [hc] at hch
  cases hch

theorem isWhitespace_eq_false (hch : isIdentChar ch) : isWhitespace ch = false := by
  by_contra hspace
  rw [Bool.not_eq_false] at hspace
  rw [isIdentChar_eq_false hspace] at hch
  cases hch

theorem isDigit_eq_false (hch : isIdentStart ch) : ch.isDigit = false := by
  by_contra hdigit
  rw [Bool.not_eq_false, Char.isDigit, Bool.and_eq_true, decide_eq_true_eq, decide_eq_true_eq,
    ge_iff_le, UInt32.le_iff_toNat_le, UInt32.le_iff_toNat_le] at hdigit
  rw [isIdentStart, Bool.or_eq_true, decide_eq_true_eq] at hch
  rcases hch with halpha | rfl
  · simp only [Char.isAlpha, Char.isUpper, Char.isLower, Bool.or_eq_true, Bool.and_eq_true,
      decide_eq_true_eq, ge_iff_le, UInt32.le_iff_toNat_le] at halpha
    have hbounds : ('A'.val.toNat = 65) ∧ ('a'.val.toNat = 97) ∧ ('9'.val.toNat = 57) :=
      ⟨rfl, rfl, rfl⟩
    omega
  · exact absurd hdigit.2 (by decide)

theorem span_word {keep : Char → Bool} {word : List Char} (hword : ∀ c ∈ word, keep c)
    (hrest : ∀ c, rest.head? = some c → keep c = false) :
    (word ++ rest).span keep = (word, rest) := by
  rw [List.span_eq_takeWhile_dropWhile, List.takeWhile_append_of_pos hword,
    List.dropWhile_append_of_pos hword]
  cases rest with
  | nil => rw [List.takeWhile_nil, List.append_nil, List.dropWhile_nil]
  | cons c rest =>
    have hc : ¬ keep c := by
      rw [hrest c rfl]
      exact Bool.false_ne_true
    rw [List.takeWhile_cons_of_neg hc, List.append_nil, List.dropWhile_cons_of_neg hc]

/-- A word is read up to the first character that does not belong to it. -/
theorem lexToken_ident {word : List Char} (hch : isIdentStart ch)
    (hword : ∀ c ∈ word, isIdentChar c) (hrest : ∀ c, rest.head? = some c → isIdentChar c = false) :
    lexToken reader ch (word ++ rest) = .ok (some (.ident (String.ofList (ch :: word))), rest) := by
  have hchar := isIdentChar_of_start hch
  have hspace : ¬ isWhitespace ch := by
    rw [isWhitespace_eq_false hchar]
    exact Bool.false_ne_true
  have hquote : ¬ (ch = '"' ∨ ch = singleQuote) :=
    not_or_intro (isIdentStart_ne hch rfl) (isIdentStart_ne hch rfl)
  have hnumber : ¬ (ch = '-' ∨ ch.isDigit) := by
    rw [isDigit_eq_false hch]
    exact not_or_intro (isIdentStart_ne hch rfl) Bool.false_ne_true
  have hspan : readIdent (ch :: (word ++ rest)) = (String.ofList (ch :: word), rest) := by
    rw [← List.cons_append, readIdent,
      span_word (List.forall_mem_cons.2 ⟨hchar, hword⟩) hrest]
  rw [lexToken, if_neg hspace, if_neg (isIdentStart_ne hch rfl), if_neg (isIdentStart_ne hch rfl),
    if_neg (isIdentStart_ne hch rfl), if_neg (isIdentStart_ne hch rfl),
    if_neg (isIdentStart_ne hch rfl), if_neg hquote, if_neg hnumber, if_pos hch, hspan]

/-- The token that a text starts with is its first one. -/
theorem lex_token {token : Token} (h : lexToken reader ch chars = .ok (some token, rest)) :
    lex reader (ch :: chars) = (lex reader rest).map (token :: ·) := by
  rw [lex_cons, h]
  cases hlex : lex reader rest with
  | error e =>
    simp only [bind, Except.bind, hlex]
    rfl
  | ok tokens =>
    simp only [bind, Except.bind, hlex]
    rfl

theorem lex_ident {word : List Char} (hch : isIdentStart ch) (hword : ∀ c ∈ word, isIdentChar c)
    (hrest : ∀ c, rest.head? = some c → isIdentChar c = false) :
    lex reader (ch :: word ++ rest) =
      (lex reader rest).map (.ident (String.ofList (ch :: word)) :: ·) :=
  lex_token (lexToken_ident hch hword hrest)

/-- The punctuation of the filter language. -/
def markToken : Char → Option Token
  | '(' => some .lParen
  | ')' => some .rParen
  | '[' => some .lBracket
  | ']' => some .rBracket
  | ',' => some .comma
  | _ => none

theorem lex_mark {mark : Token} (h : markToken ch = some mark) :
    lex reader (ch :: rest) = (lex reader rest).map (mark :: ·) := by
  have hread : lexToken reader ch rest = .ok (some mark, rest) := by
    unfold markToken at h
    split at h
    all_goals
      cases h
      try rfl
  exact lex_token hread

end KevinDb
