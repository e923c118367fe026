import KevinDb.Lib.Text
import KevinDb.Search.Matching

namespace KevinDb
set_option autoImplicit true

/-- A token of a text has only letters and digits. -/
def WordToken (token : String) : Prop := ∀ c ∈ token.toList, c.isAlphanum

/-- A token has no separator. -/
def PlainToken (token : String) : Prop := Char.ofNat 0 ∉ token.toList

theorem WordToken.plain {token : String} (h : WordToken token) : PlainToken token := by
  intro hmem
  exact Bool.false_ne_true (h _ hmem)

/-! Tokens of texts. -/

theorem isAlphanum_toLower {c : Char} (h : c.isAlphanum) : c.toLower.isAlphanum := by
  delta Char.toLower
  split
  next hupper =>
    have hlow : 65 ≤ c.val.toNat := UInt32.le_iff_toNat_le.1 hupper.1
    have hhigh : c.val.toNat ≤ 90 := UInt32.le_iff_toNat_le.1 hupper.2
    have hsum : (c.val + 32).toNat = c.val.toNat + 32 := by
      rw [UInt32.toNat_add]
      exact Nat.mod_eq_of_lt (by change c.val.toNat + 32 < 2 ^ 32; omega)
    have hlower : 97 ≤ (c.val + 32).toNat ∧ (c.val + 32).toNat ≤ 122 := by omega
    rw [Char.isAlphanum, Char.isAlpha, Bool.or_eq_true, Bool.or_eq_true, Char.isLower,
      Bool.and_eq_true, decide_eq_true_eq, decide_eq_true_eq]
    exact .inl (.inr ⟨UInt32.le_iff_toNat_le.2 hlower.1, UInt32.le_iff_toNat_le.2 hlower.2⟩)
  · exact h

theorem word_pushToken {tokens : List String} {current : List Char}
    (htokens : ∀ token ∈ tokens, WordToken token) (hcurrent : ∀ c ∈ current, c.isAlphanum) :
    ∀ token ∈ pushToken tokens current, WordToken token := by
  rw [pushToken]
  split
  · rw [List.forall_mem_append, List.forall_mem_singleton]
    refine ⟨htokens, ?_⟩
    rwa [WordToken, String.toList_ofList]
  · exact htokens

/-- The tokens so far and the current one have only letters and digits. -/
theorem word_tokenStep {state : List String × List Char} (char : Char)
    (h : (∀ token ∈ state.1, WordToken token) ∧ ∀ c ∈ state.2, c.isAlphanum) :
    (∀ token ∈ (tokenStep state char).1, WordToken token) ∧
      ∀ c ∈ (tokenStep state char).2, c.isAlphanum := by
  rw [tokenStep]
  split
  next halphanum =>
    split
    · refine ⟨h.1, ?_⟩
      rw [List.forall_mem_append, List.forall_mem_singleton]
      exact ⟨h.2, isAlphanum_toLower halphanum⟩
    · exact h
  · exact ⟨word_pushToken h.1 h.2, List.forall_mem_nil _⟩

theorem word_tokensForChars (chars : List Char) :
    ∀ token ∈ tokensForChars chars, WordToken token := by
  have hstate : ∀ state : List String × List Char,
      (∀ token ∈ state.1, WordToken token) ∧ (∀ c ∈ state.2, c.isAlphanum) →
        (∀ token ∈ (chars.foldl tokenStep state).1, WordToken token) ∧
          ∀ c ∈ (chars.foldl tokenStep state).2, c.isAlphanum := by
    induction chars with
    | nil => exact fun _ h => h
    | cons char chars ih => exact fun state h => ih _ (word_tokenStep char h)
  obtain ⟨htokens, hcurrent⟩ := hstate ([], [])
    ⟨List.forall_mem_nil _, List.forall_mem_nil _⟩
  exact word_pushToken htokens hcurrent

theorem word_tokensForText (value : String) : ∀ token ∈ tokensForText value, WordToken token :=
  word_tokensForChars value.toList

/-! Queries. -/

/-- The terms and the phrases of a query are words, and no phrase is empty. -/
structure SearchQuery.Words (query : SearchQuery) : Prop where
  terms : ∀ term ∈ query.terms, WordToken term
  phrases : ∀ phrase ∈ query.phrases, phrase ≠ [] ∧ ∀ token ∈ phrase, WordToken token

/-- The phrases of a scan are words. -/
def QueryScan.Words (scan : QueryScan) : Prop :=
  ∀ phrase ∈ scan.phrases, phrase ≠ [] ∧ ∀ token ∈ phrase, WordToken token

theorem QueryScan.Words.endPhrase {scan : QueryScan} (h : scan.Words) (phrase : List Char) :
    (scan.endPhrase phrase).Words := by
  rw [QueryScan.endPhrase, QueryScan.Words]
  dsimp only
  split
  · exact h
  next hne =>
    rw [List.forall_mem_append, List.forall_mem_singleton]
    exact ⟨h, hne, word_tokensForChars phrase⟩

theorem QueryScan.Words.step {scan : QueryScan} (h : scan.Words) (char : Char) :
    (scan.step char).Words := by
  rw [QueryScan.step]
  cases scan.phrase with
  | none =>
    dsimp only
    split
    · exact h
    · exact h
  | some phrase =>
    dsimp only
    split
    · exact h.endPhrase phrase
    · exact h

theorem QueryScan.Words.finish {scan : QueryScan} (h : scan.Words) : scan.finish.Words := by
  rw [QueryScan.finish]
  cases scan.phrase with
  | none => exact h
  | some phrase => exact h.endPhrase phrase

theorem SearchQuery.words_parse (value : String) : (SearchQuery.parse value).Words := by
  have hscan : ∀ (chars : List Char) (scan : QueryScan), scan.Words →
      (chars.foldl QueryScan.step scan).Words := by
    intro chars
    induction chars with
    | nil => exact fun _ h => h
    | cons char chars ih => exact fun scan h => ih _ (h.step char)
  rw [SearchQuery.parse]
  have hempty : QueryScan.Words ⟨[], [], none⟩ := List.forall_mem_nil _
  refine ⟨?_, (hscan value.toList _ hempty).finish⟩
  intro term hterm
  exact word_tokensForChars _ term (List.mem_eraseDups.1 hterm)

mutual

/-- The text queries of a predicate. -/
def SearchPredicate.queries : SearchPredicate → List SearchQuery
  | .and children => SearchPredicate.queriesOf children
  | .or children => SearchPredicate.queriesOf children
  | .not child => child.queries
  | .text _ query => [query]
  | .exactValue _ _ => []
  | .jsonKey _ => []

def SearchPredicate.queriesOf : List SearchPredicate → List SearchQuery
  | [] => []
  | child :: children => child.queries ++ SearchPredicate.queriesOf children

end

/-! Tokens of exact values. -/

theorem flatMap_hex_injective : Function.Injective fun bytes : List UInt8 =>
    bytes.flatMap fun byte =>
      [Nat.digitChar (byte.toNat / 16), Nat.digitChar (byte.toNat % 16)] := by
  intro bytes bytes' h
  induction bytes generalizing bytes' with
  | nil =>
    cases bytes' with
    | nil => rfl
    | cons byte' bytes' => cases h
  | cons byte bytes ih =>
    cases bytes' with
    | nil => cases h
    | cons byte' bytes' =>
      have hbyte := byte.toNat_lt
      have hbyte' := byte'.toNat_lt
      simp only [List.flatMap_cons, List.cons_append, List.nil_append, List.cons.injEq] at h
      obtain ⟨hhigh, hlow, hrest⟩ := h
      have hhigh := digitChar_inj _ (by omega) _ (by omega) hhigh
      have hlow := digitChar_inj _ (by omega) _ (by omega) hlow
      rw [ih hrest, UInt8.toNat_inj.1 (by omega : byte.toNat = byte'.toNat)]

theorem toList_exactValueToken (value : String) : (exactValueToken value).toList =
    '=' :: (utf8Bytes value.toList).flatMap fun byte =>
      [Nat.digitChar (byte.toNat / 16), Nat.digitChar (byte.toNat % 16)] := by
  rw [exactValueToken, hexEncode, String.toList_append, toList_toUTF8, String.toList_ofList,
    String.toList_ofList, List.singleton_append]

theorem exactValueToken_injective : Function.Injective exactValueToken := by
  intro value value' h
  have hlist := congrArg String.toList h
  rw [toList_exactValueToken, toList_exactValueToken, List.cons.injEq] at hlist
  exact String.toList_inj.1 (utf8Bytes_injective (flatMap_hex_injective hlist.2))

theorem not_word_exactValueToken (value : String) : ¬ WordToken (exactValueToken value) := by
  intro h
  have hequals : '='.isAlphanum := h '=' (toList_exactValueToken value ▸ List.mem_cons_self)
  cases hequals

theorem plainToken_exactValueToken (value : String) : PlainToken (exactValueToken value) := by
  have hdigit : ∀ n < 16, Nat.digitChar n ≠ Char.ofNat 0 := by decide
  rw [PlainToken, toList_exactValueToken, List.mem_cons, List.mem_flatMap, not_or, not_exists]
  refine ⟨by decide, ?_⟩
  rintro byte ⟨-, hmem⟩
  have hbyte := byte.toNat_lt
  simp only [List.mem_cons, List.not_mem_nil, or_false] at hmem
  obtain h | h := hmem
  · exact hdigit _ (by omega) h.symm
  · exact hdigit _ (by omega) h.symm

end KevinDb
