import Mathlib.Data.List.Basic
import Mathlib.Tactic.Common

namespace KevinDb
set_option autoImplicit true

def minTokenBytes : Nat := 2

def maxTokenBytes : Nat := 64

def isStopWord (value : String) : Bool :=
  ["a", "an", "and", "are", "as", "at", "be", "by", "for", "from", "in", "is", "it", "of", "on",
    "or", "the", "to", "with"].contains value

def pushToken (tokens : List String) (current : List Char) : List String :=
  if minTokenBytes ≤ current.length ∧ !isStopWord (String.ofList current) then
    tokens ++ [String.ofList current]
  else tokens

/-- One turn of the loop of `tokens_for_text`: the tokens so far and the current one. -/
def tokenStep (state : List String × List Char) (char : Char) : List String × List Char :=
  if char.isAlphanum then
    if state.2.length < maxTokenBytes then (state.1, state.2 ++ [char.toLower]) else state
  else (pushToken state.1 state.2, [])

def tokensForChars (chars : List Char) : List String :=
  let state := chars.foldl tokenStep ([], [])
  pushToken state.1 state.2

def tokensForText (value : String) : List String :=
  tokensForChars value.toList

inductive SearchField where
  | all
  | exactPath (path : String)
  | pathPrefix (path : String)
deriving DecidableEq, Repr

/-- A field matches its paths. A prefix ends at the end of the path or before a dot. -/
def SearchField.matchesPath (field : SearchField) (path : String) : Bool :=
  match field with
  | .all => true
  | .exactPath expected => path = expected
  | .pathPrefix front => path = front || (front.toList ++ ['.']).isPrefixOf path.toList

structure SearchQuery where
  terms : List String
  phrases : List (List String)
deriving DecidableEq, Repr

/-- The state of `SearchQuery::parse`: the text outside quotes, the phrases, and the phrase that is
being read. -/
structure QueryScan where
  unquoted : List Char
  phrases : List (List String)
  phrase : Option (List Char)

def QueryScan.endPhrase (scan : QueryScan) (phrase : List Char) : QueryScan where
  unquoted := scan.unquoted ++ [' ']
  phrases :=
    if tokensForChars phrase = [] then scan.phrases else scan.phrases ++ [tokensForChars phrase]
  phrase := none

def QueryScan.step (scan : QueryScan) (char : Char) : QueryScan :=
  match scan.phrase with
  | none =>
    if char = '"' then { scan with phrase := some [] }
    else { scan with unquoted := scan.unquoted ++ [char] }
  | some phrase =>
    if char = '"' then scan.endPhrase phrase
    else { scan with phrase := some (phrase ++ [char]) }

/-- The end of the text ends a phrase, too. -/
def QueryScan.finish (scan : QueryScan) : QueryScan :=
  match scan.phrase with
  | none => scan
  | some phrase => scan.endPhrase phrase

def SearchQuery.parse (value : String) : SearchQuery :=
  let scan := (value.toList.foldl QueryScan.step ⟨[], [], none⟩).finish
  { terms := (tokensForChars scan.unquoted).eraseDups
    phrases := scan.phrases }

def SearchQuery.isEmpty (query : SearchQuery) : Bool :=
  query.terms.isEmpty && query.phrases.isEmpty

inductive SearchPredicate where
  | and (children : List SearchPredicate)
  | or (children : List SearchPredicate)
  | not (child : SearchPredicate)
  | text (field : SearchField) (query : SearchQuery)
  | exactValue (field : SearchField) (value : String)
  | jsonKey (pattern : String)

/-- What a row says to the clauses of a predicate. -/
structure SearchRow where
  text : SearchField → SearchQuery → Bool
  exactValue : SearchField → String → Bool
  jsonKey : String → Bool

mutual

/-- The direct evaluation of a predicate on a row. -/
def SearchPredicate.holds (row : SearchRow) : SearchPredicate → Bool
  | .and children => SearchPredicate.allHold row children
  | .or children => SearchPredicate.anyHolds row children
  | .not child => !child.holds row
  | .text field query => row.text field query
  | .exactValue field value => row.exactValue field value
  | .jsonKey pattern => row.jsonKey pattern

def SearchPredicate.allHold (row : SearchRow) : List SearchPredicate → Bool
  | [] => true
  | child :: children => child.holds row && SearchPredicate.allHold row children

def SearchPredicate.anyHolds (row : SearchRow) : List SearchPredicate → Bool
  | [] => false
  | child :: children => child.holds row || SearchPredicate.anyHolds row children

end

theorem SearchPredicate.holds_and (row : SearchRow) (children : List SearchPredicate) :
    (SearchPredicate.and children).holds row ↔ ∀ child ∈ children, child.holds row := by
  rw [SearchPredicate.holds]
  induction children with
  | nil => simp [SearchPredicate.allHold]
  | cons child children ih =>
    rw [SearchPredicate.allHold, Bool.and_eq_true, ih, List.forall_mem_cons]

theorem SearchPredicate.holds_or (row : SearchRow) (children : List SearchPredicate) :
    (SearchPredicate.or children).holds row ↔ ∃ child ∈ children, child.holds row := by
  rw [SearchPredicate.holds]
  induction children with
  | nil => simp [SearchPredicate.anyHolds]
  | cons child children ih =>
    rw [SearchPredicate.anyHolds, Bool.or_eq_true, ih, List.exists_mem_cons_iff]

example : tokensForText "The Quick, brown-fox 123 a" = ["quick", "brown", "fox", "123"] := by
  decide +kernel

example : SearchQuery.parse "alpha \"bravo charlie\" delta" =
    ⟨["alpha", "delta"], [["bravo", "charlie"]]⟩ := by
  decide +kernel

end KevinDb
