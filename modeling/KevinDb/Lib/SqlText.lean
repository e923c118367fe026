import Mathlib.Data.List.Basic
import Mathlib.Tactic.Common

namespace KevinDb
set_option autoImplicit true

def quote : Char := Char.ofNat 39

/-- A text with its quotes doubled. -/
def doubled (text : List Char) : List Char :=
  text.flatMap fun c => if c = quote then [quote, quote] else [c]

/-- `sql_string_literal`. -/
def sqlStringLiteral (value : String) : String :=
  String.ofList (quote :: doubled value.toList ++ [quote])

/-- The content of a literal whose quote is open, and what comes behind its end. -/
def readLiteral : List Char → Option (List Char × List Char)
  | [] => none
  | c :: text =>
    if c = quote then
      match text with
      | [] => some ([], [])
      | next :: rest =>
        if next = quote then (readLiteral rest).map fun read => (quote :: read.1, read.2)
        else some ([], next :: rest)
    else (readLiteral text).map fun read => (c :: read.1, read.2)

/-- The value of a text that is one literal. -/
def literalValue (text : String) : Option String :=
  match text.toList with
  | [] => none
  | c :: rest =>
    if c = quote then
      match readLiteral rest with
      | some (content, []) => some (String.ofList content)
      | _ => none
    else none

/-- A text in a literal is read to its end and no further. -/
theorem readLiteral_doubled (text : List Char) {rest : List Char} (hrest : rest.head? ≠ some quote) :
    readLiteral (doubled text ++ quote :: rest) = some (text, rest) := by
  induction text with
  | nil =>
    rw [doubled, List.flatMap_nil, List.nil_append, readLiteral.eq_def]
    dsimp only
    rw [if_pos rfl]
    cases rest with
    | nil => rfl
    | cons next rest =>
      dsimp only
      rw [if_neg fun h => hrest (congrArg some h)]
  | cons c text ih =>
    rw [doubled, List.flatMap_cons, ← doubled]
    by_cases hc : c = quote
    · rw [if_pos hc, List.cons_append, List.cons_append, List.singleton_append, List.cons_append,
        readLiteral.eq_def]
      dsimp only
      rw [if_pos rfl, if_pos rfl, ih, hc]
      rfl
    · rw [if_neg hc, List.singleton_append, List.cons_append, readLiteral.eq_def]
      dsimp only
      rw [if_neg hc, ih]
      rfl

/-- A literal is read as the text that it was made of. -/
theorem literalValue_sqlStringLiteral (value : String) :
    literalValue (sqlStringLiteral value) = some value := by
  rw [literalValue, sqlStringLiteral, String.toList_ofList, List.cons_append]
  dsimp only
  rw [if_pos rfl, readLiteral_doubled value.toList (by decide)]
  exact congrArg some String.ofList_toList

end KevinDb
