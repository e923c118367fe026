import Mathlib.Data.Rat.Defs
import Mathlib.Data.List.Basic
import Mathlib.Tactic.Common

namespace KevinDb.Sql
set_option autoImplicit true

inductive Value where
  | null
  | text (value : String)
  | integer (value : Int)
  | real (value : ℚ)
  | boolean (value : Bool)
deriving DecidableEq

inductive Operator where
  | eq
  | neq
  | gt
  | gte
  | lt
  | lte
deriving DecidableEq, Repr

/-- What a database does with texts: the order of its collation, and its `LOWER`. -/
structure TextRules where
  before : String → String → Bool
  lower : String → String

/-- The order of two values of one type. -/
def Value.before (rules : TextRules) : Value → Value → Bool
  | .text left, .text right => rules.before left right
  | .integer left, .integer right => left < right
  | .real left, .real right => left < right
  | .boolean left, .boolean right => !left && right
  | _, _ => false

/-- A truth value of the three-valued logic, `none` being unknown. -/
abbrev Truth := Option Bool

/-- A comparison with a null is unknown. -/
def Operator.apply (rules : TextRules) (op : Operator) (left right : Value) : Truth :=
  if left = .null ∨ right = .null then none
  else some <| match op with
    | .eq => left = right
    | .neq => left ≠ right
    | .gt => right.before rules left
    | .gte => !left.before rules right
    | .lt => left.before rules right
    | .lte => !right.before rules left

/-- `LIKE` with `%`, `_` and the escape character `\`. -/
def likeChars : List Char → List Char → Bool
  | [], text => text.isEmpty
  | '%' :: pattern, text => text.tails.any (likeChars pattern)
  | '_' :: pattern, text =>
    match text with
    | [] => false
    | _ :: text => likeChars pattern text
  | '\\' :: char :: pattern, text =>
    match text with
    | [] => false
    | first :: text => first = char && likeChars pattern text
  | char :: pattern, text =>
    match text with
    | [] => false
    | first :: text => first = char && likeChars pattern text

/-- A comparison on the columns of a row. -/
inductive Comparison (κ : Type) where
  | compare (op : Operator) (column : κ) (value : Value)
  | isIn (column : κ) (values : List Value)
  | lowerLike (column : κ) (pattern : String)
deriving DecidableEq

def Comparison.truth (rules : TextRules) (row : κ → Value) : Comparison κ → Truth
  | .compare op column value => op.apply rules (row column) value
  | .isIn column values => if row column = .null then none else some (values.contains (row column))
  | .lowerLike column pattern =>
    match row column with
    | .text text => some (likeChars pattern.toList (rules.lower text).toList)
    | _ => none

def Comparison.column : Comparison κ → κ
  | .compare _ column _ | .isIn column _ | .lowerLike column _ => column

theorem Comparison.truth_congr {rules : TextRules} {row row' : κ → Value} (c : Comparison κ)
    (h : row c.column = row' c.column) : c.truth rules row = c.truth rules row' := by
  cases c with
  | compare op column value =>
    rw [Comparison.truth, Comparison.truth, show row column = row' column from h]
  | isIn column values =>
    rw [Comparison.truth, Comparison.truth, show row column = row' column from h]
  | lowerLike column pattern =>
    rw [Comparison.truth, Comparison.truth, show row column = row' column from h]

theorem Operator.apply_eq_true {rules : TextRules} {left right : Value} (hleft : left ≠ .null)
    (hright : right ≠ .null) : Operator.eq.apply rules left right = some true ↔ left = right := by
  rw [Operator.apply, if_neg (not_or.2 ⟨hleft, hright⟩), Option.some.injEq]
  exact decide_eq_true_iff

theorem Comparison.isIn_eq_true {rules : TextRules} {row : κ → Value} {column : κ}
    (h : row column ≠ .null) (values : List Value) :
    (Comparison.isIn column values).truth rules row = some true ↔ row column ∈ values := by
  rw [Comparison.truth, if_neg h, Option.some.injEq, List.contains_iff_mem]

/-- A boolean combination of conditions. -/
inductive Predicate (α : Type) where
  | atom (condition : α)
  | not (predicate : Predicate α)
  | and (predicates : List (Predicate α))
  | or (predicates : List (Predicate α))

def Truth.and : Truth → Truth → Truth
  | some false, _ | _, some false => some false
  | some true, some true => some true
  | _, _ => none

def Truth.or : Truth → Truth → Truth
  | some true, _ | _, some true => some true
  | some false, some false => some false
  | _, _ => none

mutual

def Predicate.truth (value : α → Truth) : Predicate α → Truth
  | .atom condition => value condition
  | .not predicate => (predicate.truth value).map fun truth => !truth
  | .and predicates => Predicate.allTruth value predicates
  | .or predicates => Predicate.anyTruth value predicates

def Predicate.allTruth (value : α → Truth) : List (Predicate α) → Truth
  | [] => some true
  | predicate :: predicates => (predicate.truth value).and (Predicate.allTruth value predicates)

def Predicate.anyTruth (value : α → Truth) : List (Predicate α) → Truth
  | [] => some false
  | predicate :: predicates => (predicate.truth value).or (Predicate.anyTruth value predicates)

end

/-- `WHERE` keeps the rows for which the condition is true. -/
def Predicate.holds (value : α → Truth) (predicate : Predicate α) : Bool :=
  predicate.truth value = some true

variable {value : α → Truth}

theorem Truth.and_eq_true {left right : Truth} :
    left.and right = some true ↔ left = some true ∧ right = some true := by
  rcases left with _ | _ | _ <;> rcases right with _ | _ | _ <;> decide

theorem Truth.or_eq_true {left right : Truth} :
    left.or right = some true ↔ left = some true ∨ right = some true := by
  rcases left with _ | _ | _ <;> rcases right with _ | _ | _ <;> decide

theorem Predicate.holds_iff {predicate : Predicate α} :
    predicate.holds value ↔ predicate.truth value = some true :=
  decide_eq_true_iff

theorem Predicate.holds_atom (condition : α) :
    (Predicate.atom condition).holds value ↔ value condition = some true := by
  rw [Predicate.holds_iff, Predicate.truth]

/-- A conjunction holds exactly if every part does. -/
theorem Predicate.holds_and (predicates : List (Predicate α)) :
    (Predicate.and predicates).holds value ↔ ∀ p ∈ predicates, p.holds value := by
  simp only [Predicate.holds_iff]
  induction predicates with
  | nil => simp [Predicate.truth, Predicate.allTruth]
  | cons predicate predicates ih =>
    rw [Predicate.truth] at ih ⊢
    rw [Predicate.allTruth, Truth.and_eq_true, ih, List.forall_mem_cons]

theorem Predicate.holds_or (predicates : List (Predicate α)) :
    (Predicate.or predicates).holds value ↔ ∃ p ∈ predicates, p.holds value := by
  simp only [Predicate.holds_iff]
  induction predicates with
  | nil => simp [Predicate.truth, Predicate.anyTruth]
  | cons predicate predicates ih =>
    rw [Predicate.truth] at ih ⊢
    rw [Predicate.anyTruth, Truth.or_eq_true, ih, List.exists_mem_cons_iff]

theorem Predicate.holds_not (predicate : Predicate α) :
    (Predicate.not predicate).holds value ↔ predicate.truth value = some false := by
  rw [Predicate.holds_iff, Predicate.truth]
  rcases predicate.truth value with _ | _ | _ <;> decide

/-- A predicate and its negation part the rows for which it is known. -/
theorem Predicate.xor_holds_not (predicate : Predicate α) :
    Xor (predicate.holds value) ((Predicate.not predicate).holds value) ↔
      predicate.truth value ≠ none := by
  rw [Predicate.holds_not, Predicate.holds_iff]
  rcases predicate.truth value with _ | _ | _ <;> simp [Xor]

/-- `=` and `<>` part the rows whose column is not null. -/
theorem Operator.xor_eq_neq {rules : TextRules} {left right : Value} (hright : right ≠ .null) :
    Xor (Operator.eq.apply rules left right = some true)
        (Operator.neq.apply rules left right = some true) ↔ left ≠ .null := by
  by_cases hleft : left = .null
  · simp [Operator.apply, hleft, Xor]
  · rw [Operator.apply, Operator.apply, if_neg (not_or.2 ⟨hleft, hright⟩),
      if_neg (not_or.2 ⟨hleft, hright⟩)]
    by_cases heq : left = right <;> simp [heq, hleft, hright, Xor]

/-- A column is in a list of one text if it is equal to it. -/
theorem Comparison.truth_single {rules : TextRules} {row : κ → Value} (column : κ) (text : String) :
    (Comparison.isIn column [.text text]).truth rules row =
      (Comparison.compare .eq column (.text text)).truth rules row := by
  by_cases hnull : row column = .null
  · rw [Comparison.truth, Comparison.truth, if_pos hnull, Operator.apply, if_pos (.inl hnull)]
  · have htext : Value.text text ≠ .null := nofun
    rw [Comparison.truth, Comparison.truth, if_neg hnull, Operator.apply,
      if_neg (not_or.2 ⟨hnull, htext⟩), Option.some.injEq, Bool.eq_iff_iff, List.contains_iff_mem,
      List.mem_singleton, decide_eq_true_iff]

theorem Predicate.holds_or_single (predicate : Predicate α) :
    (Predicate.or [predicate]).holds value = predicate.holds value := by
  rw [Bool.eq_iff_iff, Predicate.holds_or]
  simp

end KevinDb.Sql
