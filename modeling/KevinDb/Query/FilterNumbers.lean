import KevinDb.Query.FilterAtoms
import KevinDb.Query.RootFilter
import Mathlib.Data.Rat.Floor
import Mathlib.Tactic.Linarith

namespace KevinDb
set_option autoImplicit true
open Sql

variable {formats : FilterFormats} {rules : TextRules} {projects : List String} {run : FilterRun}
  {field : FilterField} {value : FilterValue} {op : CompareOp} {column : HeadColumn}
  {product : ℚ → ℚ} {x t q p : ℚ}

/-- The comparison of two numbers. -/
def CompareOp.Holds (op : CompareOp) (left right : ℚ) : Prop :=
  match op with
  | .eq => left = right
  | .neq => left ≠ right
  | .gt => left > right
  | .gte => left ≥ right
  | .lt => left < right
  | .lte => left ≤ right

theorem apply_integer (rules : TextRules) (op : CompareOp) (x t : Int) :
    op.operator.apply rules (.integer x) (.integer t) = some true ↔ op.Holds x t := by
  cases op with
  | eq | neq => simp [Operator.apply, CompareOp.operator, CompareOp.Holds]
  | gt | gte | lt | lte =>
    simp [Operator.apply, CompareOp.operator, CompareOp.Holds, Value.before]

/-- The comparisons of a number with two others differ: it lies between them. -/
def CompareOp.Disputed (op : CompareOp) (x t q : ℚ) : Prop :=
  match op with
  | .eq | .neq => t ≠ q ∧ (x = t ∨ x = q)
  | .lt | .gte => (t ≤ x ∧ x < q) ∨ (q ≤ x ∧ x < t)
  | .gt | .lte => (t < x ∧ x ≤ q) ∨ (q < x ∧ x ≤ t)

theorem CompareOp.holds_iff_disputed (op : CompareOp) (x t q : ℚ) :
    (op.Holds x t ↔ op.Holds x q) ↔ ¬ op.Disputed x t q := by
  have heq : ((x = t) ↔ (x = q)) ↔ ¬ (t ≠ q ∧ (x = t ∨ x = q)) := by
    by_cases ht : x = t
    · subst ht
      simp
    · by_cases hq : x = q
      · subst hq
        simp [ht, Ne.symm ht]
      · simp [ht, hq]
  have hlt : ((x < t) ↔ (x < q)) ↔ ¬ ((t ≤ x ∧ x < q) ∨ (q ≤ x ∧ x < t)) := by
    simp only [← not_lt]
    by_cases ht : x < t <;> by_cases hq : x < q <;> simp [ht, hq]
  have hgt : ((t < x) ↔ (q < x)) ↔ ¬ ((t < x ∧ x ≤ q) ∨ (q < x ∧ x ≤ t)) := by
    simp only [← not_lt]
    by_cases ht : t < x <;> by_cases hq : q < x <;> simp [ht, hq]
  cases op with
  | eq => exact heq
  | neq => exact not_iff_not.trans heq
  | lt => exact hlt
  | gte => exact (iff_congr not_lt.symm not_lt.symm).trans (not_iff_not.trans hlt)
  | gt => exact hgt
  | lte => exact (iff_congr not_lt.symm not_lt.symm).trans (not_iff_not.trans hgt)

/-- What reading numbers is relied on for: the nanoseconds of a number of seconds are the product
with `1_000_000_000.0`, rounded to a double and then cast, and an integer that is read fits. -/
structure FilterFormats.Multiplies (formats : FilterFormats) (product : ℚ → ℚ) : Prop where
  nanosOfSeconds (seconds : ℚ) : formats.nanosOfSeconds seconds = i64OfF64 (product seconds)
  readI64 {text : String} {parsed : Int} (h : formats.readI64 text = some parsed) :
    i64Min ≤ parsed ∧ parsed ≤ i64Max

/-- A numeric literal of an integer column: the number that is cast, and the one that is meant, in
the unit of the column. -/
def FilterValue.numeric (formats : FilterFormats) (product : ℚ → ℚ) (name : String) :
    FilterValue → Option (ℚ × ℚ)
  | .number value =>
    if name = "latency" then some (product value, value * 10 ^ 9) else some (value, value)
  | .string text =>
    if name = "latency" then
      (formats.readF64 (stripSuffix "s" text)).map fun seconds =>
        (product seconds, seconds * 10 ^ 9)
    else if name = "start_time" ∨ name = "end_time" then none
    else (formats.readI64 text).map fun parsed : Int => ((parsed : ℚ), (parsed : ℚ))
  | .bool _ => none

theorem i64OfF64_intCast {n : Int} (h : i64Min ≤ n ∧ n ≤ i64Max) : i64OfF64 n = n := by
  rw [i64OfF64, Int.ceil_intCast, Int.floor_intCast, ite_self]
  omega

/-- A numeric literal is accepted, as the cast of its number. -/
theorem asColumnI64_numeric (hformats : formats.Multiplies product) {name : String}
    (h : value.numeric formats product name = some (p, q)) :
    value.asColumnI64 formats name = .ok (i64OfF64 p) := by
  unfold FilterValue.asColumnI64
  cases value with
  | bool value => cases h
  | number value =>
    rw [FilterValue.numeric] at h
    split
    next hname =>
      rw [if_pos hname] at h
      cases h
      exact congrArg Except.ok (hformats.nanosOfSeconds value)
    next hname =>
      rw [if_neg hname] at h
      cases h
      split <;> rfl
  | string text =>
    rw [FilterValue.numeric] at h
    split
    next hname =>
      rw [if_pos hname, Option.map_eq_some_iff] at h
      obtain ⟨seconds, hseconds, h⟩ := h
      cases h
      rw [FilterValue.asDurationNanos, hseconds]
      exact congrArg Except.ok (hformats.nanosOfSeconds seconds)
    next hname =>
      rw [if_neg hname] at h
      split
      next htime => rw [if_pos htime] at h; cases h
      next htime =>
        rw [if_neg htime, Option.map_eq_some_iff] at h
        obtain ⟨parsed, hparsed, h⟩ := h
        cases h
        rw [FilterValue.asI64, hparsed]
        exact congrArg Except.ok (i64OfF64_intCast (hformats.readI64 hparsed)).symm

/-- The cast goes towards zero, to the last 64-bit integer on the way. -/
theorem i64OfF64_of_nonneg (hq : 0 ≤ q) :
    (i64OfF64 q : ℚ) ≤ q ∧ ∀ x : Int, x ≤ i64Max → (x : ℚ) ≤ q → x ≤ i64OfF64 q := by
  have hfloor : (0 : Int) ≤ ⌊q⌋ := Int.floor_nonneg.2 hq
  have hcast : i64OfF64 q = min i64Max ⌊q⌋ := by
    rw [i64OfF64, if_neg (not_lt.2 hq), max_eq_right]
    exact le_min (by decide) (le_trans (by decide) hfloor)
  rw [hcast]
  refine ⟨le_trans (Int.cast_le.2 (min_le_right _ _)) (Int.floor_le q), fun x hx hxq => ?_⟩
  exact le_min hx (Int.le_floor.2 hxq)

theorem i64OfF64_of_neg (hq : q < 0) :
    q ≤ (i64OfF64 q : ℚ) ∧ ∀ x : Int, i64Min ≤ x → q ≤ (x : ℚ) → i64OfF64 q ≤ x := by
  have hceil : ⌈q⌉ ≤ (0 : Int) := Int.ceil_le.2 (by exact_mod_cast hq.le)
  have hcast : i64OfF64 q = max i64Min ⌈q⌉ := by
    rw [i64OfF64, if_pos hq, min_eq_right]
    exact le_trans hceil (by decide)
  rw [hcast]
  refine ⟨le_trans (Int.le_ceil q) (Int.cast_le.2 (le_max_right _ _)), fun x hx hxq => ?_⟩
  exact max_le hx (Int.ceil_le.2 hxq)

/-- Which side of the literal a comparison goes wrong on, if it goes wrong at its cast. -/
def CompareOp.Misses (op : CompareOp) (x q : ℚ) : Prop :=
  match op with
  | .eq | .neq => x ≠ q
  | .lt | .gte => x < q
  | .gt | .lte => q < x

/-- No column lies between the literal and its cast but the cast itself. -/
theorem CompareOp.disputed_iff_misses {x t q : ℚ}
    (h : (t ≤ q ∧ (x ≤ q → x ≤ t)) ∨ (q ≤ t ∧ (q ≤ x → t ≤ x))) :
    op.Disputed x t q ↔ x = t ∧ op.Misses x q := by
  cases op with
  | eq | neq =>
    simp only [Disputed, Misses]
    grind
  | gt | gte | lt | lte =>
    simp only [Disputed, Misses]
    grind

/-- A literal that is cast as it is meant is disputed only by the integer that it is cast to. -/
theorem CompareOp.disputed_cast_iff {x : Int} (hx : i64Min ≤ x ∧ x ≤ i64Max) :
    op.Disputed x (i64OfF64 q) q ↔ x = i64OfF64 q ∧ op.Misses x q := by
  rw [← @Int.cast_inj ℚ]
  apply CompareOp.disputed_iff_misses
  rcases lt_or_ge q 0 with hq | hq
  · obtain ⟨hle, hleast⟩ := i64OfF64_of_neg hq
    exact .inr ⟨hle, fun h => Int.cast_le.2 (hleast x hx.1 h)⟩
  · obtain ⟨hle, hgreatest⟩ := i64OfF64_of_nonneg hq
    exact .inl ⟨hle, fun h => Int.cast_le.2 (hgreatest x hx.2 h)⟩

/-- A reader whose product of a number of seconds is exact. -/
def exactFormats : FilterFormats where
  showF64 _ := ""
  readF64 _ := none
  readI64 _ := none
  nanosOfSeconds seconds := i64OfF64 (seconds * 10 ^ 9)
  nanosOfTime _ := none

theorem exactFormats_multiplies : exactFormats.Multiplies (· * 10 ^ 9) :=
  ⟨fun _ => rfl, nofun⟩

/-- A run with two prompt tokens. -/
def sampleTokens : FilterRun := ⟨fun _ => .integer 2, [], [], []⟩

end KevinDb
