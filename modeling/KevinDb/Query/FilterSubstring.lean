import KevinDb.Lib.Like
import KevinDb.Query.FilterAtoms
import KevinDb.Query.RootFilter
import Mathlib.Data.String.Basic

namespace KevinDb
set_option autoImplicit true
open Sql

variable {formats : FilterFormats} {rules : TextRules} {projects : List String} {run : FilterRun}
  {field : FilterField} {value : FilterValue}

/-- How a database lower-cases a text: each character by itself, though what becomes of it may
depend on the characters before and after it. -/
structure CaseMapping where
  lowerAt : List Char → Char → List Char → List Char

namespace CaseMapping

def lowerFrom (mapping : CaseMapping) (front : List Char) : List Char → List Char
  | [] => []
  | char :: rest =>
    mapping.lowerAt front char rest ++ mapping.lowerFrom (front ++ [char]) rest

end CaseMapping

/-- What `LOWER` is relied on for: it maps the characters, ASCII ones as `to_ascii_lowercase` does,
and leaves alone what it has lower-cased. -/
structure CaseMapping.Describes (mapping : CaseMapping) (rules : TextRules) : Prop where
  lower (text : String) : (rules.lower text).toList = mapping.lowerFrom [] text.toList
  ascii (front rest : List Char) {char : Char} (h : char.val < 128) :
    mapping.lowerAt front char rest = [char.toLower]
  lowered {front rest : List Char} {char lower : Char} (h : lower ∈ mapping.lowerAt front char rest)
    (front' rest' : List Char) : mapping.lowerAt front' lower rest' = [lower]

/-- `LOWER` does to a character what `to_ascii_lowercase` does. -/
def CaseMapping.AsAscii (mapping : CaseMapping) (char : Char) : Prop :=
  ∀ front rest, mapping.lowerAt front char rest = [char.toLower]

variable {mapping : CaseMapping} {front back text fragment : List Char}

theorem CaseMapping.lowerFrom_append (front text back : List Char) :
    ∃ mapped, mapping.lowerFrom front (text ++ back) =
      mapped ++ mapping.lowerFrom (front ++ text) back := by
  induction text generalizing front with
  | nil => exact ⟨[], by rw [List.append_nil, List.nil_append, List.nil_append]⟩
  | cons char text ih =>
    obtain ⟨mapped, hmapped⟩ := ih (front ++ [char])
    refine ⟨mapping.lowerAt front char (text ++ back) ++ mapped, ?_⟩
    rw [List.cons_append, lowerFrom, hmapped, List.append_assoc, List.append_assoc,
      List.singleton_append]

/-- Characters that are lower-cased as ASCII ones stay together. -/
theorem CaseMapping.lowerFrom_asAscii (h : ∀ char ∈ fragment, mapping.AsAscii char)
    (front back : List Char) : mapping.lowerFrom front (fragment ++ back) =
      fragment.map Char.toLower ++ mapping.lowerFrom (front ++ fragment) back := by
  induction fragment generalizing front with
  | nil => rw [List.nil_append, List.append_nil, List.map_nil, List.nil_append]
  | cons char fragment ih =>
    obtain ⟨hchar, hrest⟩ := List.forall_mem_cons.1 h
    rw [List.cons_append, lowerFrom, hchar, ih hrest, List.map_cons, List.append_assoc,
      List.singleton_append, List.singleton_append, List.cons_append]

theorem CaseMapping.infix_lower (h : ∀ char ∈ fragment, mapping.AsAscii char)
    (hcontained : fragment <:+: text) : fragment.map Char.toLower <:+: mapping.lowerFrom [] text := by
  obtain ⟨front, back, rfl⟩ := hcontained
  obtain ⟨mapped, hmapped⟩ := mapping.lowerFrom_append [] front (fragment ++ back)
  rw [List.append_assoc, hmapped, lowerFrom_asAscii h, ← List.append_assoc]
  exact ⟨_, _, rfl⟩

theorem CaseMapping.mem_lowerFrom {lower : Char} (h : lower ∈ mapping.lowerFrom front text) :
    ∃ front' char rest, lower ∈ mapping.lowerAt front' char rest := by
  induction text generalizing front with
  | nil => exact absurd h List.not_mem_nil
  | cons char text ih =>
    rw [lowerFrom, List.mem_append] at h
    rcases h with h | h
    · exact ⟨front, char, text, h⟩
    · exact ih h

theorem toLower_of_not_ascii {char : Char} (h : ¬ char.val < 128) : char.toLower = char := by
  apply Char.toLower_eq_of_not_isUpper
  intro hupper
  have hz : char.val ≤ 'Z'.val := (of_decide_eq_true hupper).2
  have h128 : 'Z'.val < 128 := by decide
  exact h (UInt32.lt_of_le_of_lt hz h128)

/-- A text is found in its own lower-cased form only if its characters are lower-cased as ASCII
ones. -/
theorem CaseMapping.Describes.asAscii_of_infix (h : mapping.Describes rules)
    (hcontained : fragment.map Char.toLower <:+: mapping.lowerFrom [] fragment) :
    ∀ char ∈ fragment, mapping.AsAscii char := by
  intro char hchar front rest
  by_cases hascii : char.val < 128
  · exact h.ascii front rest hascii
  · have hmem : char.toLower ∈ mapping.lowerFrom [] fragment :=
      hcontained.subset (List.mem_map_of_mem hchar)
    obtain ⟨front', char', rest', hmem⟩ := mem_lowerFrom hmem
    have hsame := h.lowered hmem front rest
    rwa [toLower_of_not_ascii hascii] at hsame ⊢

theorem CaseMapping.Describes.lower_of_asAscii (h : mapping.Describes rules) {text : String}
    (hascii : ∀ char ∈ text.toList, mapping.AsAscii char) :
    (rules.lower text).toList = text.toList.map Char.toLower := by
  have hmapped := lowerFrom_asAscii hascii [] []
  rw [List.append_nil, lowerFrom, List.append_nil] at hmapped
  rw [h.lower, hmapped]

/-- A run has the text in what `contains` of the field looks into, and no other. -/
def FilterRun.Shows (projects : List String) (run : FilterRun) (field : FilterField)
    (text : String) : Prop :=
  match field.searched with
  | none => False
  | some (.column column) => run.column column = .text text
  | some .metadataValue =>
    ∃ row, run.metadata = [row] ∧ inProjects projects row.projectName ∧ row.value = text

theorem FilterRun.exists_shows {searched : Searched} (h : field.searched = some searched)
    (projects : List String) (text : String) : ∃ run : FilterRun, run.Shows projects field text := by
  cases searched with
  | column column =>
    refine ⟨⟨fun _ => .text text, [], [], []⟩, ?_⟩
    rw [Shows, h]
  | metadataValue =>
    refine ⟨⟨fun _ => .null, [], [⟨projects.headD "", "", text⟩], []⟩, ?_⟩
    rw [Shows, h]
    refine ⟨_, rfl, ?_, rfl⟩
    cases projects with
    | nil => rfl
    | cons project projects => exact decide_eq_true (.inr List.mem_cons_self)

/-- The pattern is found in the texts that have the value, lower-cased as ASCII, in them. -/
theorem likeChars_containsPattern (value : String) (text : List Char) :
    likeChars (containsPattern value).toList text ↔ value.toList.map Char.toLower <:+: text := by
  have hpattern : (containsPattern value).toList =
      '%' :: (escapeLike (value.toList.map Char.toLower) ++ ['%']) := by
    rw [containsPattern, escapeLikePattern, toAsciiLowercase, escapeLike]
    simp
  rw [hpattern, likeChars_infix]

theorem FilterRun.satisfies_contains {sql : HeadPredicate} {text : String}
    (hsql : compileContains formats projects field value false = .ok sql)
    (hshows : run.Shows projects field text) :
    run.satisfies rules sql ↔
      (value.asString formats).toList.map Char.toLower <:+: (rules.lower text).toList := by
  obtain ⟨searched, hsearched, rfl⟩ := compileContains_eq_ok.1 hsql
  rw [if_neg Bool.false_ne_true, ← likeChars_containsPattern]
  rw [Shows, hsearched] at hshows
  cases searched with
  | column column =>
    rw [Searched.sql, FilterRun.satisfies, Predicate.holds_atom, HeadCondition.truth,
      Comparison.truth, show run.column column = .text text from hshows, Option.some.injEq]
  | metadataValue =>
    obtain ⟨row, hrow, hproject, rfl⟩ := hshows
    rw [Searched.sql, metadataExistsSql, FilterRun.satisfies, Predicate.holds_atom,
      HeadCondition.truth, Option.some.injEq, FilterRun.hasMetadata, hrow]
    simp [hproject, MetadataRow.meets, Predicate.holds_atom, Comparison.truth, MetadataRow.column]

/-- `contains` finds a value wherever it occurs, and only there up to case, exactly if the database
lower-cases its characters as ASCII ones. -/
theorem contains_finds_iff (hmapping : mapping.Describes rules) {sql : HeadPredicate}
    (hsql : compileContains formats projects field value false = .ok sql) :
    (∀ (run : FilterRun) (text : String), run.Shows projects field text →
      ((value.asString formats).toList <:+: text.toList → run.satisfies rules sql) ∧
      (run.satisfies rules sql →
        (rules.lower (value.asString formats)).toList <:+: (rules.lower text).toList)) ↔
      ∀ char ∈ (value.asString formats).toList, mapping.AsAscii char := by
  constructor
  · intro h
    obtain ⟨searched, hsearched, -⟩ := compileContains_eq_ok.1 hsql
    obtain ⟨run, hshows⟩ :=
      FilterRun.exists_shows hsearched projects (value.asString formats)
    have hfound := (h run _ hshows).1 List.infix_rfl
    rw [FilterRun.satisfies_contains hsql hshows, hmapping.lower] at hfound
    exact hmapping.asAscii_of_infix hfound
  · intro hascii run text hshows
    rw [FilterRun.satisfies_contains hsql hshows, hmapping.lower_of_asAscii hascii]
    refine ⟨fun hcontained => ?_, id⟩
    rw [hmapping.lower]
    exact mapping.infix_lower hascii hcontained

/-- A database that knows one letter beyond ASCII. -/
def CaseMapping.sample : CaseMapping where
  lowerAt _ char _ := [if char = 'É' then 'é' else char.toLower]

def sampleTextRules : TextRules where
  before left right := left < right
  lower text := String.ofList (CaseMapping.sample.lowerFrom [] text.toList)

theorem CaseMapping.sample_describes : CaseMapping.sample.Describes sampleTextRules where
  lower text := String.toList_ofList
  ascii front rest char h := by
    have hne : char ≠ 'É' := by
      rintro rfl
      exact absurd h (by decide)
    exact congrArg (fun char => [char]) (if_neg hne)
  lowered {front rest char lower} h front' rest' := by
    have hlower : lower = if char = 'É' then 'é' else char.toLower := List.mem_singleton.1 h
    have hsame : (if lower = 'É' then 'é' else lower.toLower) = lower := by
      by_cases hchar : char = 'É'
      · rw [hlower, if_pos hchar]
        decide
      · rw [if_neg hchar] at hlower
        have hne : lower ≠ 'É' := by
          intro heq
          rw [hlower] at heq
          have halpha := Char.isLower_toLower_eq_isAlpha char
          by_cases hupper : char.isUpper
          · rw [heq, Char.isAlpha, hupper] at halpha
            cases halpha
          · exact hchar ((Char.toLower_eq_of_not_isUpper hupper).symm.trans heq)
        rw [if_neg hne, hlower, Char.toLower_toLower_eq_toLower]
    exact congrArg (fun char => [char]) hsame

/-- `contains` of `50%` finds the texts with `50%` in them. -/
theorem contains_finds_percent : ∃ sql : HeadPredicate,
    ∀ (run : FilterRun) (text : String), run.Shows [] .name text →
      ("50%".toList <:+: text.toList → run.satisfies sampleTextRules sql) ∧
      (run.satisfies sampleTextRules sql →
        (sampleTextRules.lower "50%").toList <:+: (sampleTextRules.lower text).toList) := by
  refine ⟨Searched.sql [] (containsPattern "50%") (.column .name),
    (@contains_finds_iff QueryEngine.sample.formats _ [] .name (.string "50%") _
      CaseMapping.sample_describes _ rfl).2 fun char hchar front rest => ?_⟩
  have hchars : ∀ char ∈ "50%".toList, char.val < 128 := by
    rw [show "50%".toList = ['5', '0', '%'] from rfl]
    simp only [List.forall_mem_cons, List.not_mem_nil, false_implies, implies_true, and_true]
    decide
  exact CaseMapping.sample_describes.ascii front rest (hchars char hchar)

/-- `contains` of `É` does not find `É`, which the database lower-cases and the compiler does not. -/
theorem contains_misses_accent : ∃ sql : HeadPredicate,
    compileContains QueryEngine.sample.formats [] .name (.string "É") false = .ok sql ∧
      ¬ ∀ (run : FilterRun) (text : String), run.Shows [] .name text →
        ("É".toList <:+: text.toList → run.satisfies sampleTextRules sql) ∧
        (run.satisfies sampleTextRules sql →
          (sampleTextRules.lower "É").toList <:+: (sampleTextRules.lower text).toList) := by
  refine ⟨_, rfl, fun h => ?_⟩
  have hfound := (h ⟨fun _ => .text "É", [], [], []⟩ "É" rfl).1 List.infix_rfl
  revert hfound
  decide +kernel

end KevinDb
