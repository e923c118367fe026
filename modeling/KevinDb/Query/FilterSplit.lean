import KevinDb.Query.FilterMeaning

namespace KevinDb
set_option autoImplicit true
open Sql

variable {ctx : FilterContext} {run : FilterRun} {row : SearchRow} {expr : FilterExpr}

/-- The search predicate of an expression, if it has one. -/
def FilterExpr.searchPart (formats : FilterFormats) (expr : FilterExpr) : Option SearchPredicate :=
  (phase6PredicateForExpr formats expr).toOption.join

theorem scalarConjuncts_spec {children scalars : List FilterExpr}
    (h : scalarConjuncts children = .ok scalars) :
    (∀ child ∈ children, scalarPrefilterExpr child = .ok child.scalarPart) ∧
      scalars = children.filterMap FilterExpr.scalarPart := by
  induction children generalizing scalars with
  | nil =>
    cases h
    exact ⟨fun _ hchild => absurd hchild List.not_mem_nil, rfl⟩
  | cons child children ih =>
    rw [scalarConjuncts] at h
    obtain ⟨scalar, hscalar, h⟩ := bind_eq_ok h
    obtain ⟨rest, hrest, h⟩ := bind_eq_ok h
    cases h
    obtain ⟨hall, rfl⟩ := ih hrest
    have hpart : child.scalarPart = scalar := by rw [FilterExpr.scalarPart, hscalar]; rfl
    rw [List.forall_mem_cons, List.filterMap_cons, hpart]
    refine ⟨⟨hscalar, hall⟩, ?_⟩
    cases scalar with
    | none => rfl
    | some scalar => rfl

theorem scalarConjuncts_eq_nil {children : List FilterExpr}
    (h : ∀ child ∈ children, scalarPrefilterExpr child = .ok none) :
    scalarConjuncts children = .ok [] := by
  induction children with
  | nil => rfl
  | cons child children ih =>
    obtain ⟨hchild, hchildren⟩ := List.forall_mem_cons.1 h
    rw [scalarConjuncts, hchild, ih hchildren]
    rfl

theorem phase6Conjuncts_spec {children : List FilterExpr} {predicates : List SearchPredicate}
    (h : phase6Conjuncts formats children = .ok predicates) :
    (∀ child ∈ children, phase6PredicateForExpr formats child = .ok (child.searchPart formats)) ∧
      predicates = children.filterMap (FilterExpr.searchPart formats) := by
  induction children generalizing predicates with
  | nil =>
    cases h
    exact ⟨fun _ hchild => absurd hchild List.not_mem_nil, rfl⟩
  | cons child children ih =>
    rw [phase6Conjuncts] at h
    obtain ⟨predicate, hpredicate, h⟩ := bind_eq_ok h
    obtain ⟨rest, hrest, h⟩ := bind_eq_ok h
    cases h
    obtain ⟨hall, rfl⟩ := ih hrest
    have hpart : child.searchPart formats = predicate := by
      rw [FilterExpr.searchPart, hpredicate]
      rfl
    rw [List.forall_mem_cons, List.filterMap_cons, hpart]
    refine ⟨⟨hpredicate, hall⟩, ?_⟩
    cases predicate with
    | none => rfl
    | some predicate => rfl

theorem phase6Disjuncts_spec {children : List FilterExpr} {predicates : List SearchPredicate}
    (h : phase6Disjuncts formats children = .ok predicates) :
    List.Forall₂ (fun child predicate =>
      phase6PredicateForExpr formats child = .ok (some predicate)) children predicates := by
  induction children generalizing predicates with
  | nil =>
    cases h
    exact .nil
  | cons child children ih =>
    rw [phase6Disjuncts] at h
    obtain ⟨predicate, hpredicate, h⟩ := bind_eq_ok h
    cases predicate with
    | none => cases h
    | some predicate =>
      obtain ⟨rest, hrest, h⟩ := bind_eq_ok h
      cases h
      exact .cons hpredicate (ih hrest)

theorem holds_combineAnd (predicates : List SearchPredicate) :
    (∀ predicate ∈ combineAnd predicates, predicate.holds row) ↔
      ∀ predicate ∈ predicates, predicate.holds row := by
  match predicates with
  | [] => simp [combineAnd]
  | [predicate] => simp [combineAnd]
  | first :: second :: rest =>
    rw [← SearchPredicate.holds_and]
    simp [combineAnd]

theorem holds_combineOr {predicates : List SearchPredicate} (hne : predicates ≠ []) :
    (∀ predicate ∈ combineOr predicates, predicate.holds row) ↔
      ∃ predicate ∈ predicates, predicate.holds row := by
  match predicates with
  | [] => exact absurd rfl hne
  | [predicate] => simp [combineOr]
  | first :: second :: rest =>
    rw [← SearchPredicate.holds_or]
    simp [combineOr]

theorem RowGroup.condition_single {group : RowGroup γ} {c : γ}
    (h : group.condition (group.anchored [expr]) expr = some c) :
    group.condition false expr = some c := by
  cases hflag : group.anchored [expr] with
  | false => rwa [hflag] at h
  | true =>
    obtain ⟨child, hchild, hanchor⟩ := RowGroup.anchored_iff.1 hflag
    rw [List.mem_singleton.1 hchild] at hanchor
    obtain ⟨d, hd⟩ := group.condition_isAnchor expr hanchor
    rw [RowGroup.condition_eq_of_some hd] at h
    rw [hd, h]

/-- The conjunction of one expression means what the expression means. -/
theorem FilterExpr.means_and_single (expr : FilterExpr) :
    (FilterExpr.and [expr]).means ctx run row ↔ expr.means ctx run row := by
  rw [FilterExpr.means_and, RowGroup.conditions, RowGroup.conditions, List.forall_mem_singleton]
  cases hmetadata : (metadataGroup ctx.formats).condition
      ((metadataGroup ctx.formats).anchored [expr]) expr with
  | some c =>
    have hfeedback : (feedbackGroup ctx.formats).condition
        ((feedbackGroup ctx.formats).anchored [expr]) expr = none := by
      cases hfeedback : (feedbackGroup ctx.formats).condition
          ((feedbackGroup ctx.formats).anchored [expr]) expr with
      | none => rfl
      | some d =>
        rw [feedback_of_metadata hfeedback] at hmetadata
        cases hmetadata
    rw [List.filterMap_cons_some hmetadata, List.filterMap_cons_none hfeedback,
      metadata_alone (RowGroup.condition_single hmetadata)]
    simp [FilterRun.meetsFeedback]
  | none =>
    rw [List.filterMap_cons_none hmetadata]
    cases hfeedback : (feedbackGroup ctx.formats).condition
        ((feedbackGroup ctx.formats).anchored [expr]) expr with
    | some c =>
      rw [List.filterMap_cons_some hfeedback,
        feedback_alone (RowGroup.condition_single hfeedback)]
      simp [FilterRun.meetsMetadata]
    | none =>
      rw [List.filterMap_cons_none hfeedback]
      simp [FilterRun.meetsMetadata, FilterRun.meetsFeedback]

theorem FilterExpr.means_conjunction (exprs : List FilterExpr) :
    (∀ expr ∈ conjunction exprs, expr.means ctx run row) ↔
      (FilterExpr.and exprs).means ctx run row := by
  match exprs with
  | [] =>
    rw [FilterExpr.means_and]
    simp [conjunction, RowGroup.conditions, FilterRun.meetsMetadata, FilterRun.meetsFeedback]
  | [expr] =>
    rw [FilterExpr.means_and_single]
    simp [conjunction]
  | first :: second :: rest => simp [conjunction]

theorem anyContainsPhase6Atom_iff {children : List FilterExpr} :
    anyContainsPhase6Atom children ↔ ∃ child ∈ children, containsPhase6Atom child := by
  induction children with
  | nil => simp [anyContainsPhase6Atom]
  | cons child children ih =>
    rw [anyContainsPhase6Atom, Bool.or_eq_true, ih, List.exists_mem_cons_iff]

theorem anyContainsScalarAtom_eq_false {children : List FilterExpr} :
    anyContainsScalarAtom children = false ↔
      ∀ child ∈ children, containsScalarAtom child = false := by
  induction children with
  | nil => simp [anyContainsScalarAtom]
  | cons child children ih =>
    rw [anyContainsScalarAtom, Bool.or_eq_false_iff, ih, List.forall_mem_cons]

theorem FilterExpr.anyHasEmpty_eq_false {children : List FilterExpr} :
    FilterExpr.anyHasEmpty children = false ↔ ∀ child ∈ children, child.hasEmpty = false := by
  induction children with
  | nil => simp [FilterExpr.anyHasEmpty]
  | cons child children ih =>
    rw [FilterExpr.anyHasEmpty, Bool.or_eq_false_iff, ih, List.forall_mem_cons]

theorem FilterExpr.allKeepGroups_iff {children : List FilterExpr} :
    FilterExpr.allKeepGroups formats children ↔
      ∀ child ∈ children, child.keepsGroups formats := by
  induction children with
  | nil => simp [FilterExpr.allKeepGroups]
  | cons child children ih =>
    rw [FilterExpr.allKeepGroups, Bool.and_eq_true, ih, List.forall_mem_cons]

/-- An expression of search atoms only has some, unless something in it is without children, and
leaves nothing to the heads. -/
theorem searchOnly (expr : FilterExpr) (hscalar : containsScalarAtom expr = false)
    (hempty : expr.hasEmpty = false) :
    containsPhase6Atom expr ∧ scalarPrefilterExpr expr = .ok none := by
  induction expr using FilterExpr.induction with
  | hatom expr hatom =>
    have hphase6 : isPhase6Atom expr := by
      cases expr with
      | and children => cases hatom
      | or children => cases hatom
      | _ => simpa [containsScalarAtom] using hscalar
    cases expr with
    | and children => cases hatom
    | or children => cases hatom
    | _ =>
      refine ⟨by simpa [containsPhase6Atom] using hphase6, ?_⟩
      rw [scalarPrefilterExpr, if_pos hphase6]
      all_goals (intro _ h; cases h)
  | hand children ih =>
    rw [containsScalarAtom, anyContainsScalarAtom_eq_false] at hscalar
    rw [FilterExpr.hasEmpty, Bool.or_eq_false_iff, FilterExpr.anyHasEmpty_eq_false] at hempty
    have hchildren := fun child hchild => ih child hchild (hscalar child hchild)
      (hempty.2 child hchild)
    obtain ⟨first, hfirst⟩ := List.exists_mem_of_ne_nil children (by simpa using hempty.1)
    refine ⟨?_, ?_⟩
    · rw [containsPhase6Atom, anyContainsPhase6Atom_iff]
      exact ⟨first, hfirst, (hchildren first hfirst).1⟩
    · rw [scalarPrefilterExpr, scalarConjuncts_eq_nil fun child hchild => (hchildren child hchild).2]
      rfl
  | hor children ih =>
    rw [containsScalarAtom] at hscalar
    rw [FilterExpr.hasEmpty, Bool.or_eq_false_iff, FilterExpr.anyHasEmpty_eq_false] at hempty
    obtain ⟨first, hfirst⟩ := List.exists_mem_of_ne_nil children (by simpa using hempty.1)
    have hany : anyContainsPhase6Atom children := anyContainsPhase6Atom_iff.2
      ⟨first, hfirst, (ih first hfirst (anyContainsScalarAtom_eq_false.1 hscalar first hfirst)
        (hempty.2 first hfirst)).1⟩
    refine ⟨hany, ?_⟩
    rw [scalarPrefilterExpr, if_pos hany, hscalar]
    rfl

theorem combineOr_isSome {predicates : List SearchPredicate} (h : predicates ≠ []) :
    (combineOr predicates).isSome := by
  match predicates with
  | [] => exact absurd rfl h
  | [_] => rfl
  | _ :: _ :: _ => rfl

/-- Exactly the search atoms have a predicate. -/
theorem phase6AtomPredicate_isSome (hatom : expr.isAtom)
    (h : phase6AtomPredicate formats expr = .ok predicate) :
    predicate.isSome = isPhase6Atom expr := by
  cases expr with
  | and children => cases hatom
  | or children => cases hatom
  | search field query =>
    cases field with
    | none =>
      cases h
      rfl
    | some field =>
      obtain ⟨found, -, h⟩ := bind_eq_ok h
      cases h
      rfl
  | jsonKey field pattern =>
    cases field with
    | none =>
      cases h
      rfl
    | some field =>
      simp only [phase6AtomPredicate] at h
      split at h
      · cases h
        rfl
      · cases h
  | jsonKeySearch field path query =>
    cases field with
    | none =>
      cases h
      rfl
    | some field =>
      obtain ⟨found, -, h⟩ := bind_eq_ok h
      cases h
      rfl
  | compare op field value =>
    simp only [phase6AtomPredicate] at h
    split at h
    next hpayload =>
      rw [isPhase6Atom, hpayload]
      split at h
      · cases h
        rfl
      · cases h
        rfl
      · cases h
    next hpayload =>
      cases h
      exact (Bool.eq_false_of_not_eq_true hpayload).symm
  | has field value =>
    simp only [phase6AtomPredicate] at h
    split at h
    next hpayload =>
      cases h
      exact hpayload.symm
    next hpayload =>
      cases h
      exact (Bool.eq_false_of_not_eq_true hpayload).symm
  | isIn field values =>
    simp only [phase6AtomPredicate] at h
    split at h
    next hpayload =>
      split at h
      · cases h
      next hvalues =>
        cases h
        rw [isPhase6Atom, hpayload]
        exact combineOr_isSome (by simpa using hvalues)
    next hpayload =>
      cases h
      exact (Bool.eq_false_of_not_eq_true hpayload).symm
  | contains field value negated =>
    simp only [phase6AtomPredicate] at h
    split at h
    next hpayload =>
      cases h
      exact hpayload.symm
    next hpayload =>
      cases h
      exact (Bool.eq_false_of_not_eq_true hpayload).symm

/-- The scalar part of an expression is SQL of the head, and the rest is a search predicate. -/
def FilterExpr.splits (ctx : FilterContext) (run : FilterRun) (row : SearchRow)
    (expr : FilterExpr) : Prop :=
  ∀ scalar predicate, scalarPrefilterExpr expr = .ok scalar →
    phase6PredicateForExpr ctx.formats expr = .ok predicate → expr.keepsGroups ctx.formats →
      (expr.means ctx run row ↔
        (∀ part ∈ scalar, part.means ctx run row) ∧ ∀ found ∈ predicate, found.holds row)

theorem splits_atom (hatom : expr.isAtom) : expr.splits ctx run row := by
  intro scalar predicate hscalar hpredicate _
  have hpart : scalar = if isPhase6Atom expr then none else some expr := by
    have hpart := scalarPart_atom hatom
    rw [FilterExpr.scalarPart, hscalar] at hpart
    exact hpart
  have hatomic : phase6AtomPredicate ctx.formats expr = .ok predicate := by
    cases expr with
    | and children => cases hatom
    | or children => cases hatom
    | _ => exact hpredicate
  have hsome := phase6AtomPredicate_isSome hatom hatomic
  cases hphase6 : isPhase6Atom expr with
  | true =>
    rw [hphase6] at hsome
    obtain ⟨found, rfl⟩ := Option.isSome_iff_exists.1 hsome
    rw [FilterExpr.means_atom hatom, FilterExpr.atomMeans, hphase6, hatomic, hpart, hphase6]
    simp
  | false =>
    rw [hphase6, Option.isSome_eq_false_iff, Option.isNone_iff_eq_none] at hsome
    rw [hsome, hpart, hphase6]
    simp

/-- A search part comes with no condition on a shared row. -/
theorem searchPart_of_condition {group : RowGroup γ} {c : γ}
    (h : group.condition flag expr = some c)
    (hpredicate : phase6PredicateForExpr formats expr = .ok (expr.searchPart formats)) :
    expr.searchPart formats = none := by
  obtain ⟨hatom, hscalar⟩ := group.condition_isAtom flag expr c h
  have hatomic : phase6AtomPredicate formats expr = .ok (expr.searchPart formats) := by
    cases expr with
    | and children => cases hatom
    | or children => cases hatom
    | _ => exact hpredicate
  have hsome := phase6AtomPredicate_isSome hatom hatomic
  rw [Bool.not_eq_true'] at hscalar
  rw [hscalar, Option.isSome_eq_false_iff, Option.isNone_iff_eq_none] at hsome
  exact hsome

section Children

variable {children : List FilterExpr} {child : FilterExpr}

/-- The child puts no condition on a shared row. -/
def FilterExpr.isRest (ctx : FilterContext) (children : List FilterExpr) (child : FilterExpr) :
    Prop :=
  (metadataGroup ctx.formats).condition ((metadataGroup ctx.formats).anchored children) child =
    none ∧
  (feedbackGroup ctx.formats).condition ((feedbackGroup ctx.formats).anchored children) child = none

/-- The scalar part of the child puts no condition on a shared row of the scalar parts. -/
def FilterExpr.isRestPart (ctx : FilterContext) (children : List FilterExpr) (child : FilterExpr) :
    Prop :=
  (metadataGroup ctx.formats).partCondition children child = none ∧
  (feedbackGroup ctx.formats).partCondition children child = none

theorem isRest_of_isAnd (hand : child.isAnd) : child.isRest ctx children := by
  refine ⟨?_, ?_⟩
  · rw [← Option.not_isSome_iff_eq_none, Option.isSome_iff_exists]
    rintro ⟨c, hc⟩
    rw [(RowGroup.scalarPart_of_condition hc).2] at hand
    cases hand
  · rw [← Option.not_isSome_iff_eq_none, Option.isSome_iff_exists]
    rintro ⟨c, hc⟩
    rw [(RowGroup.scalarPart_of_condition hc).2] at hand
    cases hand

theorem searchPart_of_not_isRest (h : ¬ child.isRest ctx children)
    (hpredicate : phase6PredicateForExpr ctx.formats child = .ok (child.searchPart ctx.formats)) :
    child.searchPart ctx.formats = none := by
  cases hmetadata : (metadataGroup ctx.formats).condition
      ((metadataGroup ctx.formats).anchored children) child with
  | some c => exact searchPart_of_condition hmetadata hpredicate
  | none =>
    cases hfeedback : (feedbackGroup ctx.formats).condition
        ((feedbackGroup ctx.formats).anchored children) child with
    | some c => exact searchPart_of_condition hfeedback hpredicate
    | none => exact absurd ⟨hmetadata, hfeedback⟩ h

/-- A child of an `and()` asks the same of its part as the conjunction of the scalar parts does, if
the parts of an `and()` are asked for on their own. -/
theorem splits_child (hsame : child.isAnd = false →
      (child.isRestPart ctx children ↔ child.isRest ctx children))
    (hpredicate : phase6PredicateForExpr ctx.formats child = .ok (child.searchPart ctx.formats))
    (ih : child.means ctx run row ↔ (∀ part ∈ child.scalarPart, part.means ctx run row) ∧
      ∀ found ∈ child.searchPart ctx.formats, found.holds row) :
    (child.isRest ctx children → child.means ctx run row) ↔
      (∀ part ∈ child.scalarPart, child.isAnd ∨ child.isRestPart ctx children →
        part.means ctx run row) ∧
      ∀ found ∈ child.searchPart ctx.formats, found.holds row := by
  cases hand : child.isAnd with
  | true =>
    have hrest : child.isRest ctx children := isRest_of_isAnd hand
    simp [hrest, ih]
  | false =>
    rw [hsame hand]
    by_cases hrest : child.isRest ctx children
    · simp [hrest, ih]
    · simp [hrest, searchPart_of_not_isRest hrest hpredicate]

/-- The scalar part of a child that is an `and()` holds by itself: as the only condition on a
shared row, or among the rest. -/
theorem isAnd_part_means (hmem : child ∈ children) {part : FilterExpr} :
    (child.isAnd ∨ child.isRestPart ctx children → part.means ctx run row) ↔
      (child ∈ (metadataGroup ctx.formats).members children → child.isAnd →
        part.means ctx run row) ∧
      (child ∈ (feedbackGroup ctx.formats).members children → child.isAnd →
        part.means ctx run row) ∧
      (child.isRestPart ctx children → part.means ctx run row) := by
  have hrest : child.isRestPart ctx children ↔
      child ∉ (metadataGroup ctx.formats).members children ∧
        child ∉ (feedbackGroup ctx.formats).members children := by
    simp [FilterExpr.isRestPart, RowGroup.members, hmem]
  tauto

end Children

theorem splits_and {children : List FilterExpr}
    (ih : ∀ child ∈ children, child.splits ctx run row) :
    (FilterExpr.and children).splits ctx run row := by
  intro scalar predicate hscalar hpredicate hkeeps
  rw [scalarPrefilterExpr] at hscalar
  obtain ⟨scalars, hscalars, hscalar⟩ := bind_eq_ok hscalar
  cases hscalar
  rw [phase6PredicateForExpr] at hpredicate
  obtain ⟨predicates, hpredicates, hpredicate⟩ := bind_eq_ok hpredicate
  cases hpredicate
  obtain ⟨hparts, rfl⟩ := scalarConjuncts_spec hscalars
  obtain ⟨hsearch, rfl⟩ := phase6Conjuncts_spec hpredicates
  rw [FilterExpr.keepsGroups, Bool.and_eq_true, Bool.and_eq_true,
    FilterExpr.allKeepGroups_iff] at hkeeps
  obtain ⟨⟨hmetadata, hfeedback⟩, hchildren⟩ := hkeeps
  obtain ⟨hmetadata, hmetadataSame⟩ := RowGroup.regroup (metadataGroup ctx.formats)
    (fun expr => expr.means ctx run row) (fun conditions => run.meetsMetadata ctx conditions)
    rfl (fun _ _ => metadata_alone) hmetadata
  obtain ⟨hfeedback, hfeedbackSame⟩ := RowGroup.regroup (feedbackGroup ctx.formats)
    (fun expr => expr.means ctx run row) (fun conditions => run.meetsFeedback ctx conditions)
    rfl (fun _ _ => feedback_alone) hfeedback
  have hsplit : ∀ child ∈ children, (child.isRest ctx children → child.means ctx run row) ↔
      (∀ part ∈ child.scalarPart, child.isAnd ∨ child.isRestPart ctx children →
        part.means ctx run row) ∧
      ∀ found ∈ child.searchPart ctx.formats, found.holds row := by
    intro child hchild
    apply splits_child _ (hsearch child hchild)
    · exact ih child hchild _ _ (hparts child hchild) (hsearch child hchild) (hchildren child hchild)
    · intro hand
      rw [FilterExpr.isRestPart, FilterExpr.isRest, hmetadataSame child hchild hand,
        hfeedbackSame child hchild hand]
  rw [FilterExpr.means_conjunction, holds_combineAnd, FilterExpr.means_and, FilterExpr.means_and,
    hmetadata, hfeedback]
  constructor
  · rintro ⟨hmeetsMetadata, hmeetsFeedback, hrest⟩
    have hchild := fun child hchild => (hsplit child hchild).1 fun h => hrest child hchild h.1 h.2
    have hpart := fun child hmem part hpart =>
      (isAnd_part_means hmem).1 ((hchild child hmem).1 part hpart)
    refine ⟨⟨⟨hmeetsMetadata, fun child hmember hand part hscalar => ?_⟩,
      ⟨hmeetsFeedback, fun child hmember hand part hscalar => ?_⟩, fun part hmem => ?_⟩,
      fun found hfound => ?_⟩
    · exact (hpart child (RowGroup.mem_members.1 hmember).1 part hscalar).1 hmember hand
    · exact (hpart child (RowGroup.mem_members.1 hmember).1 part hscalar).2.1 hmember hand
    · obtain ⟨child, hmem, hscalar⟩ := List.mem_filterMap.1 hmem
      intro hmetadataNone hfeedbackNone
      apply (hpart child hmem part hscalar).2.2
      rw [FilterExpr.isRestPart, RowGroup.partCondition, RowGroup.partCondition, hscalar]
      exact ⟨hmetadataNone, hfeedbackNone⟩
    · obtain ⟨child, hmem, hfound⟩ := List.mem_filterMap.1 hfound
      exact (hchild child hmem).2 found hfound
  · rintro ⟨⟨⟨hmeetsMetadata, hmetadataParts⟩, ⟨hmeetsFeedback, hfeedbackParts⟩, hrest⟩, hfound⟩
    refine ⟨hmeetsMetadata, hmeetsFeedback, fun child hmem hmetadataNone hfeedbackNone => ?_⟩
    apply (hsplit child hmem).2 ⟨fun part hscalar => ?_, fun found hsearched => ?_⟩
    · exact ⟨hmetadataNone, hfeedbackNone⟩
    · apply (isAnd_part_means hmem).2
      refine ⟨fun hmember hand => hmetadataParts child hmember hand part hscalar,
        fun hmember hand => hfeedbackParts child hmember hand part hscalar, fun hnone => ?_⟩
      rw [FilterExpr.isRestPart, RowGroup.partCondition, RowGroup.partCondition, hscalar] at hnone
      exact hrest part (List.mem_filterMap.2 ⟨child, hmem, hscalar⟩) hnone.1 hnone.2
    · exact hfound found (List.mem_filterMap.2 ⟨child, hmem, hsearched⟩)

theorem exists_holds_iff {children : List FilterExpr} {predicates : List SearchPredicate}
    (hpairs : List.Forall₂ (fun child predicate =>
      phase6PredicateForExpr formats child = .ok (some predicate)) children predicates)
    (hchild : ∀ child ∈ children, ∀ found,
      phase6PredicateForExpr formats child = .ok (some found) →
        (child.means ctx run row ↔ found.holds row)) :
    (∃ child ∈ children, child.means ctx run row) ↔
      ∃ predicate ∈ predicates, predicate.holds row := by
  induction hpairs with
  | nil => simp
  | cons hfirst hrest ih =>
    rw [List.exists_mem_cons_iff, List.exists_mem_cons_iff,
      hchild _ List.mem_cons_self _ hfirst,
      ih fun child hmem => hchild child (List.mem_cons_of_mem _ hmem)]

theorem splits_or {children : List FilterExpr}
    (ih : ∀ child ∈ children, child.splits ctx run row) :
    (FilterExpr.or children).splits ctx run row := by
  intro scalar predicate hscalar hpredicate hkeeps
  rw [scalarPrefilterExpr] at hscalar
  rw [phase6PredicateForExpr] at hpredicate
  cases hany : anyContainsPhase6Atom children with
  | false =>
    rw [hany] at hscalar hpredicate
    cases hscalar
    cases hpredicate
    simp
  | true =>
    rw [hany, if_pos rfl] at hscalar hpredicate
    split at hscalar
    · cases hscalar
    next honly =>
      cases hscalar
      rw [if_neg honly] at hpredicate
      obtain ⟨predicates, hpredicates, hpredicate⟩ := bind_eq_ok hpredicate
      cases hpredicate
      rw [FilterExpr.keepsGroups, hany, Bool.not_true, Bool.false_or, Bool.and_eq_true,
        Bool.not_eq_true', FilterExpr.anyHasEmpty_eq_false, FilterExpr.allKeepGroups_iff] at hkeeps
      rw [Bool.not_eq_true, anyContainsScalarAtom_eq_false] at honly
      have hpairs := phase6Disjuncts_spec hpredicates
      have hne : predicates ≠ [] := by
        rintro rfl
        cases hpairs
        cases hany
      rw [holds_combineOr hne, FilterExpr.means_or]
      simp only [Option.not_mem_none, false_implies, implies_true, true_and]
      have hchild : ∀ child ∈ children, ∀ found,
          phase6PredicateForExpr ctx.formats child = .ok (some found) →
            (child.means ctx run row ↔ found.holds row) := by
        intro child hmem found hfound
        have hscalar := (searchOnly child (honly child hmem) (hkeeps.1 child hmem)).2
        rw [ih child hmem _ _ hscalar hfound (hkeeps.2 child hmem)]
        simp
      exact exists_holds_iff hpairs hchild

theorem splits_of_keepsGroups (expr : FilterExpr) : expr.splits ctx run row := by
  induction expr using FilterExpr.induction with
  | hatom expr hatom => exact splits_atom hatom
  | hand children ih => exact splits_and ih
  | hor children ih => exact splits_or ih

/-- A run satisfies a filter exactly if its head satisfies the SQL of the prefilter and its indexed
row the search predicate, unless splitting the filter puts conditions on one row that the filter
does not. -/
theorem filter_split_exact (ctx : FilterContext) (expr : FilterExpr)
    {prefilter : Option HeadPredicate} {predicate : Option SearchPredicate}
    (hprefilter : expr.compileRunHeadPrefilterForProjects ctx.formats ctx.projects = .ok prefilter)
    (hpredicate : expr.phase6SearchPredicate ctx.formats = .ok predicate)
    (hkeeps : expr.keepsGroups ctx.formats) (run : FilterRun) (row : SearchRow) :
    expr.means ctx run row ↔
      (∀ sql ∈ prefilter, run.satisfies ctx.rules sql) ∧ ∀ found ∈ predicate, found.holds row := by
  obtain ⟨scalar, hscalar, hcompile⟩ := bind_eq_ok hprefilter
  rw [splits_of_keepsGroups expr scalar predicate hscalar hpredicate hkeeps]
  apply and_congr_left'
  cases scalar with
  | none =>
    cases hcompile
    simp
  | some part =>
    obtain ⟨sql, hsql, hcompile⟩ := bind_eq_ok hcompile
    cases hcompile
    have hsound : run.satisfies ctx.rules sql ↔ part.means ctx run row :=
      compileExpr_sound part sql hsql
    simp [hsound]

def sampleFilterContext : FilterContext where
  formats := ⟨fun _ => "", fun _ => none, fun _ => none, fun _ => 0, fun _ => none⟩
  rules := ⟨fun left right => left < right, toAsciiLowercase⟩
  projects := ["default"]

/-- A run with `{"model": "gpt", "region": "eu"}` as its metadata. -/
def sampleFilterRun : FilterRun where
  column _ := .null
  tags := []
  metadata := [⟨"default", "model", "gpt"⟩, ⟨"default", "region", "eu"⟩]
  feedback := []

/-- A row with the text "timeout". -/
def sampleSearchRow : SearchRow where
  text _ query := query.terms = ["timeout"]
  exactValue _ value := value = "timeout"
  jsonKey _ := false

def metadataIs (field : FilterField) (value : String) : FilterExpr :=
  .compare .eq field (.string value)

/-- `and(eq(metadata_key, "model"), search("timeout"), eq(metadata_value, "gpt"))`. -/
def sampleFlatFilter : FilterExpr :=
  .and [metadataIs .metadataKey "model", .search none "timeout", metadataIs .metadataValue "gpt"]

/-- `and(and(eq(metadata_key, "model"), search("timeout")), eq(metadata_value, "eu"))`. -/
def sampleNestedFilter : FilterExpr :=
  .and [.and [metadataIs .metadataKey "model", .search none "timeout"],
    metadataIs .metadataValue "eu"]

theorem filter_split_exact_sample : ∃ prefilter predicate,
    sampleFlatFilter.compileRunHeadPrefilterForProjects sampleFilterContext.formats
      sampleFilterContext.projects = .ok prefilter ∧
    sampleFlatFilter.phase6SearchPredicate sampleFilterContext.formats = .ok predicate ∧
    (∀ sql ∈ prefilter, sampleFilterRun.satisfies sampleFilterContext.rules sql) ∧
      ∀ found ∈ predicate, found.holds sampleSearchRow := by
  refine ⟨_, _, rfl, rfl, (filter_split_exact sampleFilterContext sampleFlatFilter rfl rfl
    ?_ sampleFilterRun sampleSearchRow).1 ?_⟩
  · decide +kernel
  · decide +kernel

/-- The inner `and()` shrinks to its metadata condition, which moves to the row of the other one. -/
theorem filter_split_regroups : ∃ prefilter predicate,
    sampleNestedFilter.compileRunHeadPrefilterForProjects sampleFilterContext.formats
      sampleFilterContext.projects = .ok prefilter ∧
    sampleNestedFilter.phase6SearchPredicate sampleFilterContext.formats = .ok predicate ∧
    sampleNestedFilter.means sampleFilterContext sampleFilterRun sampleSearchRow ∧
    ¬ ((∀ sql ∈ prefilter, sampleFilterRun.satisfies sampleFilterContext.rules sql) ∧
      ∀ found ∈ predicate, found.holds sampleSearchRow) := by
  refine ⟨_, _, rfl, rfl, ?_, ?_⟩
  · decide +kernel
  · decide +kernel

end KevinDb
