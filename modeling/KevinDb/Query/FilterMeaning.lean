import KevinDb.Lib.Result
import KevinDb.Query.Phase6

namespace KevinDb
set_option autoImplicit true
open Sql

/-- An atom, which has no children. -/
def FilterExpr.isAtom : FilterExpr → Bool
  | .and _ | .or _ => false
  | _ => true

def FilterExpr.isAnd : FilterExpr → Bool
  | .and _ => true
  | _ => false

theorem FilterExpr.induction {motive : FilterExpr → Prop}
    (hatom : ∀ expr : FilterExpr, expr.isAtom → motive expr)
    (hand : ∀ children, (∀ child ∈ children, motive child) → motive (.and children))
    (hor : ∀ children, (∀ child ∈ children, motive child) → motive (.or children))
    (expr : FilterExpr) : motive expr := by
  refine @FilterExpr.rec motive (fun children => ∀ child ∈ children, motive child)
    hand hor ?_ ?_ ?_ ?_ ?_ ?_ ?_ ?_ ?_ expr
  · exact fun op field value => hatom _ rfl
  · exact fun field value => hatom _ rfl
  · exact fun field values => hatom _ rfl
  · exact fun field value negated => hatom _ rfl
  · exact fun field query => hatom _ rfl
  · exact fun field pattern => hatom _ rfl
  · exact fun field path query => hatom _ rfl
  · exact fun _ h => absurd h List.not_mem_nil
  · exact fun child children hchild hchildren => List.forall_mem_cons.2 ⟨hchild, hchildren⟩

/-- The scalar part of an expression, if it has one. -/
def FilterExpr.scalarPart (expr : FilterExpr) : Option FilterExpr :=
  (scalarPrefilterExpr expr).toOption.join

/-- The atoms whose conditions an `and()` puts on one row of an index table. Some of them do so
only beside an anchor. -/
structure RowGroup (γ : Type) where
  condition : Bool → FilterExpr → Option γ
  isAnchor : FilterExpr → Bool
  condition_isAtom : ∀ anchored expr c, condition anchored expr = some c →
    expr.isAtom ∧ !isPhase6Atom expr
  condition_anchored : ∀ expr c, condition false expr = some c → condition true expr = some c
  condition_isAnchor : ∀ expr, isAnchor expr → ∃ c, condition false expr = some c

/-- The metadata conditions of `compile_and`. -/
def metadataGroup (formats : FilterFormats) : RowGroup (Predicate (Comparison MetadataColumn)) where
  condition := metadataRowCondition formats
  isAnchor := isPositiveMetadataKeyCondition
  condition_isAtom := by
    intro anchored expr c h
    unfold metadataRowCondition at h
    split at h
    · exact ⟨rfl, rfl⟩
    · exact ⟨rfl, rfl⟩
    · exact ⟨rfl, rfl⟩
    · cases h
  condition_anchored := by
    intro expr c h
    unfold metadataRowCondition at h ⊢
    split at h
    · exact h
    · split at h
      · cases h
      next op value hop =>
        have hop : ¬ (op = .neq ∧ (!true) = true) := fun hneq => hop ⟨hneq.1, rfl⟩
        rw [if_neg hop]
        exact h
    · exact h
    · cases h
  condition_isAnchor := by
    intro expr h
    unfold isPositiveMetadataKeyCondition at h
    split at h
    next op value =>
      rw [metadataRowCondition, if_neg (of_decide_eq_true h)]
      exact ⟨_, rfl⟩
    · exact ⟨_, rfl⟩
    · cases h

/-- The feedback conditions of `compile_and`. -/
def feedbackGroup (formats : FilterFormats) : RowGroup (Comparison FeedbackColumn) where
  condition anchored expr := (feedbackRowCondition formats anchored expr).toOption.join
  isAnchor := isPositiveFeedbackKeyCondition
  condition_isAtom := by
    intro anchored expr c h
    unfold feedbackRowCondition at h
    split at h
    · exact ⟨rfl, rfl⟩
    · exact ⟨rfl, rfl⟩
    · exact ⟨rfl, rfl⟩
    · cases h
  condition_anchored := by
    intro expr c h
    unfold feedbackRowCondition at h ⊢
    split at h
    · exact h
    · split at h
      · cases h
      next op value hop =>
        have hop : ¬ (op = .neq ∧ (!true) = true) := fun hneq => hop ⟨hneq.1, rfl⟩
        rw [if_neg hop]
        exact h
    · split at h
      · cases h
      next op value hop =>
        have hop : ¬ (op = .neq ∧ (!true) = true) := fun hneq => hop ⟨hneq.1, rfl⟩
        rw [if_neg hop]
        exact h
    · cases h
  condition_isAnchor := by
    intro expr h
    unfold isPositiveFeedbackKeyCondition at h
    split at h
    next op value =>
      rw [feedbackRowCondition, if_neg (of_decide_eq_true h)]
      exact ⟨_, rfl⟩
    · cases h

namespace RowGroup

/-- Some expression is an anchor. -/
def anchored (group : RowGroup γ) (exprs : List FilterExpr) : Bool :=
  exprs.any group.isAnchor

/-- The conditions that the children of an `and()` put on one row. -/
def conditions (group : RowGroup γ) (exprs : List FilterExpr) : List γ :=
  exprs.filterMap (group.condition (group.anchored exprs))

/-- The anchor flag of the conjunction of the scalar parts. -/
def partsAnchored (group : RowGroup γ) (children : List FilterExpr) : Bool :=
  group.anchored (children.filterMap FilterExpr.scalarPart)

/-- The condition of the scalar part of a child in the conjunction of the scalar parts. -/
def partCondition (group : RowGroup γ) (children : List FilterExpr) (child : FilterExpr) :
    Option γ :=
  child.scalarPart.bind (group.condition (group.partsAnchored children))

/-- The children that share the row of the scalar parts. -/
def members (group : RowGroup γ) (children : List FilterExpr) : List FilterExpr :=
  children.filter fun child => (group.partCondition children child).isSome

/-- A child that is an `and()` itself shares no row condition with another child. -/
def keeps (group : RowGroup γ) (children : List FilterExpr) : Bool :=
  (group.members children).length ≤ 1 || (group.members children).all fun child => !child.isAnd

end RowGroup

mutual

/-- Some `and()` or `or()` has no children. -/
def FilterExpr.hasEmpty : FilterExpr → Bool
  | .and children | .or children => children.isEmpty || FilterExpr.anyHasEmpty children
  | _ => false

def FilterExpr.anyHasEmpty : List FilterExpr → Bool
  | [] => false
  | child :: children => child.hasEmpty || FilterExpr.anyHasEmpty children

end

mutual

/-- No `and()` inside an `and()` shrinks to an atom that shares a row condition with another child
of the outer one, and nothing inside an `or()` of search atoms is without children. -/
def FilterExpr.keepsGroups (formats : FilterFormats) : FilterExpr → Bool
  | .and children => (metadataGroup formats).keeps children && (feedbackGroup formats).keeps children
      && FilterExpr.allKeepGroups formats children
  | .or children => !anyContainsPhase6Atom children ||
      (!FilterExpr.anyHasEmpty children && FilterExpr.allKeepGroups formats children)
  | _ => true

def FilterExpr.allKeepGroups (formats : FilterFormats) : List FilterExpr → Bool
  | [] => true
  | child :: children => child.keepsGroups formats && FilterExpr.allKeepGroups formats children

end

/-- What filters are evaluated with. -/
structure FilterContext where
  formats : FilterFormats
  rules : TextRules
  projects : List String

/-- All the conditions hold of one row, if there are any. -/
def FilterRun.meetsMetadata (ctx : FilterContext) (run : FilterRun)
    (conditions : List (Predicate (Comparison MetadataColumn))) : Bool :=
  conditions.isEmpty || run.hasMetadata ctx.rules ctx.projects conditions

def FilterRun.meetsFeedback (ctx : FilterContext) (run : FilterRun)
    (conditions : List (Comparison FeedbackColumn)) : Bool :=
  conditions.isEmpty || run.hasFeedback ctx.rules ctx.projects conditions

/-- What an atom means: its search predicate, or its SQL. -/
def FilterExpr.atomMeans (ctx : FilterContext) (run : FilterRun) (row : SearchRow)
    (expr : FilterExpr) : Bool :=
  if isPhase6Atom expr then
    match phase6AtomPredicate ctx.formats expr with
    | .ok (some predicate) => predicate.holds row
    | _ => false
  else
    match compileExpr ctx.formats ctx.projects expr with
    | .ok sql => run.satisfies ctx.rules sql
    | .error _ => false

mutual

/-- What a filter means of a run and its indexed row. The metadata conditions among the children
of an `and()` hold of one row, and so do the feedback conditions. -/
def FilterExpr.means (ctx : FilterContext) (run : FilterRun) (row : SearchRow) : FilterExpr → Bool
  | .and children =>
    run.meetsMetadata ctx ((metadataGroup ctx.formats).conditions children) &&
      run.meetsFeedback ctx ((feedbackGroup ctx.formats).conditions children) &&
      FilterExpr.restMeans ctx run row ((metadataGroup ctx.formats).anchored children)
        ((feedbackGroup ctx.formats).anchored children) children
  | .or children => FilterExpr.anyMeans ctx run row children
  | expr => expr.atomMeans ctx run row

def FilterExpr.anyMeans (ctx : FilterContext) (run : FilterRun) (row : SearchRow) :
    List FilterExpr → Bool
  | [] => false
  | child :: children => child.means ctx run row || FilterExpr.anyMeans ctx run row children

/-- The children of an `and()` that put no condition on the shared rows all hold. -/
def FilterExpr.restMeans (ctx : FilterContext) (run : FilterRun) (row : SearchRow)
    (metadataAnchored feedbackAnchored : Bool) : List FilterExpr → Bool
  | [] => true
  | child :: children =>
    (((metadataGroup ctx.formats).condition metadataAnchored child).isSome ||
        ((feedbackGroup ctx.formats).condition feedbackAnchored child).isSome ||
        child.means ctx run row) &&
      FilterExpr.restMeans ctx run row metadataAnchored feedbackAnchored children

end

variable {ctx : FilterContext} {run : FilterRun} {row : SearchRow} {expr : FilterExpr}

theorem FilterExpr.means_atom (h : expr.isAtom) :
    expr.means ctx run row = expr.atomMeans ctx run row := by
  cases expr with
  | and children => cases h
  | or children => cases h
  | _ => rw [FilterExpr.means] <;> exact fun _ => nofun

theorem FilterExpr.means_or (children : List FilterExpr) :
    (FilterExpr.or children).means ctx run row ↔ ∃ child ∈ children, child.means ctx run row := by
  rw [FilterExpr.means]
  induction children with
  | nil => simp [FilterExpr.anyMeans]
  | cons child children ih =>
    rw [FilterExpr.anyMeans, Bool.or_eq_true, ih, List.exists_mem_cons_iff]

theorem FilterExpr.restMeans_iff (metadataAnchored feedbackAnchored : Bool)
    (children : List FilterExpr) :
    FilterExpr.restMeans ctx run row metadataAnchored feedbackAnchored children ↔
      ∀ child ∈ children, (metadataGroup ctx.formats).condition metadataAnchored child = none →
        (feedbackGroup ctx.formats).condition feedbackAnchored child = none →
          child.means ctx run row := by
  induction children with
  | nil => simp [FilterExpr.restMeans]
  | cons child children ih =>
    rw [FilterExpr.restMeans, Bool.and_eq_true, ih, List.forall_mem_cons, Bool.or_eq_true,
      Bool.or_eq_true, Option.isSome_iff_ne_none, Option.isSome_iff_ne_none, or_assoc,
      ← imp_iff_not_or, ← imp_iff_not_or]

theorem FilterExpr.means_and (children : List FilterExpr) :
    (FilterExpr.and children).means ctx run row ↔
      run.meetsMetadata ctx ((metadataGroup ctx.formats).conditions children) ∧
      run.meetsFeedback ctx ((feedbackGroup ctx.formats).conditions children) ∧
      ∀ child ∈ children,
        (metadataGroup ctx.formats).condition ((metadataGroup ctx.formats).anchored children) child =
          none →
        (feedbackGroup ctx.formats).condition ((feedbackGroup ctx.formats).anchored children) child =
          none → child.means ctx run row := by
  rw [FilterExpr.means, Bool.and_eq_true, Bool.and_eq_true, FilterExpr.restMeans_iff, and_assoc]

theorem scalarPart_atom (h : expr.isAtom) :
    expr.scalarPart = if isPhase6Atom expr then none else some expr := by
  cases expr with
  | and children => cases h
  | or children => cases h
  | _ => rfl

theorem scalarPart_or (h : (FilterExpr.or children).scalarPart = some part) :
    part = .or children := by
  rw [FilterExpr.scalarPart, scalarPrefilterExpr] at h
  split at h
  · split at h
    · cases h
    · cases h
  · exact (Option.some.inj h).symm

/-- The scalar part of anything but an `and()` is the expression itself. -/
theorem scalarPart_eq (hand : expr.isAnd = false) (h : expr.scalarPart = some part) :
    part = expr := by
  cases expr with
  | and children => cases hand
  | or children => exact scalarPart_or h
  | _ =>
    rw [scalarPart_atom rfl] at h
    split at h
    · cases h
    · exact (Option.some.inj h).symm

namespace RowGroup

variable {group : RowGroup γ} {children : List FilterExpr} {child part : FilterExpr}

theorem scalarPart_of_condition {c : γ} (h : group.condition flag child = some c) :
    child.scalarPart = some child ∧ child.isAnd = false := by
  obtain ⟨hatom, hscalar⟩ := group.condition_isAtom flag child c h
  rw [Bool.not_eq_true'] at hscalar
  refine ⟨?_, ?_⟩
  · rw [scalarPart_atom hatom, hscalar]
    rfl
  · cases child with
    | and children => cases hatom
    | _ => rfl

/-- A condition that is there without an anchor does not depend on one. -/
theorem condition_eq_of_some {c : γ} (h : group.condition false child = some c) (flag : Bool) :
    group.condition flag child = some c := by
  cases flag with
  | false => exact h
  | true => exact group.condition_anchored child c h

theorem anchored_iff : group.anchored children ↔ ∃ child ∈ children, group.isAnchor child :=
  List.any_eq_true

theorem mem_members : child ∈ group.members children ↔
    child ∈ children ∧ ∃ c, group.partCondition children child = some c := by
  rw [members, List.mem_filter, Option.isSome_iff_exists]

theorem conditions_parts : group.conditions (children.filterMap FilterExpr.scalarPart) =
    children.filterMap (group.partCondition children) := by
  rw [conditions, List.filterMap_filterMap]
  rfl

theorem conditions_parts_eq : group.conditions (children.filterMap FilterExpr.scalarPart) =
    (group.members children).filterMap (group.partCondition children) := by
  rw [conditions_parts, members, List.filterMap_filter]
  apply List.filterMap_congr
  intro child _
  cases group.partCondition children child with
  | none => rfl
  | some c => rfl

theorem partsAnchored_of_anchored (h : group.anchored children) : group.partsAnchored children := by
  obtain ⟨other, hother, hanchor⟩ := anchored_iff.1 h
  obtain ⟨c, hc⟩ := group.condition_isAnchor other hanchor
  exact anchored_iff.2 ⟨other,
    List.mem_filterMap.2 ⟨other, hother, (scalarPart_of_condition hc).1⟩, hanchor⟩

/-- An anchor among the scalar parts is that of a member. -/
theorem exists_member_of_partsAnchored (h : group.partsAnchored children) :
    ∃ child ∈ group.members children, ∃ part, child.scalarPart = some part ∧
      group.isAnchor part := by
  obtain ⟨part, hpart, hanchor⟩ := anchored_iff.1 h
  obtain ⟨child, hchild, hpart⟩ := List.mem_filterMap.1 hpart
  obtain ⟨c, hc⟩ := group.condition_isAnchor part hanchor
  refine ⟨child, mem_members.2 ⟨hchild, c, ?_⟩, part, hpart, hanchor⟩
  rw [partCondition, hpart]
  exact condition_eq_of_some hc _

/-- A child with a condition of its own has the same one in the conjunction of the parts. -/
theorem partCondition_of_condition {c : γ}
    (h : group.condition (group.anchored children) child = some c) :
    group.partCondition children child = some c := by
  rw [partCondition, (scalarPart_of_condition h).1, Option.bind_some]
  cases hflag : group.anchored children with
  | true =>
    rw [hflag] at h
    rw [partsAnchored_of_anchored hflag]
    exact h
  | false =>
    rw [hflag] at h
    exact condition_eq_of_some h _

/-- Without an `and()` among the members the conditions are the same. -/
theorem condition_eq_partCondition (h : ∀ child ∈ group.members children, child.isAnd = false)
    (hchild : child ∈ children) :
    group.partCondition children child =
      group.condition (group.anchored children) child := by
  cases hpart : group.partCondition children child with
  | none =>
    cases hcondition : group.condition (group.anchored children) child with
    | none => rfl
    | some c =>
      rw [partCondition_of_condition hcondition] at hpart
      cases hpart
  | some c =>
    have hand := h child (mem_members.2 ⟨hchild, c, hpart⟩)
    obtain ⟨part, hscalar, hc⟩ := Option.bind_eq_some_iff.1 hpart
    rw [scalarPart_eq hand hscalar] at hc
    cases hflag : group.partsAnchored children with
    | false =>
      have hanchored : group.anchored children = false := by
        rw [← Bool.not_eq_true]
        intro hanchored
        rw [partsAnchored_of_anchored hanchored] at hflag
        cases hflag
      rw [hflag] at hc
      rw [hanchored, hc]
    | true =>
      obtain ⟨other, hother, part', hpart', hanchor⟩ := exists_member_of_partsAnchored hflag
      have heq := scalarPart_eq (h other hother) hpart'
      subst heq
      have hanchored : group.anchored children :=
        anchored_iff.2 ⟨part', (mem_members.1 hother).1, hanchor⟩
      rw [hflag] at hc
      rw [hanchored, hc]

/-- Regrouping keeps what the conditions mean, provided that one condition means what its atom
means alone. -/
theorem regroup (group : RowGroup γ) {children : List FilterExpr} (means : FilterExpr → Prop)
    (holds : List γ → Prop) (hnil : holds [])
    (hone : ∀ expr c, group.condition false expr = some c → (means expr ↔ holds [c]))
    (h : group.keeps children) :
    (holds (group.conditions (children.filterMap FilterExpr.scalarPart)) ↔
      holds (group.conditions children) ∧
        ∀ child ∈ group.members children, child.isAnd → ∀ part, child.scalarPart = some part →
          means part) ∧
      ∀ child ∈ children, child.isAnd = false →
        group.partCondition children child =
          group.condition (group.anchored children) child := by
  rw [keeps, Bool.or_eq_true, decide_eq_true_iff, List.all_eq_true] at h
  by_cases hall : ∀ child ∈ group.members children, child.isAnd = false
  · have hsame : ∀ child ∈ children, group.partCondition children child =
        group.condition (group.anchored children) child :=
      fun _ hchild => condition_eq_partCondition hall hchild
    refine ⟨?_, fun child hchild _ => hsame child hchild⟩
    rw [conditions_parts, conditions, List.filterMap_congr hsame]
    constructor
    · intro hholds
      refine ⟨hholds, fun child hchild hand => ?_⟩
      rw [hall child hchild] at hand
      cases hand
    · exact fun hholds => hholds.1
  · -- The only member is an `and()`, which has the row to itself.
    have hlength := h.resolve_right fun hnot => hall fun child hchild => by
      simpa using hnot child hchild
    push Not at hall
    obtain ⟨only, honly, hand⟩ := hall
    have hmembers : group.members children = [only] := by
      obtain ⟨first, hfirst⟩ := List.length_eq_one_iff.1
        (le_antisymm hlength (List.length_pos_of_mem honly))
      rw [hfirst, List.mem_singleton] at honly
      rw [hfirst, honly]
    have hnone : ∀ child ∈ children, group.condition (group.anchored children) child = none := by
      intro child hchild
      cases hc : group.condition (group.anchored children) child with
      | none => rfl
      | some c =>
        have hmem := mem_members.2 ⟨hchild, c, partCondition_of_condition hc⟩
        rw [hmembers, List.mem_singleton] at hmem
        rw [← hmem, (scalarPart_of_condition hc).2] at hand
        exact absurd rfl hand
    obtain ⟨c, hc⟩ := (mem_members.1 honly).2
    obtain ⟨part, hpart, hcondition⟩ := Option.bind_eq_some_iff.1 hc
    have hfalse : group.condition false part = some c := by
      cases hflag : group.partsAnchored children with
      | false => rwa [hflag] at hcondition
      | true =>
        obtain ⟨other, hother, part', hpart', hanchor⟩ := exists_member_of_partsAnchored hflag
        rw [hmembers, List.mem_singleton] at hother
        rw [hother, hpart] at hpart'
        cases hpart'
        obtain ⟨d, hd⟩ := group.condition_isAnchor part hanchor
        rw [condition_eq_of_some hd] at hcondition
        rw [hd, hcondition]
    refine ⟨?_, ?_⟩
    · rw [conditions_parts_eq, conditions, hmembers, List.filterMap_eq_nil_iff.2 hnone,
        List.filterMap_cons_some hc, List.filterMap_nil, ← hone part c hfalse]
      constructor
      · rintro hmeans
        refine ⟨hnil, fun child hchild _ part' hpart' => ?_⟩
        rw [List.mem_singleton.1 hchild, hpart] at hpart'
        cases hpart'
        exact hmeans
      · rintro ⟨-, hmeans⟩
        exact hmeans only (List.mem_singleton_self only) (by simpa using hand) part hpart
    · intro child hchild hdirect
      rw [hnone child hchild]
      cases hc' : group.partCondition children child with
      | none => rfl
      | some d =>
        have hmem := mem_members.2 ⟨hchild, d, hc'⟩
        rw [hmembers, List.mem_singleton] at hmem
        rw [← hmem, hdirect] at hand
        exact absurd rfl hand

end RowGroup

theorem FilterRun.satisfies_metadataExists {conditions : List (Predicate (Comparison MetadataColumn))} :
    run.satisfies ctx.rules (metadataExistsSql ctx.projects conditions) ↔
      run.hasMetadata ctx.rules ctx.projects conditions := by
  rw [FilterRun.satisfies, metadataExistsSql, Predicate.holds_atom, HeadCondition.truth,
    Option.some.injEq]

theorem FilterRun.satisfies_feedbackExists {conditions : List (Comparison FeedbackColumn)} :
    run.satisfies ctx.rules (feedbackExistsSql ctx.projects conditions) ↔
      run.hasFeedback ctx.rules ctx.projects conditions := by
  rw [FilterRun.satisfies, feedbackExistsSql, Predicate.holds_atom, HeadCondition.truth,
    Option.some.injEq]

/-- Being in a list of texts is being equal to one of them. -/
theorem MetadataRow.meets_isIn (rules : TextRules) (row : MetadataRow) (texts : List Value)
    (htexts : ∀ text ∈ texts, text ≠ .null) :
    row.meets rules (.or (texts.map fun text => .atom (.compare .eq .key text))) =
      row.meets rules (.atom (.isIn .key texts)) := by
  have hkey : row.column .key ≠ .null := nofun
  rw [Bool.eq_iff_iff, MetadataRow.meets, MetadataRow.meets, Predicate.holds_or,
    Predicate.holds_atom, Comparison.isIn_eq_true hkey]
  simp only [List.mem_map, exists_exists_and_eq_and, Predicate.holds_atom, Comparison.truth]
  constructor
  · rintro ⟨text, htext, heq⟩
    rw [(Operator.apply_eq_true hkey (htexts text htext)).1 heq]
    exact htext
  · intro hmem
    exact ⟨_, hmem, (Operator.apply_eq_true hkey hkey).2 rfl⟩

theorem FilterExpr.atomMeans_of_compile (hscalar : isPhase6Atom expr = false)
    (h : compileExpr ctx.formats ctx.projects expr = .ok sql) :
    expr.atomMeans ctx run row = run.satisfies ctx.rules sql := by
  rw [FilterExpr.atomMeans, hscalar, h]
  rfl

/-- A metadata condition alone means what its atom means. -/
theorem metadata_alone {c : Predicate (Comparison MetadataColumn)}
    (h : (metadataGroup ctx.formats).condition false expr = some c) :
    expr.means ctx run row ↔ run.meetsMetadata ctx [c] := by
  have hmeets : run.meetsMetadata ctx [c] = run.hasMetadata ctx.rules ctx.projects [c] := rfl
  obtain ⟨hatom, hscalar⟩ := (metadataGroup ctx.formats).condition_isAtom false expr c h
  rw [Bool.not_eq_true'] at hscalar
  rw [FilterExpr.means_atom hatom, hmeets]
  replace h : metadataRowCondition ctx.formats false expr = some c := h
  unfold metadataRowCondition at h
  split at h
  next op value =>
    simp only [Option.ite_none_left_eq_some, Option.some.injEq] at h
    obtain ⟨hop, rfl⟩ := h
    rw [FilterExpr.atomMeans_of_compile hscalar rfl, compileMetadataAtom, if_neg hop,
      FilterRun.satisfies_metadataExists]
  next op value =>
    simp only [Bool.not_false, and_true, Option.ite_none_left_eq_some, Option.some.injEq] at h
    obtain ⟨hop, rfl⟩ := h
    rw [FilterExpr.atomMeans_of_compile hscalar rfl, compileMetadataAtom, if_neg hop,
      FilterRun.satisfies_metadataExists]
  next values =>
    cases h
    by_cases hvalues : values = []
    · subst hvalues
      have hnone : ∀ row : MetadataRow,
          row.meets ctx.rules (.atom (.isIn .key [])) = false := fun _ => rfl
      simp [FilterExpr.atomMeans, hscalar, compileExpr, compileIn, FilterRun.hasMetadata, hnone]
    · have hcompile : compileExpr ctx.formats ctx.projects (.isIn .metadataKey values) =
          .ok (metadataExistsSql ctx.projects [.or ((values.map fun value =>
            Value.text (value.asString ctx.formats)).map fun text =>
              .atom (.compare .eq .key text))]) := by
        rw [compileExpr, compileIn, if_neg hvalues]
      rw [FilterExpr.atomMeans_of_compile hscalar hcompile, FilterRun.satisfies_metadataExists,
        FilterRun.hasMetadata, FilterRun.hasMetadata]
      simp only [List.all_cons, List.all_nil, Bool.and_true]
      refine iff_of_eq (congrArg (fun p => run.metadata.any p = true) ?_)
      funext row
      rw [MetadataRow.meets_isIn]
      intro text htext
      obtain ⟨value, -, rfl⟩ := List.mem_map.1 htext
      nofun
  next => cases h

/-- A feedback condition alone means what its atom means. -/
theorem feedback_alone {c : Comparison FeedbackColumn}
    (h : (feedbackGroup ctx.formats).condition false expr = some c) :
    expr.means ctx run row ↔ run.meetsFeedback ctx [c] := by
  have hmeets : run.meetsFeedback ctx [c] = run.hasFeedback ctx.rules ctx.projects [c] := rfl
  obtain ⟨hatom, hscalar⟩ := (feedbackGroup ctx.formats).condition_isAtom false expr c h
  rw [Bool.not_eq_true'] at hscalar
  rw [FilterExpr.means_atom hatom, hmeets]
  have hcompile : ∃ op field value, expr = .compare op field value ∧ op ≠ .neq ∧
      feedbackCompareCondition ctx.formats op field value = .ok c ∧
      compileExpr ctx.formats ctx.projects expr =
        compileFeedbackAtom ctx.formats ctx.projects op field value := by
    have hjoin : ∀ result : Except FilterError (Comparison FeedbackColumn),
        (result.map some).toOption.join = some c → result = .ok c := by
      intro result hresult
      cases result with
      | error e => cases hresult
      | ok d => exact congrArg Except.ok (Option.some.inj hresult)
    replace h : (feedbackRowCondition ctx.formats false expr).toOption.join = some c := h
    unfold feedbackRowCondition at h
    split at h
    next op value =>
      split at h
      · cases h
      next hop => exact ⟨op, _, value, rfl, hop, hjoin _ h, rfl⟩
    next op value =>
      split at h
      · cases h
      next hop => exact ⟨op, _, value, rfl, fun heq => hop ⟨heq, rfl⟩, hjoin _ h, rfl⟩
    next op value =>
      split at h
      · cases h
      next hop => exact ⟨op, _, value, rfl, fun heq => hop ⟨heq, rfl⟩, hjoin _ h, rfl⟩
    next => cases h
  obtain ⟨op, field, value, rfl, hop, hc, hcompile⟩ := hcompile
  rw [compileFeedbackAtom, if_neg hop, hc] at hcompile
  rw [FilterExpr.atomMeans_of_compile hscalar hcompile]
  exact FilterRun.satisfies_feedbackExists

theorem compileChildren_forall₂ {children : List FilterExpr} {sqls : List HeadPredicate}
    (h : compileChildren formats projects children = .ok sqls) :
    List.Forall₂ (fun child sql => compileExpr formats projects child = .ok sql) children sqls := by
  induction children generalizing sqls with
  | nil =>
    cases h
    exact .nil
  | cons child children ih =>
    rw [compileChildren] at h
    obtain ⟨sql, hsql, h⟩ := bind_eq_ok h
    obtain ⟨rest, hrest, h⟩ := bind_eq_ok h
    cases h
    exact .cons hsql (ih hrest)

/-- The loop of `compile_and` sorts the children into the two shared rows and the rest. -/
theorem compileAndChildren_spec {formats : FilterFormats} {metadataAnchored feedbackAnchored : Bool}
    {children : List FilterExpr} {compiled : CompiledAnd}
    (h : compileAndChildren formats projects metadataAnchored feedbackAnchored children =
      .ok compiled) :
    compiled.metadataConditions =
        children.filterMap ((metadataGroup formats).condition metadataAnchored) ∧
      compiled.feedbackConditions = (children.filter fun child =>
        ((metadataGroup formats).condition metadataAnchored child).isNone).filterMap
          ((feedbackGroup formats).condition feedbackAnchored) ∧
      List.Forall₂ (fun child sql => compileExpr formats projects child = .ok sql)
        (children.filter fun child =>
          ((metadataGroup formats).condition metadataAnchored child).isNone &&
          ((feedbackGroup formats).condition feedbackAnchored child).isNone)
        compiled.predicates := by
  induction children generalizing compiled with
  | nil =>
    cases h
    exact ⟨rfl, rfl, .nil⟩
  | cons child children ih =>
    rw [compileAndChildren] at h
    cases hmetadata : metadataRowCondition formats metadataAnchored child with
    | some c =>
      have hcondition : (metadataGroup formats).condition metadataAnchored child = some c :=
        hmetadata
      rw [hmetadata] at h
      obtain ⟨rest, hrest, h⟩ := bind_eq_ok h
      cases h
      obtain ⟨hm, hf, hp⟩ := ih hrest
      simp only [List.filterMap_cons, List.filter_cons, hcondition, Option.isNone_some,
        Bool.false_and, Bool.false_eq_true, if_false]
      exact ⟨congrArg _ hm, hf, hp⟩
    | none =>
      have hcondition : (metadataGroup formats).condition metadataAnchored child = none :=
        hmetadata
      rw [hmetadata] at h
      obtain ⟨feedback, hfeedback, h⟩ := bind_eq_ok h
      have hjoin : (feedbackGroup formats).condition feedbackAnchored child = feedback := by
        change (feedbackRowCondition formats feedbackAnchored child).toOption.join = feedback
        rw [hfeedback]
        rfl
      cases feedback with
      | some c =>
        obtain ⟨rest, hrest, h⟩ := bind_eq_ok h
        cases h
        obtain ⟨hm, hf, hp⟩ := ih hrest
        simp only [List.filterMap_cons, List.filter_cons, hcondition, Option.isNone_none,
          Bool.true_and, if_true, hjoin, Option.isNone_some, Bool.false_eq_true, if_false]
        exact ⟨hm, congrArg _ hf, hp⟩
      | none =>
        obtain ⟨sql, hsql, h⟩ := bind_eq_ok h
        obtain ⟨rest, hrest, h⟩ := bind_eq_ok h
        cases h
        obtain ⟨hm, hf, hp⟩ := ih hrest
        simp only [List.filterMap_cons, List.filter_cons, hcondition, Option.isNone_none,
          Bool.true_and, if_true, hjoin]
        exact ⟨hm, hf, .cons hsql hp⟩

theorem compileIn_payload {field : FilterField} (h : field.isPayload) (sql : HeadPredicate) :
    compileIn formats projects field values ≠ .ok sql := by
  unfold compileIn
  split
  · nofun
  · cases field with
    | inputs | outputs | extra | attributesJson => nofun
    | _ => cases h

theorem compileExpr_phase6 (h : isPhase6Atom expr) (sql : HeadPredicate) :
    compileExpr formats projects expr ≠ .ok sql := by
  cases expr with
  | and children => cases h
  | or children => cases h
  | search field query => nofun
  | jsonKey field pattern => nofun
  | jsonKeySearch field path query => nofun
  | compare op field value =>
    cases field with
    | inputs | outputs | extra | attributesJson => nofun
    | _ => cases h
  | has field value =>
    cases field with
    | inputs | outputs | extra | attributesJson => nofun
    | _ => cases h
  | contains field value negated =>
    cases field with
    | inputs | outputs | extra | attributesJson => nofun
    | _ => cases h
  | isIn field values => exact compileIn_payload h sql

/-- No atom puts a condition on both shared rows. -/
theorem feedback_of_metadata {formats : FilterFormats}
    (h : (feedbackGroup formats).condition feedbackAnchored expr = some c) :
    (metadataGroup formats).condition metadataAnchored expr = none := by
  replace h : (feedbackRowCondition formats feedbackAnchored expr).toOption.join = some c := h
  unfold feedbackRowCondition at h
  split at h
  · rfl
  · rfl
  · rfl
  · cases h

theorem CompiledAnd.satisfies_sql (compiled : CompiledAnd) :
    run.satisfies ctx.rules (compiled.sql ctx.projects) ↔
      run.meetsMetadata ctx compiled.metadataConditions ∧
      run.meetsFeedback ctx compiled.feedbackConditions ∧
      ∀ sql ∈ compiled.predicates, run.satisfies ctx.rules sql := by
  have hmetadata : (∀ sql ∈ (if compiled.metadataConditions = [] then []
      else [metadataExistsSql ctx.projects compiled.metadataConditions]),
        run.satisfies ctx.rules sql) ↔ run.meetsMetadata ctx compiled.metadataConditions := by
    rw [FilterRun.meetsMetadata, Bool.or_eq_true, List.isEmpty_iff]
    split
    next hnil => simp [hnil]
    next hne => simp [hne, FilterRun.satisfies_metadataExists]
  have hfeedback : (∀ sql ∈ (if compiled.feedbackConditions = [] then []
      else [feedbackExistsSql ctx.projects compiled.feedbackConditions]),
        run.satisfies ctx.rules sql) ↔ run.meetsFeedback ctx compiled.feedbackConditions := by
    rw [FilterRun.meetsFeedback, Bool.or_eq_true, List.isEmpty_iff]
    split
    next hnil => simp [hnil]
    next hne => simp [hne, FilterRun.satisfies_feedbackExists]
  rw [← hmetadata, ← hfeedback, FilterRun.satisfies, CompiledAnd.sql, Predicate.holds_and]
  simp only [List.forall_mem_append]
  constructor
  · rintro ⟨⟨hp, hm⟩, hf⟩
    exact ⟨hm, hf, hp⟩
  · rintro ⟨hm, hf, hp⟩
    exact ⟨⟨hp, hm⟩, hf⟩

theorem forall_satisfies {children : List FilterExpr} {sqls : List HeadPredicate}
    (hcompile : List.Forall₂ (fun child sql => compileExpr ctx.formats ctx.projects child = .ok sql)
      children sqls)
    (ih : ∀ child ∈ children, ∀ sql, compileExpr ctx.formats ctx.projects child = .ok sql →
      (run.satisfies ctx.rules sql ↔ child.means ctx run row)) :
    ((∀ sql ∈ sqls, run.satisfies ctx.rules sql) ↔
        ∀ child ∈ children, child.means ctx run row) ∧
      ((∃ sql ∈ sqls, run.satisfies ctx.rules sql) ↔
        ∃ child ∈ children, child.means ctx run row) := by
  induction hcompile with
  | nil => simp
  | cons hfirst hrest ihrest =>
    have hsame := ih _ List.mem_cons_self _ hfirst
    obtain ⟨hall, hany⟩ := ihrest fun child hchild => ih child (List.mem_cons_of_mem _ hchild)
    simp only [List.forall_mem_cons, List.exists_mem_cons_iff, hsame, hall, hany, and_self]

/-- The SQL of a filter holds of a run exactly if the filter does. -/
theorem compileExpr_sound (expr : FilterExpr) (sql : HeadPredicate)
    (h : compileExpr ctx.formats ctx.projects expr = .ok sql) :
    run.satisfies ctx.rules sql ↔ expr.means ctx run row := by
  induction expr using FilterExpr.induction generalizing sql with
  | hatom expr hatom =>
    have hscalar : isPhase6Atom expr = false := by
      rw [← Bool.not_eq_true]
      exact fun hphase6 => compileExpr_phase6 hphase6 sql h
    rw [FilterExpr.means_atom hatom, FilterExpr.atomMeans_of_compile hscalar h]
  | hand children ih =>
    rw [compileExpr] at h
    split at h
    · cases h
    · obtain ⟨compiled, hcompiled, h⟩ := bind_eq_ok h
      cases h
      obtain ⟨hmetadata, hfeedback, hrest⟩ := compileAndChildren_spec hcompiled
      have hfeedback : compiled.feedbackConditions =
          (feedbackGroup ctx.formats).conditions children := by
        rw [hfeedback, List.filterMap_filter, RowGroup.conditions]
        apply List.filterMap_congr
        intro child _
        rw [show children.any isPositiveFeedbackKeyCondition =
          (feedbackGroup ctx.formats).anchored children from rfl]
        cases hc : (feedbackGroup ctx.formats).condition
            ((feedbackGroup ctx.formats).anchored children) child with
        | none => exact ite_self none
        | some c =>
          rw [feedback_of_metadata hc]
          rfl
      rw [CompiledAnd.satisfies_sql, FilterExpr.means_and, hmetadata, hfeedback,
        (forall_satisfies hrest fun child hchild => ih child (List.mem_of_mem_filter hchild)).1]
      refine and_congr Iff.rfl (and_congr Iff.rfl ?_)
      simp only [List.mem_filter, Bool.and_eq_true, Option.isNone_iff_eq_none, and_imp]
      rfl
  | hor children ih =>
    rw [compileExpr] at h
    split at h
    · cases h
    · obtain ⟨sqls, hsqls, h⟩ := bind_eq_ok h
      cases h
      rw [FilterRun.satisfies, Predicate.holds_or, FilterExpr.means_or]
      exact (forall_satisfies (compileChildren_forall₂ hsqls) ih).2

end KevinDb
