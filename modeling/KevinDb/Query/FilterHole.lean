import KevinDb.Query.FilterSplit

namespace KevinDb
set_option autoImplicit true
open Sql

/-- A filter with a hole under its `and()` and `or()`. -/
inductive FilterHole where
  | here
  | and (before : List FilterExpr) (inner : FilterHole) (after : List FilterExpr)
  | or (before : List FilterExpr) (inner : FilterHole) (after : List FilterExpr)

def FilterHole.fill (expr : FilterExpr) : FilterHole → FilterExpr
  | .here => expr
  | .and before inner after => .and (before ++ inner.fill expr :: after)
  | .or before inner after => .or (before ++ inner.fill expr :: after)

variable {ctx : FilterContext} {run : FilterRun} {row : SearchRow} {field : FilterField}
  {value : FilterValue} {expr left right child : FilterExpr} {before after children : List FilterExpr}
  {formats : FilterFormats} {projects : List String}

/-- Whether an expression compiles, and why not. -/
def FilterExpr.check (formats : FilterFormats) (projects : List String) (expr : FilterExpr) :
    Except FilterError Unit :=
  (compileExpr formats projects expr).map fun _ => ()

/-- Whether `compile_and` gets past a child. -/
def FilterExpr.checkChild (formats : FilterFormats) (projects : List String)
    (metadataAnchored feedbackAnchored : Bool) (child : FilterExpr) : Except FilterError Unit :=
  match metadataRowCondition formats metadataAnchored child with
  | some _ => .ok ()
  | none => (feedbackRowCondition formats feedbackAnchored child).bind fun condition =>
      match condition with
      | some _ => .ok ()
      | none => child.check formats projects

theorem compileChildren_check (children : List FilterExpr) :
    (compileChildren formats projects children).map (fun _ => ()) =
      children.foldr (fun child rest => (child.check formats projects).bind fun _ => rest)
        (.ok ()) := by
  induction children with
  | nil => rfl
  | cons child children ih =>
    rw [compileChildren, List.foldr_cons, ← ih]
    refine map_bind_unit _ _ _ fun predicate => ?_
    cases compileChildren formats projects children <;> rfl

theorem compileAndChildren_check (metadataAnchored feedbackAnchored : Bool)
    (children : List FilterExpr) :
    (compileAndChildren formats projects metadataAnchored feedbackAnchored children).map
        (fun _ => ()) =
      children.foldr (fun child rest =>
        (child.checkChild formats projects metadataAnchored feedbackAnchored).bind fun _ => rest)
        (.ok ()) := by
  induction children with
  | nil => rfl
  | cons child children ih =>
    rw [compileAndChildren, List.foldr_cons, ← ih, FilterExpr.checkChild]
    have hrest : ∀ f : CompiledAnd → CompiledAnd,
        (((compileAndChildren formats projects metadataAnchored feedbackAnchored children).bind
          fun rest => .ok (f rest)).map fun _ => ()) =
        (compileAndChildren formats projects metadataAnchored feedbackAnchored children).map
          fun _ => () := by
      intro f
      cases compileAndChildren formats projects metadataAnchored feedbackAnchored children <;> rfl
    cases metadataRowCondition formats metadataAnchored child with
    | some condition => exact hrest _
    | none =>
      cases feedbackRowCondition formats feedbackAnchored child with
      | error e => rfl
      | ok condition =>
        cases condition with
        | some condition => exact hrest _
        | none =>
          refine map_bind_unit (compileExpr formats projects child) _ _ fun predicate => ?_
          exact hrest _

/-- An expression takes the place of another one among the children of an `and()`: neither or both
are anchors, and `compile_and` gets past both or stops at both. -/
structure FilterExpr.Replaces (formats : FilterFormats) (projects : List String)
    (left right : FilterExpr) : Prop where
  metadataAnchor : isPositiveMetadataKeyCondition left = isPositiveMetadataKeyCondition right
  feedbackAnchor : isPositiveFeedbackKeyCondition left = isPositiveFeedbackKeyCondition right
  check : left.check formats projects = right.check formats projects
  checkChild (metadataAnchored feedbackAnchored : Bool) :
    left.checkChild formats projects metadataAnchored feedbackAnchored =
      right.checkChild formats projects metadataAnchored feedbackAnchored

theorem any_insert (p : FilterExpr → Bool) (h : p left = p right) :
    (before ++ left :: after).any p = (before ++ right :: after).any p := by
  rw [List.any_append, List.any_append, List.any_cons, List.any_cons, h]

theorem foldr_insert {f : FilterExpr → Except FilterError Unit → Except FilterError Unit}
    (h : f left = f right) (last : Except FilterError Unit) :
    (before ++ left :: after).foldr f last = (before ++ right :: after).foldr f last := by
  rw [List.foldr_append, List.foldr_append, List.foldr_cons, List.foldr_cons, h]

/-- A conjunction of which one child is replaced compiles or fails as before. -/
theorem check_and_insert (h : left.Replaces formats projects right) :
    (FilterExpr.and (before ++ left :: after)).check formats projects =
      (FilterExpr.and (before ++ right :: after)).check formats projects := by
  have hcheck : ∀ child : FilterExpr, (FilterExpr.and (before ++ child :: after)).check formats
      projects = (compileAndChildren formats projects
        ((before ++ child :: after).any isPositiveMetadataKeyCondition)
        ((before ++ child :: after).any isPositiveFeedbackKeyCondition)
        (before ++ child :: after)).map fun _ => () := by
    intro child
    rw [FilterExpr.check, compileExpr, if_neg (by simp)]
    cases compileAndChildren formats projects _ _ _ <;> rfl
  rw [hcheck, hcheck, compileAndChildren_check, compileAndChildren_check,
    any_insert _ h.metadataAnchor, any_insert _ h.feedbackAnchor]
  exact foldr_insert (by simp only [h.checkChild]) _

theorem check_or_insert (h : left.check formats projects = right.check formats projects) :
    (FilterExpr.or (before ++ left :: after)).check formats projects =
      (FilterExpr.or (before ++ right :: after)).check formats projects := by
  have hcheck : ∀ child : FilterExpr, (FilterExpr.or (before ++ child :: after)).check formats
      projects = (compileChildren formats projects (before ++ child :: after)).map fun _ => () := by
    intro child
    rw [FilterExpr.check, compileExpr, if_neg (by simp)]
    cases compileChildren formats projects _ <;> rfl
  rw [hcheck, hcheck, compileChildren_check, compileChildren_check]
  exact foldr_insert (by simp only [h]) _

/-- A conjunction or a disjunction is no condition on a shared row, and no anchor. -/
theorem FilterExpr.Replaces.of_check (hleft : left.isAtom = false) (hright : right.isAtom = false)
    (h : left.check formats projects = right.check formats projects) :
    left.Replaces formats projects right := by
  have hplain : ∀ expr : FilterExpr, expr.isAtom = false →
      isPositiveMetadataKeyCondition expr = false ∧ isPositiveFeedbackKeyCondition expr = false ∧
        ∀ metadataAnchored feedbackAnchored,
          expr.checkChild formats projects metadataAnchored feedbackAnchored =
            expr.check formats projects := by
    intro expr hexpr
    cases expr with
    | and children => exact ⟨rfl, rfl, fun _ _ => rfl⟩
    | or children => exact ⟨rfl, rfl, fun _ _ => rfl⟩
    | _ => cases hexpr
  obtain ⟨hmetadata, hfeedback, hchild⟩ := hplain left hleft
  obtain ⟨hmetadata', hfeedback', hchild'⟩ := hplain right hright
  refine ⟨hmetadata.trans hmetadata'.symm, hfeedback.trans hfeedback'.symm, h, fun m f => ?_⟩
  rw [hchild, hchild', h]

/-- What takes the place of a child takes the place of the hole. -/
theorem FilterHole.fill_replaces (h : left.Replaces formats projects right) (hole : FilterHole) :
    (hole.fill left).Replaces formats projects (hole.fill right) := by
  induction hole with
  | here => exact h
  | and before inner after ih => exact .of_check rfl rfl (check_and_insert ih)
  | or before inner after ih => exact .of_check rfl rfl (check_or_insert ih.check)

/-- An equality and a list of one value compile alike. -/
theorem replaces_single (h : compileIn formats projects field [value] = .ok sql) :
    (FilterExpr.compare .eq field value).Replaces formats projects (.isIn field [value]) := by
  cases field with
  | tags | metadataKey | metadataValue | id | name | runType | status | projectName | traceId
  | rootRunId | rootSpanId | modelName | providerName =>
    exact ⟨rfl, rfl, rfl, fun _ _ => rfl⟩
  | _ => cases h

/-- Alone, an equality and a list of one value select the same runs. -/
theorem satisfies_single {rules : TextRules} {eqSql inSql : HeadPredicate}
    (heq : compileCompare formats projects .eq field value = .ok eqSql)
    (hin : compileIn formats projects field [value] = .ok inSql) :
    run.satisfies rules eqSql = run.satisfies rules inSql := by
  have hmetadata : ∀ column, FilterRun.satisfies rules run (metadataExistsSql projects
      [.atom (.compare .eq column (.text (value.asString formats)))]) =
      FilterRun.satisfies rules run (metadataExistsSql projects
      [.or [.atom (.compare .eq column (.text (value.asString formats)))]]) := by
    intro column
    have hmeets : ∀ row : MetadataRow, row.meets rules
        (.or [.atom (.compare .eq column (.text (value.asString formats)))]) =
        row.meets rules (.atom (.compare .eq column (.text (value.asString formats)))) :=
      fun row => Predicate.holds_or_single _
    simp only [FilterRun.satisfies, metadataExistsSql, Predicate.holds, Predicate.truth,
      HeadCondition.truth, FilterRun.hasMetadata, List.all_cons, hmeets]
  cases field with
  | tags =>
    cases heq
    cases hin
    simp only [FilterRun.satisfies, tagExistsSql, Predicate.holds, Predicate.truth,
      HeadCondition.truth, List.map_cons, List.map_nil, Comparison.truth_single]
  | metadataKey =>
    cases heq
    cases hin
    exact hmetadata .key
  | metadataValue =>
    cases heq
    cases hin
    exact hmetadata .value
  | id =>
    cases heq
    cases hin
    exact (Predicate.holds_or_single _).symm
  | name | runType | status | projectName | traceId | rootRunId | rootSpanId | modelName
  | providerName =>
    cases heq
    cases hin
    simp only [FilterRun.satisfies, compileTextColumn, compareSql, CompareOp.operator,
      Predicate.holds, Predicate.truth, HeadCondition.truth, List.map_cons, List.map_nil,
      Comparison.truth_single]
  | _ => cases hin

theorem compileCompare_of_in {sql : HeadPredicate}
    (hin : compileIn formats projects field [value] = .ok sql) :
    ∃ eqSql, compileCompare formats projects .eq field value = .ok eqSql := by
  cases field with
  | tags | metadataKey | metadataValue | id | name | runType | status | projectName | traceId
  | rootRunId | rootSpanId | modelName | providerName => exact ⟨_, rfl⟩
  | _ => cases hin

theorem means_single {sql : HeadPredicate}
    (hin : compileIn ctx.formats ctx.projects field [value] = .ok sql) :
    (FilterExpr.compare .eq field value).means ctx run row =
      (FilterExpr.isIn field [value]).means ctx run row := by
  obtain ⟨eqSql, heq⟩ := compileCompare_of_in hin
  have hscalar : isPhase6Atom (.compare .eq field value) = false ∧
      isPhase6Atom (.isIn field [value]) = false := by
    cases field with
    | inputs | outputs | extra | attributesJson => cases hin
    | _ => exact ⟨rfl, rfl⟩
  rw [FilterExpr.means_atom rfl, FilterExpr.means_atom rfl,
    FilterExpr.atomMeans_of_compile hscalar.1 heq, FilterExpr.atomMeans_of_compile hscalar.2 hin]
  exact satisfies_single heq hin

/-- A child of an `and()` that puts no condition on the shared rows. -/
structure FilterExpr.StandsApart (formats : FilterFormats) (child : FilterExpr) : Prop where
  metadata (anchored : Bool) : (metadataGroup formats).condition anchored child = none
  feedback (anchored : Bool) : (feedbackGroup formats).condition anchored child = none
  metadataAnchor : isPositiveMetadataKeyCondition child = false
  feedbackAnchor : isPositiveFeedbackKeyCondition child = false

theorem FilterExpr.StandsApart.of_not_atom (h : child.isAtom = false) :
    child.StandsApart formats := by
  cases child with
  | and children => exact ⟨fun _ => rfl, fun _ => rfl, rfl, rfl⟩
  | or children => exact ⟨fun _ => rfl, fun _ => rfl, rfl, rfl⟩
  | _ => cases h

theorem RowGroup.anchored_insert {group : RowGroup γ} (h : group.isAnchor child = false) :
    group.anchored (before ++ child :: after) = group.anchored (before ++ after) := by
  rw [anchored, anchored, List.any_append, List.any_append, List.any_cons, h, Bool.false_or]

theorem RowGroup.conditions_insert {group : RowGroup γ} (h : group.isAnchor child = false)
    (hnone : ∀ anchored, group.condition anchored child = none) :
    group.conditions (before ++ child :: after) = group.conditions (before ++ after) := by
  rw [conditions, conditions, anchored_insert h, List.filterMap_append, List.filterMap_append,
    List.filterMap_cons, hnone]

/-- A child that stands apart is a conjunct beside the others. -/
theorem means_and_apart (h : child.StandsApart ctx.formats) :
    (FilterExpr.and (before ++ child :: after)).means ctx run row ↔
      (FilterExpr.and (before ++ after)).means ctx run row ∧ child.means ctx run row := by
  rw [FilterExpr.means_and, FilterExpr.means_and, RowGroup.conditions_insert h.metadataAnchor
    h.metadata, RowGroup.conditions_insert h.feedbackAnchor h.feedback,
    RowGroup.anchored_insert h.metadataAnchor, RowGroup.anchored_insert h.feedbackAnchor]
  simp only [List.forall_mem_append, List.forall_mem_cons, h.metadata, h.feedback, forall_const]
  constructor
  · rintro ⟨hm, hf, hbefore, hchild, hafter⟩
    exact ⟨⟨hm, hf, hbefore, hafter⟩, hchild⟩
  · rintro ⟨⟨hm, hf, hbefore, hafter⟩, hchild⟩
    exact ⟨hm, hf, hbefore, hchild, hafter⟩

/-- What the other children of an `and()` ask of a run, but for the shared row of metadata. -/
def FilterRun.meetsOthers (ctx : FilterContext) (run : FilterRun) (row : SearchRow)
    (anchored : Bool) (others : List FilterExpr) : Prop :=
  run.meetsFeedback ctx ((feedbackGroup ctx.formats).conditions others) ∧
    ∀ child ∈ others, (metadataGroup ctx.formats).condition anchored child = none →
      (feedbackGroup ctx.formats).condition ((feedbackGroup ctx.formats).anchored others) child =
        none → child.means ctx run row

theorem means_and_others (others : List FilterExpr) :
    (FilterExpr.and others).means ctx run row ↔
      run.meetsMetadata ctx ((metadataGroup ctx.formats).conditions others) ∧
      run.meetsOthers ctx row ((metadataGroup ctx.formats).anchored others) others :=
  FilterExpr.means_and others

theorem FilterRun.hasMetadata_congr {rules : TextRules}
    {conditions conditions' : List (Predicate (Comparison MetadataColumn))}
    (h : ∀ row : MetadataRow, conditions.all (row.meets rules) = conditions'.all (row.meets rules)) :
    run.hasMetadata rules projects conditions = run.hasMetadata rules projects conditions' := by
  simp only [FilterRun.hasMetadata, h]

/-- A child with a condition on the shared row of metadata adds it to those of the others. -/
theorem means_and_condition {c : Predicate (Comparison MetadataColumn)}
    (hcondition : ∀ anchored, (metadataGroup ctx.formats).condition anchored child = some c)
    (hfeedback : ∀ anchored, (feedbackGroup ctx.formats).condition anchored child = none)
    (hanchor : isPositiveFeedbackKeyCondition child = false) {anchored : Bool}
    (hanchored : (metadataGroup ctx.formats).anchored (before ++ child :: after) = anchored) :
    (FilterExpr.and (before ++ child :: after)).means ctx run row ↔
      run.hasMetadata ctx.rules ctx.projects
        (c :: (before ++ after).filterMap ((metadataGroup ctx.formats).condition anchored)) ∧
      run.meetsOthers ctx row anchored (before ++ after) := by
  have hrows : run.meetsMetadata ctx
      ((metadataGroup ctx.formats).conditions (before ++ child :: after)) =
      run.hasMetadata ctx.rules ctx.projects
        (c :: (before ++ after).filterMap ((metadataGroup ctx.formats).condition anchored)) := by
    rw [FilterRun.meetsMetadata, RowGroup.conditions, hanchored, List.filterMap_append,
      List.filterMap_append, List.filterMap_cons_some (hcondition _), List.isEmpty_eq_false_iff.2
        (by simp), Bool.false_or]
    apply FilterRun.hasMetadata_congr
    intro row
    rw [List.all_append, List.all_cons, List.all_cons, List.all_append, Bool.and_left_comm]
  rw [means_and_others, hrows, hanchored, FilterRun.meetsOthers, FilterRun.meetsOthers,
    RowGroup.conditions_insert hanchor hfeedback, RowGroup.anchored_insert hanchor]
  simp only [List.forall_mem_append, List.forall_mem_cons, hcondition, reduceCtorEq, false_implies,
    true_and]

theorem MetadataRow.meets_single (rules : TextRules) (row : MetadataRow) (column : MetadataColumn)
    (text : String) : row.meets rules (.atom (.isIn column [.text text])) =
      row.meets rules (.atom (.compare .eq column (.text text))) := by
  rw [Bool.eq_iff_iff, MetadataRow.meets, MetadataRow.meets, Predicate.holds_atom,
    Predicate.holds_atom, Comparison.truth_single]

/-- On the fields other than the values of metadata the two mean the same wherever they stand. -/
theorem means_fill_single {sql : HeadPredicate}
    (hin : compileIn ctx.formats ctx.projects field [value] = .ok sql)
    (hfield : field ≠ .metadataValue) (hole : FilterHole) :
    (hole.fill (.compare .eq field value)).means ctx run row ↔
      (hole.fill (.isIn field [value])).means ctx run row := by
  induction hole with
  | here => exact iff_of_eq (congrArg (· = true) (means_single hin))
  | or before inner after ih =>
    rw [FilterHole.fill, FilterHole.fill, FilterExpr.means_or, FilterExpr.means_or]
    simp only [List.mem_append, List.mem_cons, or_and_right, exists_or, exists_eq_left, ih]
  | and before inner after ih =>
    rw [FilterHole.fill, FilterHole.fill]
    cases inner with
    | and _ _ _ | or _ _ _ =>
      rw [means_and_apart (.of_not_atom rfl), means_and_apart (.of_not_atom rfl), ih]
    | here =>
      cases field with
      | metadataValue => exact absurd rfl hfield
      | metadataKey =>
        -- Both are anchors, and put the same condition on the shared row.
        have hanchored : ∀ child, isPositiveMetadataKeyCondition child →
            (metadataGroup ctx.formats).anchored (before ++ child :: after) = true :=
          fun child hchild => RowGroup.anchored_iff.2 ⟨child, by simp, hchild⟩
        rw [FilterHole.fill, FilterHole.fill,
          means_and_condition (fun _ => rfl) (fun _ => rfl) rfl (hanchored _ rfl),
          means_and_condition (fun _ => rfl) (fun _ => rfl) rfl (hanchored _ rfl)]
        apply and_congr_left
        intro _
        rw [FilterRun.hasMetadata_congr]
        intro row
        rw [List.all_cons, List.all_cons, List.map_cons, List.map_nil, MetadataRow.meets_single]
        rfl
      | tags | id | name | runType | status | projectName | traceId | rootRunId | rootSpanId
      | modelName | providerName =>
        rw [means_and_apart ⟨fun _ => rfl, fun _ => rfl, rfl, rfl⟩,
          means_and_apart ⟨fun _ => rfl, fun _ => rfl, rfl, rfl⟩, ih]
      | _ => cases hin

def FilterHole.isHere : FilterHole → Bool
  | .here => true
  | _ => false

/-- The condition of `eq(metadata_value, value)` on a row of metadata. -/
def valueCondition (formats : FilterFormats) (value : FilterValue) :
    Predicate (Comparison MetadataColumn) :=
  metadataCompareCondition formats .eq .metadataValue value

/-- Around the hole stands an `and()` whose other children hold of the run, which has a row with
the value of metadata, and a row that meets the conditions of the others, but not in one; and the
filters further out depend on it. -/
def FilterHole.partsRow (ctx : FilterContext) (run : FilterRun) (row : SearchRow)
    (value : FilterValue) : FilterHole → Prop
  | .here => False
  | .and before inner after =>
    (FilterExpr.and (before ++ after)).means ctx run row ∧
      (inner.partsRow ctx run row value ∨
        inner.isHere ∧
        run.hasMetadata ctx.rules ctx.projects [valueCondition ctx.formats value] ∧
        ¬ run.hasMetadata ctx.rules ctx.projects (valueCondition ctx.formats value ::
          (metadataGroup ctx.formats).conditions (before ++ after)))
  | .or before inner after =>
    ¬ (FilterExpr.or (before ++ after)).means ctx run row ∧ inner.partsRow ctx run row value

theorem means_value : (FilterExpr.compare .eq .metadataValue value).means ctx run row ↔
    run.hasMetadata ctx.rules ctx.projects [valueCondition ctx.formats value] := by
  rw [FilterExpr.means_atom rfl, FilterExpr.atomMeans_of_compile rfl rfl]
  exact FilterRun.satisfies_metadataExists

theorem meetsMetadata_of_cons {c : Predicate (Comparison MetadataColumn)}
    {conditions : List (Predicate (Comparison MetadataColumn))}
    (h : run.hasMetadata ctx.rules ctx.projects (c :: conditions)) :
    run.hasMetadata ctx.rules ctx.projects [c] ∧ run.meetsMetadata ctx conditions := by
  obtain ⟨row, hrow, h⟩ := List.any_eq_true.1 h
  rw [Bool.and_eq_true, List.all_cons, Bool.and_eq_true] at h
  refine ⟨List.any_eq_true.2 ⟨row, hrow, ?_⟩,
    Bool.or_eq_true _ _ ▸ .inr (List.any_eq_true.2 ⟨row, hrow, ?_⟩)⟩
  · rw [Bool.and_eq_true, List.all_cons, List.all_nil, Bool.and_true]
    exact ⟨h.1, h.2.1⟩
  · rw [Bool.and_eq_true]
    exact ⟨h.1, h.2.2⟩

theorem means_or_insert (before after : List FilterExpr) (expr : FilterExpr) :
    (FilterExpr.or (before ++ expr :: after)).means ctx run row ↔
      expr.means ctx run row ∨ (FilterExpr.or (before ++ after)).means ctx run row := by
  rw [FilterExpr.means_or, FilterExpr.means_or]
  simp only [List.mem_append, List.mem_cons, or_and_right, exists_or, exists_eq_left]
  exact or_left_comm

theorem FilterHole.fill_not_atom {hole : FilterHole} (h : hole.isHere = false)
    (expr : FilterExpr) : (hole.fill expr).isAtom = false := by
  cases hole with
  | here => cases h
  | and _ _ _ | or _ _ _ => rfl

theorem standsApart_isIn_value (values : List FilterValue) :
    (FilterExpr.isIn .metadataValue values).StandsApart formats :=
  ⟨fun _ => rfl, fun _ => rfl, rfl, rfl⟩

/-- A run that parts the rows is selected by the list. -/
theorem means_of_partsRow {hole : FilterHole} (h : hole.partsRow ctx run row value) :
    (hole.fill (.isIn .metadataValue [value])).means ctx run row := by
  induction hole with
  | here => exact absurd h id
  | or before inner after ih => exact (means_or_insert _ _ _).2 (.inl (ih h.2))
  | and before inner after ih =>
    obtain ⟨hothers, hinner⟩ := h
    rcases hinner with hinner | ⟨hhere, hvalue, -⟩
    · cases hhere : inner.isHere with
      | false =>
        exact (means_and_apart (.of_not_atom (inner.fill_not_atom hhere _))).2 ⟨hothers, ih hinner⟩
      | true =>
        cases inner with
        | and _ _ _ | or _ _ _ => cases hhere
        | here => exact absurd hinner id
    · cases inner with
      | and _ _ _ | or _ _ _ => cases hhere
      | here =>
        have hmeans : (FilterExpr.isIn .metadataValue [value]).means ctx run row :=
          means_single (@rfl _ (compileIn ctx.formats ctx.projects .metadataValue [value])) ▸
            means_value.2 hvalue
        exact (means_and_apart (standsApart_isIn_value _)).2 ⟨hothers, hmeans⟩

/-- On the values of metadata the equality selects fewer runs: those that part the rows are lost. -/
theorem means_fill_value (hole : FilterHole) :
    (hole.fill (.compare .eq .metadataValue value)).means ctx run row ↔
      (hole.fill (.isIn .metadataValue [value])).means ctx run row ∧
        ¬ hole.partsRow ctx run row value := by
  have hsingle : (FilterExpr.compare .eq .metadataValue value).means ctx run row =
      (FilterExpr.isIn .metadataValue [value]).means ctx run row := means_single rfl
  induction hole with
  | here =>
    rw [FilterHole.fill, FilterHole.fill, hsingle]
    exact (and_iff_left id).symm
  | or before inner after ih =>
    have hinner : (inner.fill (.compare .eq .metadataValue value)).means ctx run row ↔
        (inner.fill (.isIn .metadataValue [value])).means ctx run row ∧
          ¬ inner.partsRow ctx run row value := ih
    rw [FilterHole.fill, FilterHole.fill, FilterHole.partsRow, means_or_insert, means_or_insert,
      hinner]
    tauto
  | and before inner after ih =>
    have hinner : (inner.fill (.compare .eq .metadataValue value)).means ctx run row ↔
        (inner.fill (.isIn .metadataValue [value])).means ctx run row ∧
          ¬ inner.partsRow ctx run row value := ih
    rw [FilterHole.fill, FilterHole.fill, FilterHole.partsRow]
    cases hhere : inner.isHere with
    | false =>
      rw [means_and_apart (.of_not_atom (inner.fill_not_atom hhere _)),
        means_and_apart (.of_not_atom (inner.fill_not_atom hhere _)), hinner]
      tauto
    | true =>
      cases inner with
      | and _ _ _ | or _ _ _ => cases hhere
      | here =>
        have hanchored : (metadataGroup ctx.formats).anchored
            (before ++ FilterExpr.compare .eq .metadataValue value :: after) =
              (metadataGroup ctx.formats).anchored (before ++ after) :=
          RowGroup.anchored_insert rfl
        rw [FilterHole.fill, FilterHole.fill, FilterHole.partsRow,
          means_and_condition (fun _ => rfl) (fun _ => rfl) rfl hanchored,
          means_and_apart (standsApart_isIn_value _), ← hsingle, means_value,
          means_and_others]
        have hcons := @meetsMetadata_of_cons ctx run (valueCondition ctx.formats value)
          ((metadataGroup ctx.formats).conditions (before ++ after))
        unfold valueCondition at hcons ⊢
        unfold RowGroup.conditions at hcons ⊢
        tauto

/-- Wherever they stand, an equality and a list of one value compile alike and select the same runs,
but for those that part the rows of metadata around the hole. What the search index has of a run
is no matter to them. -/
theorem single_in_selects (ctx : FilterContext) (run : FilterRun) (row : SearchRow)
    (hole : FilterHole) {sql : HeadPredicate}
    (hin : compileIn ctx.formats ctx.projects field [value] = .ok sql) :
    (hole.fill (.compare .eq field value)).check ctx.formats ctx.projects =
        (hole.fill (.isIn field [value])).check ctx.formats ctx.projects ∧
      ∀ eqSql inSql,
        compileExpr ctx.formats ctx.projects (hole.fill (.compare .eq field value)) = .ok eqSql →
        compileExpr ctx.formats ctx.projects (hole.fill (.isIn field [value])) = .ok inSql →
        ((run.satisfies ctx.rules eqSql ↔ run.satisfies ctx.rules inSql) ↔
          ¬ (field = .metadataValue ∧ hole.partsRow ctx run row value)) := by
  refine ⟨(hole.fill_replaces (replaces_single hin)).check, fun eqSql inSql heqSql hinSql => ?_⟩
  have heq : run.satisfies ctx.rules eqSql ↔
      (hole.fill (.compare .eq field value)).means ctx run row := compileExpr_sound _ _ heqSql
  have hisIn : run.satisfies ctx.rules inSql ↔
      (hole.fill (.isIn field [value])).means ctx run row := compileExpr_sound _ _ hinSql
  rw [heq, hisIn]
  by_cases hfield : field = .metadataValue
  · subst hfield
    rw [means_fill_value]
    have hmeans := @means_of_partsRow ctx run row value hole
    tauto
  · exact iff_of_true (means_fill_single hin hfield hole) fun h => hfield h.1

/-- `and(eq(metadata_key, "model"), _)`. -/
def sampleHole : FilterHole := .and [metadataIs .metadataKey "model"] .here []

/-- A run with `{"model": "gpt"}` is selected by both. -/
theorem single_in_selects_sample : ∃ eqSql inSql,
    compileExpr sampleFilterContext.formats sampleFilterContext.projects
        (sampleHole.fill (.compare .eq .metadataValue (.string "gpt"))) = .ok eqSql ∧
      compileExpr sampleFilterContext.formats sampleFilterContext.projects
        (sampleHole.fill (.isIn .metadataValue [.string "gpt"])) = .ok inSql ∧
      (sampleFilterRun.satisfies sampleFilterContext.rules eqSql ↔
        sampleFilterRun.satisfies sampleFilterContext.rules inSql) := by
  refine ⟨_, _, rfl, rfl, ((@single_in_selects .metadataValue (.string "gpt") sampleFilterContext
    sampleFilterRun sampleSearchRow sampleHole _ rfl).2 _ _ rfl rfl).2 ?_⟩
  rintro ⟨-, -, hinner | ⟨-, -, hparts⟩⟩
  · exact hinner
  · revert hparts
    decide +kernel

/-- A run with `{"model": "gpt", "region": "eu"}` is selected by `in(metadata_value, ["eu"])` beside
`eq(metadata_key, "model")`, and not by `eq(metadata_value, "eu")`. -/
theorem single_in_regroups : ∃ eqSql inSql,
    compileIn sampleFilterContext.formats sampleFilterContext.projects .metadataValue
        [.string "eu"] = .ok (metadataExistsSql ["default"] [.or [valueCondition
          sampleFilterContext.formats (.string "eu")]]) ∧
      compileExpr sampleFilterContext.formats sampleFilterContext.projects
        (sampleHole.fill (.compare .eq .metadataValue (.string "eu"))) = .ok eqSql ∧
      compileExpr sampleFilterContext.formats sampleFilterContext.projects
        (sampleHole.fill (.isIn .metadataValue [.string "eu"])) = .ok inSql ∧
      ¬ (sampleFilterRun.satisfies sampleFilterContext.rules eqSql ↔
        sampleFilterRun.satisfies sampleFilterContext.rules inSql) := by
  refine ⟨_, _, rfl, rfl, rfl, ?_⟩
  decide +kernel

end KevinDb
