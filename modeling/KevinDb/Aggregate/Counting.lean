import KevinDb.Aggregate.Groups
import KevinDb.Lib.Choices

namespace KevinDb
set_option autoImplicit true
open Std

variable {query : RunAggregateQuery} {tags : RunKey → List String}
  {scores : RunKey → List FeedbackScore} {rows : List AggregateRunRow} {row : AggregateRunRow}
  {group : AggregateGroup} {runTags : List String} {runScores : List FeedbackScore}

/-- The values of a row for a dimension. -/
def AggregateRunRow.values (query : RunAggregateQuery) (tags : List String)
    (scores : List FeedbackScore) (row : AggregateRunRow) : RunAggregateGroup → List String
  | .tag => if tags.isEmpty then ["untagged"] else tags
  | .feedbackKey => (query.scoresOf scores).map FeedbackScore.key
  | key => [row.text query key]

/-- The groups that a run is counted in, with repetitions. -/
def groupsOf (query : RunAggregateQuery) (tags : RunKey → List String)
    (scores : RunKey → List FeedbackScore) (row : AggregateRunRow) : List AggregateGroup :=
  (groupVariants query (tags row.runKey) (scores row.runKey) row).map GroupVariant.group

/-- The runs that belong to a group. -/
def membersOf (query : RunAggregateQuery) (tags : RunKey → List String)
    (scores : RunKey → List FeedbackScore) (rows : List AggregateRunRow) (group : AggregateGroup) :
    List AggregateRunRow :=
  rows.filter fun row => group ∈ groupsOf query tags scores row

/-- A run repeats no tag and no key of its scores where it is grouped by them, and none of its
dimensions with several values is asked for again; or it has no score to be grouped by. -/
def AggregateRunRow.CountedOnce (query : RunAggregateQuery) (tags : List String)
    (scores : List FeedbackScore) (row : AggregateRunRow) : Prop :=
  (.feedbackKey ∈ query.groupBy ∧ query.scoresOf scores = []) ∨
    ChoosesOnce (row.values query tags scores) query.groupBy

/-- The metrics that are not about feedback. -/
def RunAggregateMetrics.runLevel (metrics : RunAggregateMetrics) : RunAggregateMetrics :=
  { metrics with feedbackScores := [] }

/-- A result counts the distinct runs of its group, and takes each of them once. -/
structure RunAggregateRow.CountsRuns (query : RunAggregateQuery) (tags : RunKey → List String)
    (scores : RunKey → List FeedbackScore) (rows : List AggregateRunRow)
    (result : RunAggregateRow) : Prop where
  count : result.metrics.count =
    ((membersOf query tags scores rows result.group).map AggregateRunRow.runKey).dedup.length
  runLevel : result.metrics.runLevel =
    ((membersOf query tags scores rows result.group).foldl
      (fun accumulator row => accumulator.push row []) AggregateAccumulator.empty).finish

theorem AggregateGroup.get_insert_eq (group : AggregateGroup) (value : String)
    (key : RunAggregateGroup) :
    (group.insert value key).get = Function.update group.get key (some value) := by
  funext other
  rw [AggregateGroup.get_insert, Function.update_apply]
  exact if_congr eq_comm rfl rfl

theorem AggregateGroup.get_injective : Function.Injective AggregateGroup.get :=
  fun _ _ h => AggregateGroup.ext_get fun key => congrFun h key

/-- Each dimension multiplies the groups by its values. -/
theorem expandGroupVariants_groups (key : RunAggregateGroup) (variants : List GroupVariant) :
    (expandGroupVariants query runTags runScores row variants key).map (·.group.get) =
      (variants.map (·.group.get)).flatMap fun chosen =>
        (row.values query runTags runScores key).map fun value =>
          Function.update chosen key (some value) := by
  have happend : ∀ values : List String,
      (appendGroupValues variants key values).map (·.group.get) =
        (variants.map (·.group.get)).flatMap fun chosen => values.map fun value =>
          Function.update chosen key (some value) := by
    intro values
    rw [appendGroupValues, List.map_flatMap, List.flatMap_map]
    apply List.flatMap_congr
    intro variant _
    rw [List.map_map]
    apply List.map_congr_left
    intro value _
    exact AggregateGroup.get_insert_eq _ _ _
  cases key with
  | feedbackKey =>
    rw [expandGroupVariants, expandFeedbackGroup, List.map_flatMap, List.flatMap_map]
    apply List.flatMap_congr
    intro variant _
    rw [AggregateRunRow.values, List.map_map, List.map_map]
    apply List.map_congr_left
    intro score _
    exact AggregateGroup.get_insert_eq _ _ _
  | _ => exact happend _

theorem foldl_expandGroupVariants_groups (keys : List RunAggregateGroup)
    (variants : List GroupVariant) :
    (keys.foldl (expandGroupVariants query runTags runScores row) variants).map (·.group.get) =
      (variants.map (·.group.get)).flatMap (choices (row.values query runTags runScores) keys) := by
  induction keys generalizing variants with
  | nil =>
    change _ = (variants.map (·.group.get)).flatMap fun chosen => [chosen]
    rw [List.flatMap_singleton']
    rfl
  | cons key keys ih =>
    rw [List.foldl_cons, ih, expandGroupVariants_groups, List.flatMap_assoc]
    apply List.flatMap_congr
    intro chosen _
    rw [List.flatMap_map, choices]

/-- The groups of a run are the choices of a value for each dimension. -/
theorem groupVariants_groups : (groupVariants query runTags runScores row).map (·.group.get) =
    choices (row.values query runTags runScores) query.groupBy fun _ => none := by
  have hempty : (fun _ => none : RunAggregateGroup → Option String) =
      AggregateGroup.empty.get := by
    funext key
    rw [AggregateGroup.get_empty]
  have hfold : (query.groupBy.foldl (expandGroupVariants query runTags runScores row)
      [⟨.empty, []⟩]).map (·.group.get) =
        choices (row.values query runTags runScores) query.groupBy fun _ => none := by
    rw [foldl_expandGroupVariants_groups, List.map_singleton, List.flatMap_singleton, hempty]
  rw [groupVariants, ← hfold]
  split
  · rfl
  · rw [attachFeedbackMetrics]
    split
    · rfl
    · rw [List.map_map]
      rfl

/-- The groups of a run differ exactly if it is counted once. -/
theorem nodup_groups : ((groupVariants query runTags runScores row).map GroupVariant.group).Nodup ↔
    row.CountedOnce query runTags runScores := by
  have hvalues : ∀ key, row.values query runTags runScores key = [] →
      key = .feedbackKey ∧ query.scoresOf runScores = [] := by
    intro key hkey
    cases key with
    | feedbackKey => exact ⟨rfl, List.map_eq_nil_iff.1 hkey⟩
    | tag =>
      rw [AggregateRunRow.values] at hkey
      split at hkey
      · cases hkey
      · next htags => exact absurd (List.isEmpty_iff.2 hkey) htags
    | _ => cases hkey
  rw [← List.nodup_map_iff AggregateGroup.get_injective, List.map_map]
  change ((groupVariants query runTags runScores row).map (·.group.get)).Nodup ↔ _
  rw [groupVariants_groups, AggregateRunRow.CountedOnce]
  by_cases hnone : .feedbackKey ∈ query.groupBy ∧ query.scoresOf runScores = []
  · have hnil : row.values query runTags runScores .feedbackKey = [] :=
      List.map_eq_nil_iff.2 hnone.2
    rw [choices_eq_nil hnone.1 hnil]
    exact iff_of_true List.nodup_nil (.inl hnone)
  · rw [nodup_choices, or_iff_right hnone]
    intro key hkey hnil
    obtain ⟨rfl, hscores⟩ := hvalues key hnil
    exact hnone ⟨hkey, hscores⟩

/-- What has been collected, but for the scores. -/
def AggregateAccumulator.withoutScores (accumulator : AggregateAccumulator) : AggregateAccumulator :=
  { accumulator with feedbackScores := ∅ }

theorem AggregateAccumulator.finish_withoutScores (accumulator : AggregateAccumulator) :
    accumulator.withoutScores.finish = accumulator.finish.runLevel := rfl

/-- What is collected of some rows with their variants is what is collected of the rows, but for
the scores. -/
theorem AggregateAccumulator.foldl_push_rows (pushes : List (AggregateRunRow × GroupVariant))
    {accumulator accumulator' : AggregateAccumulator}
    (h : accumulator.withoutScores = accumulator'.withoutScores) :
    (pushes.foldl (fun accumulator push => accumulator.push push.1 push.2.feedback)
        accumulator).withoutScores =
      ((pushes.map Prod.fst).foldl (fun accumulator row => accumulator.push row [])
        accumulator').withoutScores := by
  induction pushes generalizing accumulator accumulator' with
  | nil => exact h
  | cons push pushes ih =>
    apply ih
    have hpush : ∀ (accumulator : AggregateAccumulator) (feedback : List FeedbackScore),
        (accumulator.push push.1 feedback).withoutScores =
          (accumulator.withoutScores.push push.1 []).withoutScores := fun _ _ => rfl
    calc (accumulator.push push.1 push.2.feedback).withoutScores
        = (accumulator.withoutScores.push push.1 []).withoutScores := hpush _ _
      _ = (accumulator'.withoutScores.push push.1 []).withoutScores := by rw [h]
      _ = (accumulator'.push push.1 []).withoutScores := (hpush _ _).symm

/-- The variants of a group repeat each run as often as it is in the group. -/
theorem map_fst_variantsOf (rows : List AggregateRunRow) (group : AggregateGroup) :
    ((variantsOf query tags scores rows).filter fun push => push.2.group = group).map Prod.fst =
      rows.flatMap fun row => List.replicate ((groupsOf query tags scores row).count group) row := by
  rw [variantsOf, List.filter_flatMap, List.map_flatMap]
  apply List.flatMap_congr
  intro row _
  rw [groupsOf]
  generalize groupVariants query (tags row.runKey) (scores row.runKey) row = variants
  induction variants with
  | nil => rfl
  | cons variant variants ih =>
    rw [List.map_cons, List.filter_cons, List.map_cons, List.count_cons]
    by_cases hgroup : variant.group = group
    · simp only [hgroup, decide_true, if_true, List.map_cons, ih, BEq.rfl, List.replicate_succ]
    · simp only [hgroup, decide_false, Bool.false_eq_true, if_false, ih, beq_iff_eq, Nat.add_zero]

/-- Runs that are counted once are repeated once if they belong to the group. -/
theorem flatMap_replicate_members
    (hrows : ∀ row ∈ rows, (groupsOf query tags scores row).Nodup) (group : AggregateGroup) :
    (rows.flatMap fun row => List.replicate ((groupsOf query tags scores row).count group) row) =
      membersOf query tags scores rows group := by
  induction rows with
  | nil => rfl
  | cons row rows ih =>
    obtain ⟨hrow, hrows⟩ := List.forall_mem_cons.1 hrows
    rw [List.flatMap_cons, ih hrows, membersOf, membersOf, List.filter_cons]
    by_cases hmem : group ∈ groupsOf query tags scores row
    · rw [List.count_eq_one_of_mem hrow hmem, if_pos (decide_eq_true hmem)]
      rfl
    · rw [List.count_eq_zero_of_not_mem hmem, if_neg (by simpa using hmem)]
      rfl

/-- If a run of the list is in a group twice, more is counted than there are members. -/
theorem length_members_lt (hrow : row ∈ rows)
    (htwice : 1 < (groupsOf query tags scores row).count group) :
    (membersOf query tags scores rows group).length <
      (rows.flatMap fun row =>
        List.replicate ((groupsOf query tags scores row).count group) row).length := by
  have hmembers : (membersOf query tags scores rows group).length =
      (rows.map fun row => if group ∈ groupsOf query tags scores row then 1 else 0).sum := by
    clear hrow
    induction rows with
    | nil => rfl
    | cons row rows ih =>
      rw [membersOf, List.filter_cons, List.map_cons, List.sum_cons, ← ih, membersOf]
      by_cases hmem : group ∈ groupsOf query tags scores row
      · simp [hmem, Nat.add_comm]
      · simp [hmem]
  rw [hmembers, List.length_flatMap]
  simp only [List.length_replicate]
  apply List.sum_lt_sum
  · intro other _
    split
    · next hmem => exact List.count_pos_iff.2 hmem
    · exact Nat.zero_le _
  · exact ⟨row, hrow, by rw [if_pos (List.count_pos_iff.1 (by omega))]; exact htwice⟩

/-- The pushes of a result. -/
theorem exists_pushes {result : RunAggregateRow} :
    result ∈ aggregateRows query tags scores rows ↔
      (∃ push ∈ variantsOf query tags scores rows, push.2.group = result.group) ∧
        result.metrics = (((variantsOf query tags scores rows).filter fun push =>
          push.2.group = result.group).foldl
            (fun accumulator push => accumulator.push push.1 push.2.feedback)
            AggregateAccumulator.empty).finish := by
  rw [aggregateRows, List.mem_map]
  constructor
  · rintro ⟨⟨group, accumulator⟩, hentry, rfl⟩
    rw [TreeMap.mem_toList_iff_getElem?_eq_some, get_groupFold_eq_some] at hentry
    obtain ⟨hpushes, rfl⟩ := hentry
    exact ⟨hpushes, rfl⟩
  · rintro ⟨hpushes, hmetrics⟩
    refine ⟨(result.group, ((variantsOf query tags scores rows).filter fun push =>
      push.2.group = result.group).foldl
        (fun accumulator push => accumulator.push push.1 push.2.feedback)
        AggregateAccumulator.empty), ?_, ?_⟩
    · rw [TreeMap.mem_toList_iff_getElem?_eq_some, get_groupFold_eq_some]
      exact ⟨hpushes, rfl⟩
    · change RunAggregateRow.mk result.group _ = result
      rw [← hmetrics]

theorem AggregateAccumulator.count_foldl_push (rows : List AggregateRunRow)
    (accumulator : AggregateAccumulator) :
    (rows.foldl (fun accumulator row => accumulator.push row []) accumulator).count =
      accumulator.count + rows.length := by
  induction rows generalizing accumulator with
  | nil => rfl
  | cons row rows ih =>
    rw [List.foldl_cons, ih, List.length_cons]
    change accumulator.count + 1 + rows.length = _
    omega

/-- What is known of a result: its group is one of a run's, and its metrics are those of the runs
of the group, each as often as it is in it. -/
theorem runLevel_of_mem {result : RunAggregateRow}
    (h : result ∈ aggregateRows query tags scores rows) :
    (∃ row ∈ rows, result.group ∈ groupsOf query tags scores row) ∧
      result.metrics.runLevel = ((rows.flatMap fun row =>
        List.replicate ((groupsOf query tags scores row).count result.group) row).foldl
          (fun accumulator row => accumulator.push row []) AggregateAccumulator.empty).finish := by
  obtain ⟨⟨push, hpush, hgroup⟩, hmetrics⟩ := exists_pushes.1 h
  constructor
  · obtain ⟨row, hrow, hvariant⟩ := List.mem_flatMap.1 hpush
    obtain ⟨variant, hmem, rfl⟩ := List.mem_map.1 hvariant
    exact ⟨row, hrow, List.mem_map.2 ⟨variant, hmem, hgroup⟩⟩
  · rw [hmetrics, ← AggregateAccumulator.finish_withoutScores,
      AggregateAccumulator.foldl_push_rows _ (rfl : AggregateAccumulator.empty.withoutScores = _),
      map_fst_variantsOf, AggregateAccumulator.finish_withoutScores]
    have hscores : ∀ (rows : List AggregateRunRow) (accumulator : AggregateAccumulator),
        accumulator.feedbackScores = ∅ →
          (rows.foldl (fun accumulator row => accumulator.push row [])
            accumulator).feedbackScores = ∅ := by
      intro rows
      induction rows with
      | nil => exact fun _ h => h
      | cons row rows ih => exact fun _ h => ih _ h
    rw [RunAggregateMetrics.runLevel, AggregateAccumulator.finish, hscores _ _ rfl]
    rfl

/-- Every group of a run has a result. -/
theorem exists_result (hrow : row ∈ rows) (hgroup : group ∈ groupsOf query tags scores row) :
    ∃ result ∈ aggregateRows query tags scores rows, result.group = group := by
  obtain ⟨variant, hvariant, rfl⟩ := List.mem_map.1 hgroup
  have hpush : (row, variant) ∈ variantsOf query tags scores rows :=
    List.mem_flatMap.2 ⟨row, hrow, List.mem_map.2 ⟨variant, hvariant, rfl⟩⟩
  have hresult : ∀ metrics, metrics = (((variantsOf query tags scores rows).filter fun push =>
      push.2.group = variant.group).foldl
        (fun accumulator push => accumulator.push push.1 push.2.feedback)
        AggregateAccumulator.empty).finish →
      RunAggregateRow.mk variant.group metrics ∈ aggregateRows query tags scores rows :=
    fun _ hmetrics => exists_pushes.2 ⟨⟨(row, variant), hpush, rfl⟩, hmetrics⟩
  exact ⟨_, hresult _ rfl, rfl⟩

/-- The results count each run once in each group exactly if every run is counted once. -/
theorem aggregates_count_runs_iff (query : RunAggregateQuery) (tags : RunKey → List String)
    (scores : RunKey → List FeedbackScore) (rows : List AggregateRunRow)
    (hkeys : (rows.map AggregateRunRow.runKey).Nodup) :
    (∀ result ∈ aggregateRows query tags scores rows, result.CountsRuns query tags scores rows) ↔
      ∀ row ∈ rows, row.CountedOnce query (tags row.runKey) (scores row.runKey) := by
  have hdistinct : ∀ group,
      ((membersOf query tags scores rows group).map AggregateRunRow.runKey).dedup.length =
        (membersOf query tags scores rows group).length := by
    intro group
    have hmembers : ((membersOf query tags scores rows group).map AggregateRunRow.runKey).Nodup :=
      hkeys.sublist (List.filter_sublist.map _)
    rw [hmembers.dedup, List.length_map]
  constructor
  · intro hcounts row hrow
    by_contra hnot
    rw [← nodup_groups, List.nodup_iff_count_le_one] at hnot
    obtain ⟨group, htwice⟩ := not_forall.1 hnot
    rw [Nat.not_le] at htwice
    obtain ⟨result, hresult, rfl⟩ :=
      exists_result hrow (List.count_pos_iff.1 (Nat.lt_of_succ_lt htwice))
    have hcount := (hcounts result hresult).count
    have hlevel := congrArg RunAggregateMetrics.count (runLevel_of_mem hresult).2
    have hpushed := AggregateAccumulator.count_foldl_push (rows.flatMap fun row =>
      List.replicate ((groupsOf query tags scores row).count result.group) row)
        AggregateAccumulator.empty
    have hless := length_members_lt hrow htwice
    rw [hdistinct] at hcount
    change result.metrics.count = AggregateAccumulator.count _ at hlevel
    change _ = 0 + _ at hpushed
    omega
  · intro hrows result hresult
    have hnodup : ∀ row ∈ rows, (groupsOf query tags scores row).Nodup :=
      fun row hrow => nodup_groups.2 (hrows row hrow)
    have hlevel := (runLevel_of_mem hresult).2
    rw [flatMap_replicate_members hnodup] at hlevel
    have hcount : result.metrics.count = (membersOf query tags scores rows result.group).length := by
      have hpushed := AggregateAccumulator.count_foldl_push
        (membersOf query tags scores rows result.group) AggregateAccumulator.empty
      have hfinish := congrArg RunAggregateMetrics.count hlevel
      change result.metrics.count = AggregateAccumulator.count _ at hfinish
      change _ = 0 + _ at hpushed
      omega
    exact ⟨hcount.trans (hdistinct _).symm, hlevel⟩

/-- A run of a span that took some time. -/
def AggregateRunRow.sample (spanId : String) (latencyNanos : Int) : AggregateRunRow where
  projectName := "p"
  traceId := "t"
  spanId
  runType := "llm"
  status := .success
  startTimeUnixNano := 0
  latencyNanos
  promptTokens := none
  completionTokens := none
  totalTokens := some 5
  promptCost := none
  completionCost := none
  totalCost := none
  firstTokenLatencyNanos := none
  evaluatorScore := none
  modelName := none
  providerName := none

/-- A query by tag and by key of the scores. -/
def RunAggregateQuery.byTagAndFeedback : RunAggregateQuery :=
  { RunAggregateQuery.new "p" with groupBy := [.tag, .feedbackKey] }

/-- Two runs with two tags and two keys of scores. -/
theorem aggregates_count_runs_tagged :
    (aggregateRows .byTagAndFeedback (fun _ => ["a", "b"])
      (fun _ => [⟨"x", .finite 1⟩, ⟨"y", .finite 0⟩]) [.sample "s" 3, .sample "u" 4]).length = 4 ∧
    ∀ result ∈ aggregateRows .byTagAndFeedback (fun _ => ["a", "b"])
      (fun _ => [⟨"x", .finite 1⟩, ⟨"y", .finite 0⟩]) [.sample "s" 3, .sample "u" 4],
        result.CountsRuns .byTagAndFeedback (fun _ => ["a", "b"])
          (fun _ => [⟨"x", .finite 1⟩, ⟨"y", .finite 0⟩]) [.sample "s" 3, .sample "u" 4] := by
  refine ⟨by decide +kernel, ?_⟩
  apply (aggregates_count_runs_iff .byTagAndFeedback (fun _ => ["a", "b"])
    (fun _ => [⟨"x", .finite 1⟩, ⟨"y", .finite 0⟩]) [.sample "s" 3, .sample "u" 4]
    (by decide)).2
  intro row _
  apply Or.inr
  rw [ChoosesOnce, RunAggregateQuery.byTagAndFeedback, List.forall_mem_cons,
    List.forall_mem_singleton]
  exact ⟨⟨(by decide : ["a", "b"].Nodup), .inl (by decide)⟩,
    ⟨(by decide : ["x", "y"].Nodup), .inl (by decide)⟩⟩

/-- A run with two scores of one key counts twice in the group of the key. -/
theorem repeated_score_counts_twice :
    (AggregateRunRow.sample "s" 3).runKey = ⟨"p", "t", "s"⟩ ∧
      ¬ ∀ result ∈ aggregateRows { RunAggregateQuery.new "p" with groupBy := [.feedbackKey] }
        (fun _ => []) (fun _ => [⟨"x", .finite 1⟩, ⟨"x", .finite 0⟩]) [.sample "s" 3],
          result.CountsRuns { RunAggregateQuery.new "p" with groupBy := [.feedbackKey] }
            (fun _ => []) (fun _ => [⟨"x", .finite 1⟩, ⟨"x", .finite 0⟩]) [.sample "s" 3] := by
  refine ⟨rfl, fun hcounts => ?_⟩
  have hresults : (aggregateRows { RunAggregateQuery.new "p" with groupBy := [.feedbackKey] }
      (fun _ => []) (fun _ => [⟨"x", .finite 1⟩, ⟨"x", .finite 0⟩]) [.sample "s" 3]).map
        (fun result => (result.group, result.metrics.count)) =
      [({ AggregateGroup.empty with feedbackKey := some "x" }, 2)] := by
    decide +kernel
  obtain ⟨result, hresult, hmetrics⟩ := List.map_eq_singleton_iff.1 hresults
  obtain ⟨hgroup, htwo⟩ := Prod.mk.inj hmetrics
  have hcount := (hcounts result (hresult ▸ List.mem_singleton_self result)).count
  rw [hgroup, htwo] at hcount
  exact absurd hcount (by decide +kernel)

end KevinDb
