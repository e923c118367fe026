import KevinDb.Aggregate.Scan

namespace KevinDb
set_option autoImplicit true
open Std

def AggregateGroup.get (group : AggregateGroup) : RunAggregateGroup → Option String
  | .project => group.projectName
  | .timeBucket => group.timeBucketStartUnixNano
  | .runType => group.runType
  | .tag => group.tag
  | .model => group.modelName
  | .provider => group.providerName
  | .error => group.error
  | .feedbackKey => group.feedbackKey

theorem AggregateGroup.ext_get {a b : AggregateGroup} (h : ∀ key, a.get key = b.get key) :
    a = b := by
  cases a
  cases b
  have hproject := h .project
  have htime := h .timeBucket
  have hrunType := h .runType
  have htag := h .tag
  have hmodel := h .model
  have hprovider := h .provider
  have herror := h .error
  have hfeedback := h .feedbackKey
  simp_all only [AggregateGroup.get]

theorem AggregateGroup.get_insert (group : AggregateGroup) (value : String)
    (key other : RunAggregateGroup) :
    (group.insert value key).get other = if key = other then some value else group.get other := by
  cases key <;> cases other <;> rfl

@[simp] theorem AggregateGroup.get_empty (key : RunAggregateGroup) :
    AggregateGroup.empty.get key = none := by
  cases key <;> rfl

/-- Texts that depend on their keys alone may be put in any order, and more than once. -/
theorem AggregateGroup.get_foldl_insert (text : RunAggregateGroup → String)
    (keys : List RunAggregateGroup) (group : AggregateGroup) (key : RunAggregateGroup) :
    (keys.foldl (fun group key => group.insert (text key) key) group).get key =
      if key ∈ keys then some (text key) else group.get key := by
  induction keys generalizing group with
  | nil => simp
  | cons first keys ih =>
    rw [List.foldl_cons, ih, AggregateGroup.get_insert]
    by_cases hfirst : first = key
    · simp [hfirst]
    · simp [hfirst, Ne.symm hfirst]

theorem sameGroups_iff {groupBy groups : List RunAggregateGroup} :
    sameGroups groupBy groups ↔ ∀ key, key ∈ groupBy ↔ key ∈ groups := by
  simp only [sameGroups, Bool.and_eq_true, List.all_eq_true, List.contains_iff_mem]
  exact ⟨fun h key => ⟨h.1 key, h.2 key⟩, fun h => ⟨fun key => (h key).1, fun key => (h key).2⟩⟩

/-- The keys of a source of rollups. -/
def RollupSource.keys : RollupSource → List RunAggregateGroup
  | .runs .project => [.project, .timeBucket]
  | .runs .runType => [.project, .timeBucket, .runType]
  | .runs .model => [.project, .timeBucket, .model]
  | .runs .error => [.project, .timeBucket, .error]
  | .feedback => [.project, .timeBucket, .feedbackKey]

variable {query : RunAggregateQuery} {source : RollupSource} {kind : RollupKind}
  {tags : List String} {scores : List FeedbackScore} {row : AggregateRunRow}

theorem RunAggregateQuery.mem_groupBy (h : query.rollupSource = some source)
    (key : RunAggregateGroup) : key ∈ query.groupBy ↔ key ∈ source.keys := by
  rw [RunAggregateQuery.rollupSource] at h
  split at h
  next hsame =>
    cases h
    exact sameGroups_iff.1 hsame key
  split at h
  next hsame =>
    cases h
    exact sameGroups_iff.1 hsame key
  split at h
  next hsame =>
    cases h
    exact sameGroups_iff.1 hsame key
  split at h
  next hsame =>
    cases h
    exact sameGroups_iff.1 hsame key
  split at h
  next hsame =>
    cases h
    exact sameGroups_iff.1 hsame key
  · cases h

/-- The text of a key that has one for each row. -/
def AggregateRunRow.text (query : RunAggregateQuery) (row : AggregateRunRow) :
    RunAggregateGroup → String
  | .project => row.projectName
  | .timeBucket => toString (timeBucket row.startTimeUnixNano query.timeBucketNanos)
  | .runType => row.runType
  | .model => row.modelName.getD "unknown"
  | .provider => row.providerName.getD "unknown"
  | .error => if row.status = .error then "true" else "false"
  | .tag | .feedbackKey => ""

theorem expandGroupVariants_single {key : RunAggregateGroup} (htag : key ≠ .tag)
    (hfeedback : key ≠ .feedbackKey) (variants : List GroupVariant) :
    expandGroupVariants query tags scores row variants key = variants.map fun variant =>
      { variant with group := variant.group.insert (row.text query key) key } := by
  have happend : ∀ value : String, appendGroupValues variants key [value] =
      variants.map fun variant => { variant with group := variant.group.insert value key } := by
    intro value
    rw [appendGroupValues]
    simp only [List.map_cons, List.map_nil]
    exact List.flatMap_pure_eq_map _ _
  cases key with
  | tag => exact absurd rfl htag
  | feedbackKey => exact absurd rfl hfeedback
  | project => exact happend _
  | timeBucket => exact happend _
  | runType => exact happend _
  | model => exact happend _
  | provider => exact happend _
  | error => exact happend _

theorem foldl_expandGroupVariants_single {keys : List RunAggregateGroup}
    (hkeys : ∀ key ∈ keys, key ≠ .tag ∧ key ≠ .feedbackKey) (variants : List GroupVariant) :
    keys.foldl (expandGroupVariants query tags scores row) variants = variants.map fun variant =>
      { variant with
        group := keys.foldl (fun group key => group.insert (row.text query key) key)
          variant.group } := by
  induction keys generalizing variants with
  | nil => simp
  | cons key keys ih =>
    rw [List.forall_mem_cons] at hkeys
    rw [List.foldl_cons, ih hkeys.2, expandGroupVariants_single hkeys.1.1 hkeys.1.2, List.map_map]
    rfl

theorem timeBucket_bucketNanos (startTimeUnixNano : Int) :
    timeBucket startTimeUnixNano (some bucketNanos) = rollupTimeBucket startTimeUnixNano := rfl

/-- What a rollup of a kind groups a row by. -/
def AggregateRunRow.rollupGroup (kind : RollupKind) (row : AggregateRunRow) : RollupGroup where
  timeBucketStartUnixNano := rollupTimeBucket row.startTimeUnixNano
  groupValue :=
    match kind with
    | .project => row.projectName
    | .runType => row.runType
    | .model => row.modelName.getD "unknown"
    | .error => if row.status = .error then "true" else "false"

/-- The scores that a query not grouped by them attaches. -/
def RunAggregateQuery.attachedScores (query : RunAggregateQuery) (scores : List FeedbackScore) :
    List FeedbackScore :=
  if query.feedbackKeys.isEmpty then [] else query.scoresOf scores

/-- A query of run rollups puts each row into one group, that of its rollup. -/
theorem groupVariants_runs (hsource : query.rollupSource = some (.runs kind))
    (hbucket : query.timeBucketNanos = some bucketNanos) :
    groupVariants query tags scores row =
      [⟨KevinDb.rollupGroup kind row.projectName (row.rollupGroup kind),
        query.attachedScores scores⟩] := by
  have hmem := query.mem_groupBy hsource
  have hkeys : ∀ key ∈ query.groupBy, key ≠ .tag ∧ key ≠ .feedbackKey := by
    intro key hkey
    rw [hmem] at hkey
    constructor
    · rintro rfl
      cases kind <;> simp [RollupSource.keys] at hkey
    · rintro rfl
      cases kind <;> simp [RollupSource.keys] at hkey
  have hfeedback : query.groupBy.contains .feedbackKey = false := by
    rw [Bool.eq_false_iff]
    intro hcontains
    exact (hkeys _ (List.contains_iff_mem.1 hcontains)).2 rfl
  have hgroup : query.groupBy.foldl (fun group key => group.insert (row.text query key) key) .empty =
      KevinDb.rollupGroup kind row.projectName (row.rollupGroup kind) := by
    apply AggregateGroup.ext_get
    intro key
    rw [AggregateGroup.get_foldl_insert, AggregateGroup.get_empty]
    simp only [hmem]
    cases kind <;> cases key <;>
      simp [RollupSource.keys, AggregateRunRow.text, KevinDb.rollupGroup, AggregateGroup.get,
        AggregateGroup.empty, AggregateRunRow.rollupGroup, hbucket, timeBucket_bucketNanos]
  rw [groupVariants, hfeedback, foldl_expandGroupVariants_single hkeys, List.map_cons, List.map_nil,
    hgroup, attachFeedbackMetrics, RunAggregateQuery.attachedScores]
  cases query.feedbackKeys.isEmpty with
  | true => rfl
  | false =>
    cases hscores : query.scoresOf scores with
    | nil => rfl
    | cons score scores => rfl

end KevinDb
