import KevinDb.Lib.Grouping
import KevinDb.Lib.Statistics

namespace KevinDb
set_option autoImplicit true
open Std

/-- A double, finite or not. -/
inductive Score where
  | finite (value : ℚ)
  | nonFinite
deriving DecidableEq

def Score.value : Score → Option ℚ
  | .finite value => some value
  | .nonFinite => none

/-- A row of `feedback`. The score is the number that `json_option_to_f64` found in it. -/
structure FeedbackRecord where
  id : String
  runId : Option String
  projectName : Option String
  key : String
  scoreNumber : Option Score
  createdAtUnixNano : Int
deriving DecidableEq

/-- An hour. -/
def bucketNanos : Int := 60 * 60 * 1000000000

def rollupTimeBucket (unixNano : Int) : Int := unixNano / bucketNanos * bucketNanos

/-- The primary key of `feedback_metric_rollups` within a project. -/
structure FeedbackGroup where
  timeBucketStartUnixNano : Int
  feedbackKey : String
deriving DecidableEq, Repr

instance : Ord FeedbackGroup where
  compare a b := (compare a.timeBucketStartUnixNano b.timeBucketStartUnixNano).then
    (compare a.feedbackKey b.feedbackKey)

instance : TransOrd FeedbackGroup :=
  inferInstanceAs (TransCmp (compareLex (compareOn FeedbackGroup.timeBucketStartUnixNano)
    (compareOn FeedbackGroup.feedbackKey)))

instance : LawfulEqOrd FeedbackGroup where
  eq_of_compare {a b} h := by
    have hc : (compare a.timeBucketStartUnixNano b.timeBucketStartUnixNano).then
        (compare a.feedbackKey b.feedbackKey) = .eq := h
    simp only [Ordering.then_eq_eq, LawfulEqCmp.compare_eq_iff_eq] at hc
    obtain ⟨ht, hk⟩ := hc
    cases a
    cases b
    simp_all only

def FeedbackRecord.group (record : FeedbackRecord) : FeedbackGroup :=
  ⟨rollupTimeBucket record.createdAtUnixNano, record.key⟩

structure FeedbackRollupAccumulator where
  feedbackCount : Nat
  scoreNumbers : List ℚ
  missingScores : Nat

def FeedbackRollupAccumulator.empty : FeedbackRollupAccumulator := ⟨0, [], 0⟩

def FeedbackRollupAccumulator.push (accumulator : FeedbackRollupAccumulator)
    (score : Option Score) : FeedbackRollupAccumulator :=
  match score.bind Score.value with
  | some value => { accumulator with
      feedbackCount := accumulator.feedbackCount + 1
      scoreNumbers := accumulator.scoreNumbers ++ [value] }
  | none => { accumulator with
      feedbackCount := accumulator.feedbackCount + 1
      missingScores := accumulator.missingScores + 1 }

def scoreBucket (value : ℚ) : String :=
  if value < 0 then "lt_0"
  else if value < 1 / 4 then "0_to_0_25"
  else if value < 1 / 2 then "0_25_to_0_5"
  else if value < 3 / 4 then "0_5_to_0_75"
  else if value ≤ 1 then "0_75_to_1"
  else "gt_1"

def scoreBuckets : List String :=
  ["lt_0", "0_to_0_25", "0_25_to_0_5", "0_5_to_0_75", "0_75_to_1", "gt_1"]

/-- Count the values in their buckets, which start as given. -/
def countScores (initial : Table String Nat) (values : List ℚ) : Table String Nat :=
  values.foldl (fun counts value =>
    counts.insert (scoreBucket value) (counts[scoreBucket value]?.getD 0 + 1)) initial

def noScores : Table String Nat :=
  scoreBuckets.foldl (fun (counts : Table String Nat) bucket => counts.insert bucket 0) ∅

/-- `feedback_distribution` of the scan. -/
def feedbackDistribution (values : List ℚ) : Table String Nat := countScores noScores values

/-- `feedback_distribution_json` of the rollup, which also has the missing scores. -/
def feedbackRollupDistribution (values : List ℚ) (missing : Nat) : Table String Nat :=
  countScores (noScores.insert "missing" missing) values

structure FeedbackRollupStats where
  feedbackCount : Nat
  scoreCount : Nat
  scoreMin : Option ℚ
  scoreMax : Option ℚ
  scoreAvg : Option ℚ
  scoreP50 : Option ℚ
  scoreP95 : Option ℚ
  scoreP99 : Option ℚ
  scoreDistribution : List (String × Nat)
deriving DecidableEq

def FeedbackRollupAccumulator.finish (accumulator : FeedbackRollupAccumulator) :
    FeedbackRollupStats :=
  let sorted := ascending accumulator.scoreNumbers
  { feedbackCount := accumulator.feedbackCount
    scoreCount := sorted.length
    scoreMin := sorted.head?
    scoreMax := sorted.getLast?
    scoreAvg := average sorted
    scoreP50 := percentile sorted 50
    scoreP95 := percentile sorted 95
    scoreP99 := percentile sorted 99
    scoreDistribution :=
      (feedbackRollupDistribution sorted accumulator.missingScores).toList }

abbrev FeedbackTable := Table String FeedbackRecord

/-- The feedback rows of a project. -/
def FeedbackTable.rowsOf (feedback : FeedbackTable) (projectName : String) :
    List FeedbackRecord :=
  (feedback.toList.filter fun entry => entry.2.projectName = some projectName).map Prod.snd

def FeedbackTable.groups (feedback : FeedbackTable) (projectName : String) :
    Table FeedbackGroup FeedbackRollupAccumulator :=
  groupFold FeedbackRecord.group .empty
    (fun accumulator record => accumulator.push record.scoreNumber) (feedback.rowsOf projectName)

/-- What `refresh_feedback_metric_rollups` inserts, one group after another. -/
def FeedbackTable.rollups (feedback : FeedbackTable) (projectName : String) :
    List (FeedbackGroup × FeedbackRollupStats) :=
  (feedback.groups projectName).toList.map fun entry => (entry.1, entry.2.finish)

/-- The insert of `insert_feedback`: a row under the same id keeps its creation time. -/
def FeedbackTable.upsertRecord (feedback : FeedbackTable) (record : FeedbackRecord) :
    FeedbackTable :=
  feedback.insert record.id { record with
    createdAtUnixNano := (feedback[record.id]?.map (·.createdAtUnixNano)).getD
      record.createdAtUnixNano }

/-- `affected_projects`, in their order. -/
def affectedProjects (oldProjectName projectName : Option String) : List String :=
  (oldProjectName.toList ++ projectName.toList).dedup.insertionSort (· ≤ ·)

variable {feedback : FeedbackTable} {record : FeedbackRecord} {p : String}

theorem FeedbackTable.get_upsertRecord (id : String) :
    (feedback.upsertRecord record)[id]? = if record.id = id then
      some { record with
        createdAtUnixNano := (feedback[record.id]?.map (·.createdAtUnixNano)).getD
          record.createdAtUnixNano }
    else feedback[id]? :=
  Table.get_insert _ _ _ _

theorem mem_affectedProjects {oldProjectName projectName : Option String} :
    p ∈ affectedProjects oldProjectName projectName ↔
      oldProjectName = some p ∨ projectName = some p := by
  simp [affectedProjects]

/-- A row that comes from none of the projects and goes to none of them is not theirs. -/
theorem FeedbackTable.rollups_upsertRecord (hp : p ∉ affectedProjects
    (feedback[record.id]?.bind (·.projectName)) record.projectName) :
    (feedback.upsertRecord record).rollups p = feedback.rollups p := by
  rw [mem_affectedProjects, not_or] at hp
  have hrows : (feedback.upsertRecord record).rowsOf p = feedback.rowsOf p := by
    rw [FeedbackTable.rowsOf, FeedbackTable.rowsOf]
    congr 1
    apply Table.filter_toList_congr
    intro id other hother
    have hproject : other.projectName = some p := of_decide_eq_true hother
    rw [FeedbackTable.get_upsertRecord]
    split
    · next hid =>
      subst hid
      apply iff_of_false
      · intro h
        obtain rfl := Option.some.inj h
        exact hp.2 hproject
      · intro h
        rw [h] at hp
        exact hp.1 hproject
    · exact Iff.rfl
  rw [FeedbackTable.rollups, FeedbackTable.rollups, FeedbackTable.groups, hrows,
    FeedbackTable.groups]

/-- Each group of a project has one rollup. -/
theorem FeedbackTable.rollups_nodup (feedback : FeedbackTable) (p : String) :
    ((feedback.rollups p).map Prod.fst).Nodup := by
  rw [FeedbackTable.rollups, List.map_map]
  exact TreeMap.map_fst_toList_eq_keys ▸ TreeMap.nodup_keys

theorem FeedbackRollupAccumulator.foldl_push_count (records : List FeedbackRecord)
    (accumulator : FeedbackRollupAccumulator) :
    (records.foldl (fun accumulator record => accumulator.push record.scoreNumber)
      accumulator).feedbackCount = accumulator.feedbackCount + records.length := by
  induction records generalizing accumulator with
  | nil => rfl
  | cons record records ih =>
    rw [List.foldl_cons, ih, List.length_cons, FeedbackRollupAccumulator.push]
    split <;> dsimp only <;> omega

/-- A feedback row is counted in the rollup of its group. -/
theorem FeedbackTable.counted {id : String} (hid : feedback[id]? = some record)
    (hp : record.projectName = some p) :
    ∃ stats, (record.group, stats) ∈ feedback.rollups p ∧
      stats.feedbackCount =
        ((feedback.rowsOf p).filter fun other => other.group = record.group).length ∧
      record ∈ feedback.rowsOf p := by
  have hrow : record ∈ feedback.rowsOf p := by
    rw [FeedbackTable.rowsOf, List.mem_map]
    refine ⟨(id, record), List.mem_filter.2 ⟨?_, decide_eq_true hp⟩, rfl⟩
    exact TreeMap.mem_toList_iff_getElem?_eq_some.2 hid
  have hgroup : (feedback.groups p)[record.group]? = some _ :=
    (get_groupFold_eq_some record.group).2 ⟨⟨record, hrow, rfl⟩, rfl⟩
  have hentry := TreeMap.mem_toList_iff_getElem?_eq_some.2 hgroup
  refine ⟨_, List.mem_map.2 ⟨_, hentry, rfl⟩, ?_, hrow⟩
  exact (FeedbackRollupAccumulator.foldl_push_count _ _).trans (Nat.zero_add _)

end KevinDb
