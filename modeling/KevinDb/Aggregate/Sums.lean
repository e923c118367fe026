import KevinDb.Aggregate.Cells
import KevinDb.Lib.Machine
import KevinDb.Thread.Rows

namespace KevinDb
set_option autoImplicit true

/-- `sum_i64`. The outer option is empty if the sum overflows. -/
def sumI64 (values : List Int) : Option (Option Int) :=
  if values = [] then some none else (boundedSum i64Min i64Max values).map some

/-- `avg_i64`. -/
def avgI64 (values : List Int) : Option (Option ℚ) :=
  if values = [] then some none
  else (boundedSum i64Min i64Max values).map fun sum => some (sum / values.length)

/-- `RollupAccumulator::finish` with its sums as machine integers. -/
def RollupAccumulator.finishI64 (accumulator : RollupAccumulator) : Option RollupStats := do
  let latencyNanos := accumulator.latencyNanos.insertionSort (· ≤ ·)
  let latencyAvgNanos ← avgI64 latencyNanos
  let promptTokensSum ← sumI64 accumulator.promptTokens
  let promptTokensAvg ← avgI64 accumulator.promptTokens
  let completionTokensSum ← sumI64 accumulator.completionTokens
  let completionTokensAvg ← avgI64 accumulator.completionTokens
  let totalTokensSum ← sumI64 accumulator.totalTokens
  let totalTokensAvg ← avgI64 accumulator.totalTokens
  return {
    runCount := accumulator.runCount
    errorCount := accumulator.errorCount
    latencyMinNanos := latencyNanos.head?
    latencyMaxNanos := latencyNanos.getLast?
    latencyAvgNanos := latencyAvgNanos
    latencyP50Nanos := percentile (rationals latencyNanos) 50
    latencyP95Nanos := percentile (rationals latencyNanos) 95
    latencyP99Nanos := percentile (rationals latencyNanos) 99
    promptTokensSum := promptTokensSum
    promptTokensAvg := promptTokensAvg
    completionTokensSum := completionTokensSum
    completionTokensAvg := completionTokensAvg
    totalTokensSum := totalTokensSum
    totalTokensAvg := totalTokensAvg
    promptCostSum := total accumulator.promptCost
    promptCostAvg := average accumulator.promptCost
    completionCostSum := total accumulator.completionCost
    completionCostAvg := average accumulator.completionCost
    totalCostSum := total accumulator.totalCost
    totalCostAvg := average accumulator.totalCost
    evaluatorScoreAvg := average accumulator.evaluatorScore }

/-- `ThreadTotals.sum` with the sums of tokens as machine integers. -/
def ThreadTotals.sumI64 (totals : List ThreadTotals) : Option ThreadTotals := do
  let promptTokens ← KevinDb.sumI64 (totals.filterMap promptTokens)
  let completionTokens ← KevinDb.sumI64 (totals.filterMap completionTokens)
  let totalTokens ← KevinDb.sumI64 (totals.filterMap totalTokens)
  return {
    promptTokens := promptTokens
    completionTokens := completionTokens
    totalTokens := totalTokens
    promptCost := total (totals.filterMap promptCost)
    completionCost := total (totals.filterMap completionCost)
    totalCost := total (totals.filterMap totalCost) }

/-- What the payload and the times of a run can come to: a count is read if it is not negative, and
a latency is taken if it is positive. -/
structure TypedRunMetrics.Accepted (metrics : TypedRunMetrics) : Prop where
  latencyNanos : 0 ≤ metrics.latencyNanos ∧ metrics.latencyNanos ≤ i64Max
  promptTokens : ∀ count, metrics.promptTokens = some count → 0 ≤ count ∧ count ≤ i64Max
  completionTokens : ∀ count, metrics.completionTokens = some count → 0 ≤ count ∧ count ≤ i64Max
  totalTokens : ∀ count, metrics.totalTokens = some count → 0 ≤ count ∧ count ≤ i64Max

/-- The latencies and the counts of some runs have sums that fit. -/
structure SumsFit (runs : List RunHead) : Prop where
  latencyNanos : (runs.map fun run => run.metrics.latencyNanos).sum ≤ i64Max
  promptTokens : (runs.filterMap fun run => run.metrics.promptTokens).sum ≤ i64Max
  completionTokens : (runs.filterMap fun run => run.metrics.completionTokens).sum ≤ i64Max
  totalTokens : (runs.filterMap fun run => run.metrics.totalTokens).sum ≤ i64Max

/-- What the rollup of some runs has collected. -/
def rollupOf (runs : List RunHead) : RollupAccumulator :=
  (runs.map RollupRun.ofHead).foldl RollupAccumulator.push .empty

/-- The sums over the runs of some traces are those of the integers: in the rollup of all of them,
in the row of each trace, and in the row of the thread that sums up the traces. -/
structure SumsExact (traces : List (List RunHead)) : Prop where
  rollup : (rollupOf traces.flatten).finishI64 = some (rollupOf traces.flatten).finish
  trace : ∀ runs ∈ traces, ThreadTotals.sumI64 (runs.map RunHead.threadTotals) =
    some (.sum (runs.map RunHead.threadTotals))
  thread : ThreadTotals.sumI64 (traces.map fun runs => .sum (runs.map RunHead.threadTotals)) =
    some (.sum (traces.map fun runs => .sum (runs.map RunHead.threadTotals)))

variable {values : List Int} {runs : List RunHead} {traces : List (List RunHead)}

theorem boundedSum_i64 (hvalues : ∀ value ∈ values, 0 ≤ value) :
    boundedSum i64Min i64Max values = if values.sum ≤ i64Max then some values.sum else none :=
  boundedSum_of_nonneg hvalues (by decide) (by decide)

theorem sumI64_eq (hvalues : ∀ value ∈ values, 0 ≤ value) :
    sumI64 values = if values.sum ≤ i64Max then some (total values) else none := by
  rw [sumI64, boundedSum_i64 hvalues, total]
  cases values with
  | nil => rfl
  | cons value values =>
    rw [if_neg (List.cons_ne_nil _ _)]
    split
    · rfl
    · rfl

theorem avgI64_eq (hvalues : ∀ value ∈ values, 0 ≤ value) :
    avgI64 values = if values.sum ≤ i64Max then some (average (rationals values)) else none := by
  rw [avgI64, boundedSum_i64 hvalues, average]
  cases values with
  | nil => rfl
  | cons value values =>
    have hrationals : rationals (value :: values) ≠ [] := List.cons_ne_nil _ _
    rw [if_neg (List.cons_ne_nil _ _), if_neg hrationals, rationals, List.length_map,
      ← Int.cast_list_sum]
    split
    · rfl
    · rfl

/-- A rollup of values that are not negative overflows exactly if one of its four sums does. -/
theorem RollupAccumulator.finishI64_eq {accumulator : RollupAccumulator}
    (hlatency : ∀ value ∈ accumulator.latencyNanos, 0 ≤ value)
    (hprompt : ∀ value ∈ accumulator.promptTokens, 0 ≤ value)
    (hcompletion : ∀ value ∈ accumulator.completionTokens, 0 ≤ value)
    (htotal : ∀ value ∈ accumulator.totalTokens, 0 ≤ value) :
    accumulator.finishI64 =
      if accumulator.latencyNanos.sum ≤ i64Max ∧ accumulator.promptTokens.sum ≤ i64Max ∧
        accumulator.completionTokens.sum ≤ i64Max ∧ accumulator.totalTokens.sum ≤ i64Max then
        some accumulator.finish
      else none := by
  have hsorted : (accumulator.latencyNanos.insertionSort (· ≤ ·)).Perm accumulator.latencyNanos :=
    List.perm_insertionSort _ _
  have hsum := hsorted.sum_eq
  rw [RollupAccumulator.finishI64, avgI64_eq fun value hvalue =>
      hlatency value (hsorted.mem_iff.1 hvalue), hsum, sumI64_eq hprompt, avgI64_eq hprompt,
    sumI64_eq hcompletion, avgI64_eq hcompletion, sumI64_eq htotal, avgI64_eq htotal]
  by_cases hl : accumulator.latencyNanos.sum ≤ i64Max
  · by_cases hp : accumulator.promptTokens.sum ≤ i64Max
    · by_cases hc : accumulator.completionTokens.sum ≤ i64Max
      · by_cases ht : accumulator.totalTokens.sum ≤ i64Max
        · simp only [hl, hp, hc, ht, if_true, and_self]
          rfl
        · simp [hl, hp, hc, ht]
      · simp [hl, hp, hc]
    · simp [hl, hp]
  · simp [hl]

/-- The sums of a thread or a trace overflow exactly if one of the three of tokens does. -/
theorem ThreadTotals.sumI64_eq {totals : List ThreadTotals}
    (hprompt : ∀ value ∈ totals.filterMap promptTokens, 0 ≤ value)
    (hcompletion : ∀ value ∈ totals.filterMap completionTokens, 0 ≤ value)
    (htotal : ∀ value ∈ totals.filterMap totalTokens, 0 ≤ value) :
    ThreadTotals.sumI64 totals =
      if (totals.filterMap promptTokens).sum ≤ i64Max ∧
        (totals.filterMap completionTokens).sum ≤ i64Max ∧
        (totals.filterMap totalTokens).sum ≤ i64Max then some (.sum totals)
      else none := by
  rw [ThreadTotals.sumI64, KevinDb.sumI64_eq hprompt, KevinDb.sumI64_eq hcompletion,
    KevinDb.sumI64_eq htotal]
  by_cases hp : (totals.filterMap promptTokens).sum ≤ i64Max
  · by_cases hc : (totals.filterMap completionTokens).sum ≤ i64Max
    · by_cases ht : (totals.filterMap totalTokens).sum ≤ i64Max
      · simp only [hp, hc, ht, if_true, and_self]
        rfl
      · simp [hp, hc, ht]
    · simp [hp, hc]
  · simp [hp]

/-- Sums of the parts, where there are any, sum up to the sum of the whole. -/
theorem sum_filterMap_total (f : RunHead → Option Int) (traces : List (List RunHead)) :
    (traces.filterMap fun runs => total (runs.filterMap f)).sum =
      (traces.flatten.filterMap f).sum := by
  induction traces with
  | nil => rfl
  | cons runs traces ih =>
    rw [List.flatten_cons, List.filterMap_append, List.sum_append, ← ih]
    cases hruns : runs.filterMap f with
    | nil => rw [List.filterMap_cons_none (by rw [hruns]; rfl), List.sum_nil, Int.zero_add]
    | cons value values => rw [List.filterMap_cons_some (by rw [hruns]; rfl), List.sum_cons]

theorem rollupOf_eq (runs : List RunHead) :
    (rollupOf runs).latencyNanos = runs.map (fun run => run.metrics.latencyNanos) ∧
      (rollupOf runs).promptTokens = runs.filterMap (fun run => run.metrics.promptTokens) ∧
      (rollupOf runs).completionTokens = runs.filterMap (fun run => run.metrics.completionTokens) ∧
      (rollupOf runs).totalTokens = runs.filterMap (fun run => run.metrics.totalTokens) := by
  rw [rollupOf, RollupAccumulator.foldl_push]
  refine ⟨?_, ?_, ?_, ?_⟩
  · exact (List.nil_append _).trans List.map_map
  · exact (List.nil_append _).trans List.filterMap_map
  · exact (List.nil_append _).trans List.filterMap_map
  · exact (List.nil_append _).trans List.filterMap_map

/-- The values of a count are not negative, nor are they in a part of the runs. -/
theorem forall_mem_filterMap {f : RunHead → Option Int}
    (hf : ∀ run ∈ runs, ∀ value, f run = some value → 0 ≤ value) :
    ∀ value ∈ runs.filterMap f, 0 ≤ value := by
  intro value hvalue
  obtain ⟨run, hrun, hsome⟩ := List.mem_filterMap.1 hvalue
  exact hf run hrun value hsome

/-- A part of the runs has a sum that is not greater. -/
theorem sum_filterMap_le {f : RunHead → Option Int}
    (hf : ∀ run ∈ traces.flatten, ∀ value, f run = some value → 0 ≤ value) (hruns : runs ∈ traces) :
    (runs.filterMap f).sum ≤ (traces.flatten.filterMap f).sum := by
  apply List.Sublist.sum_le_sum
  · exact (List.sublist_flatten_of_mem hruns).filterMap f
  · exact forall_mem_filterMap hf

theorem total_nonneg (hvalues : ∀ value ∈ values, 0 ≤ value) {sum : Int}
    (hsum : total values = some sum) : 0 ≤ sum := by
  rw [total] at hsum
  split at hsum
  · cases hsum
  · cases hsum
    exact List.sum_nonneg hvalues

section Accepted

variable (haccepted : ∀ run ∈ traces.flatten, run.metrics.Accepted)

include haccepted in
theorem rollup_exact_iff : (rollupOf traces.flatten).finishI64 =
    some (rollupOf traces.flatten).finish ↔ SumsFit traces.flatten := by
  obtain ⟨hlatency, hprompt, hcompletion, htotal⟩ := rollupOf_eq traces.flatten
  rw [RollupAccumulator.finishI64_eq, hlatency, hprompt, hcompletion, htotal,
    Option.ite_none_right_eq_some]
  · constructor
    · rintro ⟨⟨hl, hp, hc, ht⟩, -⟩
      exact ⟨hl, hp, hc, ht⟩
    · rintro ⟨hl, hp, hc, ht⟩
      exact ⟨⟨hl, hp, hc, ht⟩, rfl⟩
  · rw [hlatency]
    intro value hvalue
    obtain ⟨run, hrun, rfl⟩ := List.mem_map.1 hvalue
    exact (haccepted run hrun).latencyNanos.1
  · rw [hprompt]
    exact forall_mem_filterMap fun run hrun count h =>
      ((haccepted run hrun).promptTokens count h).1
  · rw [hcompletion]
    exact forall_mem_filterMap fun run hrun count h =>
      ((haccepted run hrun).completionTokens count h).1
  · rw [htotal]
    exact forall_mem_filterMap fun run hrun count h =>
      ((haccepted run hrun).totalTokens count h).1

include haccepted in
/-- The totals of a trace fit if those of all runs do. -/
theorem trace_exact (hfit : SumsFit traces.flatten) (hruns : runs ∈ traces) :
    ThreadTotals.sumI64 (runs.map RunHead.threadTotals) =
      some (.sum (runs.map RunHead.threadTotals)) := by
  have hmem : ∀ run ∈ runs, run ∈ traces.flatten := fun run hrun =>
    List.mem_flatten.2 ⟨runs, hruns, hrun⟩
  have hcolumn : ∀ f : ThreadTotals → Option Int, (runs.map RunHead.threadTotals).filterMap f =
      runs.filterMap fun run => f run.threadTotals := fun f => List.filterMap_map
  rw [ThreadTotals.sumI64_eq, hcolumn, hcolumn, hcolumn, if_pos]
  · refine ⟨?_, ?_, ?_⟩
    · exact (sum_filterMap_le (fun run hrun count h =>
        ((haccepted run hrun).promptTokens count h).1) hruns).trans hfit.promptTokens
    · exact (sum_filterMap_le (fun run hrun count h =>
        ((haccepted run hrun).completionTokens count h).1) hruns).trans hfit.completionTokens
    · exact (sum_filterMap_le (fun run hrun count h =>
        ((haccepted run hrun).totalTokens count h).1) hruns).trans hfit.totalTokens
  · rw [hcolumn]
    exact forall_mem_filterMap fun run hrun count h =>
      ((haccepted run (hmem run hrun)).promptTokens count h).1
  · rw [hcolumn]
    exact forall_mem_filterMap fun run hrun count h =>
      ((haccepted run (hmem run hrun)).completionTokens count h).1
  · rw [hcolumn]
    exact forall_mem_filterMap fun run hrun count h =>
      ((haccepted run (hmem run hrun)).totalTokens count h).1

include haccepted in
/-- And so do the totals of the thread. -/
theorem thread_exact (hfit : SumsFit traces.flatten) :
    ThreadTotals.sumI64 (traces.map fun runs => .sum (runs.map RunHead.threadTotals)) =
      some (.sum (traces.map fun runs => .sum (runs.map RunHead.threadTotals))) := by
  have hcolumn : ∀ (f : ThreadTotals → Option Int) (g : RunHead → Option Int),
      (∀ runs : List RunHead, f (.sum (runs.map RunHead.threadTotals)) = total (runs.filterMap g)) →
        (traces.map fun runs => ThreadTotals.sum (runs.map RunHead.threadTotals)).filterMap f =
          traces.filterMap fun runs => total (runs.filterMap g) := by
    intro f g hf
    rw [List.filterMap_map]
    exact List.filterMap_congr fun runs _ => hf runs
  have hnonneg : ∀ g : RunHead → Option Int,
      (∀ run ∈ traces.flatten, ∀ value, g run = some value → 0 ≤ value) →
        ∀ value ∈ traces.filterMap (fun runs => total (runs.filterMap g)), 0 ≤ value := by
    intro g hg value hvalue
    obtain ⟨runs, hruns, hsum⟩ := List.mem_filterMap.1 hvalue
    exact total_nonneg (forall_mem_filterMap fun run hrun =>
      hg run (List.mem_flatten.2 ⟨runs, hruns, hrun⟩)) hsum
  have hprompt := hcolumn ThreadTotals.promptTokens (fun run => run.metrics.promptTokens)
    fun _ => congrArg total List.filterMap_map
  have hcompletion := hcolumn ThreadTotals.completionTokens
    (fun run => run.metrics.completionTokens)
    fun _ => congrArg total List.filterMap_map
  have htotal := hcolumn ThreadTotals.totalTokens (fun run => run.metrics.totalTokens)
    fun _ => congrArg total List.filterMap_map
  rw [ThreadTotals.sumI64_eq, hprompt, hcompletion, htotal, sum_filterMap_total,
    sum_filterMap_total, sum_filterMap_total, if_pos]
  · exact ⟨hfit.promptTokens, hfit.completionTokens, hfit.totalTokens⟩
  · rw [hprompt]
    exact hnonneg _ fun run hrun count h => ((haccepted run hrun).promptTokens count h).1
  · rw [hcompletion]
    exact hnonneg _ fun run hrun count h => ((haccepted run hrun).completionTokens count h).1
  · rw [htotal]
    exact hnonneg _ fun run hrun count h => ((haccepted run hrun).totalTokens count h).1

end Accepted

/-- The head of a run with a count of tokens in its payload. -/
def RunHead.withTokens (totalTokens : Int) : RunHead :=
  .ofRecord
    { newV5 := Externals.sample.newV5
      typedRunMetrics := fun record =>
        { Externals.sample.typedRunMetrics record with totalTokens := some totalTokens } }
    { SpanRecord.sample "t" "s" "n" .«end» 10 30 with
      attributesJson := "\x7b\"total_tokens\":" ++ toString totalTokens ++ "\x7d" }
    ⟨"", ""⟩ 0 0 0

end KevinDb
