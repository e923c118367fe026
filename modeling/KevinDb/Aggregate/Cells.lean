import KevinDb.Aggregate.Groups
import KevinDb.Aggregate.Loading

namespace KevinDb
set_option autoImplicit true
open Std

theorem toList_append_filterMap (f : β → Option γ) (row : β) (rows : List β) :
    (f row).toList ++ rows.filterMap f = (row :: rows).filterMap f := by
  cases h : f row with
  | none => rw [List.filterMap_cons_none h, Option.toList_none, List.nil_append]
  | some value => rw [List.filterMap_cons_some h, Option.toList_some, List.singleton_append]

/-- What a rollup has collected from some runs. -/
theorem RollupAccumulator.foldl_push (runs : List RollupRun) (accumulator : RollupAccumulator) :
    runs.foldl RollupAccumulator.push accumulator =
      { runCount := accumulator.runCount + runs.length
        errorCount := accumulator.errorCount + runs.countP (·.status = .error)
        latencyNanos := accumulator.latencyNanos ++ runs.map (·.latencyNanos)
        promptTokens := accumulator.promptTokens ++ runs.filterMap (·.promptTokens)
        completionTokens := accumulator.completionTokens ++ runs.filterMap (·.completionTokens)
        totalTokens := accumulator.totalTokens ++ runs.filterMap (·.totalTokens)
        promptCost := accumulator.promptCost ++ runs.filterMap (·.promptCost)
        completionCost := accumulator.completionCost ++ runs.filterMap (·.completionCost)
        totalCost := accumulator.totalCost ++ runs.filterMap (·.totalCost)
        evaluatorScore := accumulator.evaluatorScore ++ runs.filterMap (·.evaluatorScore) } := by
  induction runs generalizing accumulator with
  | nil => simp
  | cons run runs ih =>
    rw [List.foldl_cons, ih, RollupAccumulator.push]
    simp only [List.append_assoc, toList_append_filterMap (fun run : RollupRun => run.promptTokens),
      toList_append_filterMap (fun run : RollupRun => run.completionTokens),
      toList_append_filterMap (fun run : RollupRun => run.totalTokens),
      toList_append_filterMap (fun run : RollupRun => run.promptCost),
      toList_append_filterMap (fun run : RollupRun => run.completionCost),
      toList_append_filterMap (fun run : RollupRun => run.totalCost),
      toList_append_filterMap (fun run : RollupRun => run.evaluatorScore), List.singleton_append,
      List.length_cons, List.countP_cons, List.map_cons, decide_eq_true_eq,
      RollupAccumulator.mk.injEq, and_true]
    omega

/-- What an aggregation has collected from some rows with their variants. -/
theorem AggregateAccumulator.foldl_push (pushes : List (AggregateRunRow × GroupVariant))
    (accumulator : AggregateAccumulator) :
    pushes.foldl (fun accumulator push => accumulator.push push.1 push.2.feedback) accumulator =
      { count := accumulator.count + pushes.length
        errorCount := accumulator.errorCount + pushes.countP (·.1.status = .error)
        latencyNanos := accumulator.latencyNanos ++ pushes.map fun push => (push.1.latencyNanos : ℚ)
        promptTokens := accumulator.promptTokens ++
          pushes.filterMap fun push => push.1.promptTokens.map Int.cast
        completionTokens := accumulator.completionTokens ++
          pushes.filterMap fun push => push.1.completionTokens.map Int.cast
        totalTokens := accumulator.totalTokens ++
          pushes.filterMap fun push => push.1.totalTokens.map Int.cast
        promptCost := accumulator.promptCost ++ pushes.filterMap fun push => push.1.promptCost
        completionCost := accumulator.completionCost ++
          pushes.filterMap fun push => push.1.completionCost
        totalCost := accumulator.totalCost ++ pushes.filterMap fun push => push.1.totalCost
        firstTokenLatencyNanos := accumulator.firstTokenLatencyNanos ++
          pushes.filterMap fun push => push.1.firstTokenLatencyNanos.map Int.cast
        evaluatorScore := accumulator.evaluatorScore ++
          pushes.filterMap fun push => push.1.evaluatorScore
        feedbackScores := pushScores accumulator.feedbackScores
          (pushes.flatMap fun push => push.2.feedback) } := by
  induction pushes generalizing accumulator with
  | nil => simp [pushScores]
  | cons push pushes ih =>
    have hoption : ∀ f : AggregateRunRow × GroupVariant → Option ℚ,
        (f push).toList ++ pushes.filterMap f = (push :: pushes).filterMap f :=
      fun f => toList_append_filterMap f push pushes
    have hscores : ∀ scores : Table String SummaryAccumulator,
        pushScores (pushScores scores push.2.feedback)
          (pushes.flatMap fun push => push.2.feedback) =
        pushScores scores ((push :: pushes).flatMap fun push => push.2.feedback) := by
      intro scores
      rw [List.flatMap_cons, pushScores, pushScores, pushScores, List.foldl_append]
    rw [List.foldl_cons, ih, AggregateAccumulator.push]
    simp only [SummaryAccumulator.pushOptionalI64, SummaryAccumulator.pushOptionalF64, hscores,
      List.append_assoc, ← hoption, List.singleton_append, List.length_cons, List.countP_cons,
      List.map_cons, decide_eq_true_eq, AggregateAccumulator.mk.injEq, and_true]
    omega

end KevinDb
