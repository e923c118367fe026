import KevinDb.Compaction.Content
import KevinDb.Compaction.Visibility

namespace KevinDb
set_option autoImplicit true

variable {x : Externals} {w : World} {k : RunKey}

/-- The steps of `compact_project`. -/
def Action.isCompaction : Action → Bool
  | .readIds _ | .listRuns .. | .persist .. | .mark .. | .stop _ => true
  | .ingest .. | .delete .. | .expire .. => false

/-- The live runs are the given ones, and the pending copies show them. -/
structure System.Keeps (runs : RunKey → Option RunSummary) (s : System) : Prop where
  liveRun : ∀ k, s.world.liveRun k = runs k
  pending : ∀ execution ∈ s.executions, ∀ copy ∈ execution.pending,
    runs copy.runKey = some (RunSummary.ofRecord copy)

/-- A copy that shows a live run fits its head. -/
theorem World.Consistent.copyFits (hw : w.Consistent x)
    (hlive : w.liveRun copy.runKey = some (RunSummary.ofRecord copy)) : w.CopyFits copy := by
  obtain ⟨head, hhead, hdeleted, hcontent⟩ := World.liveRun_eq_some.1 hlive
  have htime := hw.content_time hhead hdeleted hcontent
  exact ⟨head, hhead, htime.le, fun _ => hcontent⟩

/-- A listing makes copies that show the live runs. -/
theorem Execution.liveRun_of_listed {execution new : Execution} (hw : w.Consistent x)
    (hlisted : w.listRuns execution.projectName = some shown) (hperm : runs.Perm shown)
    (hnew : execution.listed runs = some new) :
    ∀ copy ∈ new.pending, w.liveRun copy.runKey = some (RunSummary.ofRecord copy) := by
  intro copy hcopy
  rw [Execution.mem_pending_listed hnew, Execution.mem_copies hw hlisted hperm] at hcopy
  obtain ⟨record, hrecord, rfl⟩ := hcopy
  obtain ⟨k, row, hk, hlive, hrow, rfl, -⟩ := World.mem_shownRecords hw hrecord
  rw [RunSummary.ofRecord_copy]
  exact World.liveRun_eq_some.2 ⟨row.forgetTree, Db.head_of_runHeads hk, (hw.isLive_iff hk).1 hlive,
    World.content_eq_some.2 ⟨record, hrow, rfl⟩⟩

theorem World.liveRun_mark (w : World) (ids : List Nat) (time : Int) :
    World.liveRun { w with db := w.db.markSegmentsCompacted ids time } = w.liveRun := by
  funext k
  unfold World.liveRun World.content
  rw [World.rowAt_mark]
  rfl

theorem System.Keeps.step {runs : RunKey → Option RunSummary} {s s' : System}
    (hs : s.Keeps runs) (hc : s.world.Consistent x) (hcompaction : action.isCompaction)
    (h : s.step x maxSpansPerSegment action = some s') : s'.Keeps runs := by
  cases System.step_cases h with
  | ingest => cases hcompaction
  | delete => cases hcompaction
  | expire => cases hcompaction
  | readIds projectName =>
    refine ⟨hs.liveRun, ?_⟩
    intro e he
    rcases List.mem_append.1 he with he | he
    · exact hs.pending e he
    · rw [List.mem_singleton.1 he]
      exact List.forall_mem_nil _
  | listRuns i listing shown execution hi hstage hshown hperm =>
    refine ⟨hs.liveRun, ?_⟩
    intro e he
    rcases System.mem_update he with he | he
    · exact hs.pending e he
    · intro copy hcopy
      rw [← hs.liveRun]
      exact Execution.liveRun_of_listed hc hshown hperm he copy hcopy
  | persist i name fault execution partition records work world turn hi hstage hfree hturn =>
    have hmem := List.mem_of_getElem? hi
    constructor
    · intro k
      rw [← hs.liveRun k]
      refine World.Changes.liveRun_of_copies hc (hturn.writes hfree) ?_ k
      intro copy hcopy
      exact hc.copyFits ((hs.liveRun _).trans (hs.pending execution hmem copy
        (Execution.turnCommitted_pending hstage _ hcopy)))
    · intro e he
      rcases System.mem_update he with he | he
      · exact hs.pending e he
      · intro copy hcopy
        exact hs.pending execution hmem copy (Execution.pending_turned hstage hturn he hcopy)
  | mark i time execution hi hstage =>
    refine ⟨?_, fun e he => hs.pending e (List.mem_of_mem_eraseIdx he)⟩
    rw [World.liveRun_mark]
    exact hs.liveRun
  | stop i => exact ⟨hs.liveRun, fun e he => hs.pending e (List.mem_of_mem_eraseIdx he)⟩

/-- From any state without executions, compactions that run and stop at any point leave the live
runs, the listings and the loaded runs as they were. -/
theorem compaction_preserves_runs (x : Externals) (maxSpansPerSegment : Nat)
    (before after : List Action) (s s' : System)
    (h : Transition.run (System.step x maxSpansPerSegment) .initial before = some s)
    (hidle : s.executions = []) (hcompaction : ∀ action ∈ after, action.isCompaction)
    (h' : Transition.run (System.step x maxSpansPerSegment) s after = some s')
    (hheld : Transition.Meets (System.step x maxSpansPerSegment) System.keysHeldByCopies .initial
      (before ++ after)) :
    (∀ k : RunKey, (∃ head ∈ s'.world.db.runHeads[k]?, s'.world.db.isLive k head) ↔
      ∃ head ∈ s.world.db.runHeads[k]?, s.world.db.isLive k head) ∧
    (∀ projectName, s'.world.listRuns projectName = s.world.listRuns projectName) ∧
    ∀ runId, s.world.db.tellsApart runId →
      s'.world.loadRunById runId = s.world.loadRunById runId := by
  have hv := Transition.run_invariant _ (System.Visible.step x maxSpansPerSegment)
    (System.Visible.initial x) hheld.of_append h
  have hv' := Transition.run_invariant _ (System.Visible.step x maxSpansPerSegment) hv
    (hheld.after h) h'
  have hkeeps : s'.world.Consistent x ∧ s'.Keeps s.world.liveRun := by
    refine Transition.run_invariant (fun t => t.world.Consistent x ∧ t.Keeps s.world.liveRun) ?_
      ⟨hv.consistent, fun _ => rfl, ?_⟩ (.and_of_forall hcompaction (hheld.after h)) h'
    · intro t action t' ht hcond hstep
      exact ⟨World.Consistent.step x maxSpansPerSegment t action t' ht.1 hstep,
        ht.2.step ht.1 hcond.1 hstep⟩
    · rw [hidle]
      exact List.forall_mem_nil _
  have hlive := hkeeps.2.liveRun
  refine ⟨?_, World.listRuns_congr hv.consistent hv.active hv'.consistent hv'.active hlive, ?_⟩
  · intro k
    rw [hv.consistent.exists_isLive_iff, hv'.consistent.exists_isLive_iff, hlive]
  · intro runId happart
    exact World.loadRunById_congr hv.consistent hv.active hv'.consistent hv'.active hlive happart

/-- A compaction and the start of another one leave both runs listed. -/
theorem compaction_preserves_runs_two :
    ∃ s s', Transition.run (System.step .sample 1) .initial
        (ingestTwo (.sample "t" "s" "n" .«end» 10 30) (.sample "t" "u" "n" .«end» 10 30)) = some s ∧
      Transition.run (System.step .sample 1) s
        (listTwo (.sample "t" "s" "n" .«end» 10 30) (.sample "t" "u" "n" .«end» 10 30) ++
          [.persist 0 ⟨3, 3⟩ none, .persist 0 ⟨4, 4⟩ none, .persist 0 ⟨5, 5⟩ none, .mark 0 90] ++
          listTwo (.sample "t" "s" "n" .«end» 10 30) (.sample "t" "u" "n" .«end» 10 30) ++
          [.persist 0 ⟨6, 6⟩ none, .stop 0]) = some s' ∧
      s'.world.listRuns "p" = s.world.listRuns "p" ∧
      s'.world.loadRunById "u" = s.world.loadRunById "u" := by
  generalize hbefore : ingestTwo _ _ = before
  generalize hafter : listTwo _ _ ++ _ ++ _ ++ _ = after
  have hrun : (Transition.run (System.step .sample 1) .initial before).map
      (fun s => (decide (s.executions = []), decide (s.world.db.tellsApart "u"),
        (Transition.run (System.step .sample 1) s after).isSome)) = some (true, true, true) := by
    subst hbefore hafter
    decide +kernel
  have hheld : Transition.Meets (System.step .sample 1) System.keysHeldByCopies .initial
      (before ++ after) := by
    subst hbefore hafter
    decide +kernel
  have hcompaction : ∀ action ∈ after, action.isCompaction := by
    subst hafter
    decide
  obtain ⟨s, hs, hfacts⟩ := Option.map_eq_some_iff.1 hrun
  obtain ⟨hidle, hfacts⟩ := Prod.mk.inj hfacts
  obtain ⟨happart, hsome⟩ := Prod.mk.inj hfacts
  obtain ⟨s', hs'⟩ := Option.isSome_iff_exists.1 hsome
  obtain ⟨-, hlist, hload⟩ := compaction_preserves_runs .sample 1 before after s s' hs
    (of_decide_eq_true hidle) hcompaction hs' hheld
  exact ⟨s, s', hs, hs', hlist "p", hload "u" (of_decide_eq_true happart)⟩

/-- A compaction whose two copies get one key takes a run off the listing. -/
theorem compaction_drops_run :
    ¬ ∀ (before after : List Action) (s s' : System),
      Transition.run (System.step .sample 1) .initial before = some s → s.executions = [] →
      (∀ action ∈ after, action.isCompaction) →
      Transition.run (System.step .sample 1) s after = some s' →
      ∀ projectName, s'.world.listRuns projectName = s.world.listRuns projectName := by
  intro hpreserves
  generalize hbefore : ingestTwo (.sample "a" "b:c" "n" .«end» 10 30)
    (.sample "a:b" "c" "n" .«end» 10 30) = before
  generalize hafter : listTwo (.sample "a" "b:c" "n" .«end» 10 30)
    (.sample "a:b" "c" "n" .«end» 10 30) ++
      [.persist 0 ⟨3, 3⟩ none, .persist 0 ⟨4, 4⟩ none, .mark 0 90] = after
  have hrun : (Transition.run (System.step .sample 1) .initial before).map
      (fun s => (decide (s.executions = []), (s.world.listRuns "p").map List.length,
        (Transition.run (System.step .sample 1) s after).map fun s' =>
          (s'.world.listRuns "p").map List.length)) =
      some (true, some 2, some (some 1)) := by
    subst hbefore hafter
    decide +kernel
  have hcompaction : ∀ action ∈ after, action.isCompaction := by
    subst hafter
    decide
  obtain ⟨s, hs, hfacts⟩ := Option.map_eq_some_iff.1 hrun
  obtain ⟨hidle, hfacts⟩ := Prod.mk.inj hfacts
  obtain ⟨hlisted, hfacts⟩ := Prod.mk.inj hfacts
  obtain ⟨s', hs', hlisted'⟩ := Option.map_eq_some_iff.1 hfacts
  rw [hpreserves before after s s' hs (of_decide_eq_true hidle) hcompaction hs' "p", hlisted]
    at hlisted'
  cases hlisted'

end KevinDb
