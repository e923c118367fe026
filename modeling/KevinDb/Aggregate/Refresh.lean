import KevinDb.Aggregate.Rollups
import KevinDb.Compaction.Visibility

namespace KevinDb
set_option autoImplicit true
open Std

/-- Two stores have the same runs of a project, up to the trees. -/
def Db.AgreesOn (projectName : String) (db db' : Db) : Prop :=
  ∀ k : RunKey, k.projectName = projectName →
    db'.head k = db.head k ∧ db'.runDeletions[k]? = db.runDeletions[k]?

/-- The rollups of every project are those of its live runs. -/
def RollupSystem.Fresh (s : RollupSystem) : Prop :=
  ∀ p, s.rollups.of p = s.system.world.db.aggregateRollups p

variable {x : Externals} {db db' : Db} {p : String} {w : World} {rollups : RunRollups}

theorem Db.AgreesOn.refl (p : String) (db : Db) : db.AgreesOn p db := fun _ _ => ⟨rfl, rfl⟩

theorem Db.AgreesOn.trans {db'' : Db} (h : db.AgreesOn p db') (h' : db'.AgreesOn p db'') :
    db.AgreesOn p db'' := by
  intro k hk
  obtain ⟨hhead, hdeletion⟩ := h k hk
  obtain ⟨hhead', hdeletion'⟩ := h' k hk
  exact ⟨hhead'.trans hhead, hdeletion'.trans hdeletion⟩

/-- Rollups do not read the trees. -/
theorem Db.rollupRuns_eq (db : Db) (p : String) :
    db.rollupRuns p = ((db.runHeads.map fun _ => RunHead.forgetTree).toList.filter fun row =>
      row.1.projectName = p && db.isLive row.1 row.2).map fun row => .ofHead row.2 := by
  rw [TreeMap.toList_map, List.filter_map, List.map_map]
  rfl

theorem Db.AgreesOn.rollupRuns (h : db.AgreesOn p db') : db'.rollupRuns p = db.rollupRuns p := by
  rw [Db.rollupRuns_eq, Db.rollupRuns_eq]
  have hlive : ∀ row : RunKey × RunHead,
      (decide (row.1.projectName = p) && db'.isLive row.1 row.2) =
        (decide (row.1.projectName = p) && db.isLive row.1 row.2) := by
    intro row
    by_cases hp : row.1.projectName = p
    · rw [Db.isLive, Db.isLive, (h row.1 hp).2]
    · rw [decide_eq_false hp, Bool.false_and, Bool.false_and]
  simp only [hlive]
  congr 1
  apply Table.filter_toList_congr
  intro k head hrow
  rw [Bool.and_eq_true, decide_eq_true_iff] at hrow
  rw [TreeMap.getElem?_map, TreeMap.getElem?_map]
  exact (congrArg (· = some head) (h k hrow.1).1).to_iff

theorem Db.AgreesOn.aggregateRollups (h : db.AgreesOn p db') :
    db'.aggregateRollups p = db.aggregateRollups p := by
  rw [Db.aggregateRollups, h.rollupRuns, Db.aggregateRollups]

theorem Db.agreesOn_of_head (hhead : db'.head = db.head)
    (hdeletions : db'.runDeletions = db.runDeletions) : db.AgreesOn p db' := by
  intro k _
  rw [hhead, hdeletions]
  exact ⟨rfl, rfl⟩

theorem RunRollups.of_refresh (q : String) : (rollups.refresh db p).of q =
    if p = q then db.aggregateRollups q else rollups.of q := by
  rw [RunRollups.of, RunRollups.refresh, Table.get_insert]
  split
  · next hq =>
    subst hq
    rfl
  · rfl

theorem RunRollups.of_foldl_refresh (projects : List String) (q : String) :
    (projects.foldl (fun rollups p => rollups.refresh db p) rollups).of q =
      if q ∈ projects then db.aggregateRollups q else rollups.of q := by
  induction projects generalizing rollups with
  | nil => rfl
  | cons p projects ih =>
    rw [List.foldl_cons, ih, RunRollups.of_refresh]
    by_cases hp : p = q
    · simp [hp]
    · simp [hp, Ne.symm hp]

theorem Db.applyEvent_agreesOn {record : SpanRecord}
    (h : (db.applyEvent x segmentId rowIndex record).2 = false ∨ record.projectName ≠ p) :
    db.AgreesOn p (db.applyEvent x segmentId rowIndex record).1 := by
  intro k hk
  refine ⟨?_, rfl⟩
  rcases h with h | h
  · rw [Db.applyEvent] at h
    rw [Db.applyEvent, Db.head, Db.head]
    dsimp only at h ⊢
    rw [Table.upsert_of_not_updated h]
  · rw [Db.applyEvent_head, if_neg]
    rintro rfl
    exact h hk

/-- The rows of a segment only change the runs of the projects that are collected. -/
theorem Db.persistRows_agreesOn {records : List SpanRecord} {traces traces' : List (String × String)}
    (h : db.persistRows x segmentId rowIndex records traces = (db', some traces')) :
    traces ⊆ traces' ∧ (p ∉ traces'.map Prod.fst → db.AgreesOn p db') := by
  induction records generalizing db rowIndex traces with
  | nil =>
    cases h
    exact ⟨List.Subset.refl _, fun _ => .refl p _⟩
  | cons record records ih =>
    rw [Db.persistRows] at h
    split at h
    · cases h
    · obtain ⟨hsub, hrest⟩ : (if (db.applyEvent x segmentId rowIndex record).2 then
            traces.insert (record.projectName, record.traceId) else traces) ⊆ traces' ∧
          (p ∉ traces'.map Prod.fst →
            (db.applyEvent x segmentId rowIndex record).1.AgreesOn p db') := ih h
      refine ⟨?_, fun hp => Db.AgreesOn.trans (Db.applyEvent_agreesOn ?_) (hrest hp)⟩
      · intro trace htrace
        apply hsub
        split
        · exact List.mem_insert_of_mem htrace
        · exact htrace
      · cases hupdated : (db.applyEvent x segmentId rowIndex record).2 with
        | false => exact .inl rfl
        | true =>
          right
          rintro rfl
          rw [if_pos hupdated] at hsub
          exact hp (List.mem_map_of_mem (hsub (List.mem_insert_self ..)))

theorem Db.foldl_refresh_agreesOn (traces : List (String × String)) : db.AgreesOn p
    (traces.foldl (fun db trace => db.refreshTraceTreeMetadata x trace.1 trace.2) db) := by
  induction traces generalizing db with
  | nil => exact .refl p db
  | cons trace traces ih =>
    apply Db.AgreesOn.trans _ ih
    exact Db.agreesOn_of_head (Db.refresh_head x db trace.1 trace.2) rfl

/-- The metadata of a segment only changes the runs of the projects that are refreshed. -/
theorem Db.persistMetadata_agreesOn
    (h : db.persistMetadata x partition uri searchUri records = some (db', true))
    (hp : p ∉ db.updatedProjects x records) : db.AgreesOn p db' := by
  obtain ⟨first, -, h⟩ := Option.map_eq_some_iff.1 h
  dsimp only at h
  split at h
  · cases h
  · next db₁ traces hrows =>
    cases h
    have hsame : ((db.insertTraceSegment (.ofRecords first.projectName partition uri searchUri
          records)).persistRows x db.nextTraceSegmentId 0 records []).2 =
        (db.persistRows x db.nextTraceSegmentId 0 records []).2 := Db.persistRows_congr rfl rfl rfl
    have htraces : (db.persistRows x db.nextTraceSegmentId 0 records []).2 = some traces := by
      rw [← hsame, hrows]
    rw [Db.updatedProjects, htraces] at hp
    exact Db.AgreesOn.trans ((Db.persistRows_agreesOn hrows).2 hp) (Db.foldl_refresh_agreesOn traces)

/-- A transaction only changes the runs of the projects that it refreshes. -/
theorem Db.CommitResult.agreesOn {records : List SpanRecord} (h : db.CommitResult x records db')
    (hp : p ∉ db.updatedProjects x records) : db.AgreesOn p db' := by
  cases h with
  | same other hdb =>
    subst hdb
    exact .refl p db
  | committed partition uri searchUri hmetadata => exact Db.persistMetadata_agreesOn hmetadata hp

theorem Db.deleteRunInTx_agreesOn {k : RunKey}
    (h : (db.deleteRunInTx x k time reason).2 = false ∨ k.projectName ≠ p) :
    db.AgreesOn p (db.deleteRunInTx x k time reason).1 := by
  unfold Db.deleteRunInTx at h ⊢
  split
  · exact .refl p db
  next head hhead =>
    split
    · exact .refl p db
    next hdeleted =>
      rw [hhead] at h
      dsimp only at h
      rw [if_neg hdeleted] at h
      have hproject := h.resolve_left (Bool.noConfusion ·)
      refine Db.AgreesOn.trans ?_ (Db.agreesOn_of_head (Db.refresh_head ..) rfl)
      intro k' hk'
      have hne : k ≠ k' := by
        rintro rfl
        exact hproject hk'
      rw [Db.writeDeletion_head, Db.writeDeletion_runDeletions, if_neg hne, if_neg hne]
      exact ⟨rfl, rfl⟩

/-- Refreshed projects are up to date, and so are those whose runs stay. -/
theorem RunRollups.fresh_of_agreesOn (projects : List String)
    (h : ∀ p, rollups.of p = db.aggregateRollups p)
    (hagrees : ∀ p, p ∉ projects → db.AgreesOn p db') (p : String) :
    (projects.foldl (fun rollups p => rollups.refresh db' p) rollups).of p =
      db'.aggregateRollups p := by
  rw [RunRollups.of_foldl_refresh]
  split
  · rfl
  · next hp => rw [h p, (hagrees p hp).aggregateRollups]

theorem RunRollups.fresh_deleteRun {k : RunKey} (h : ∀ p, rollups.of p = db.aggregateRollups p)
    (p : String) :
    (rollups.deleteRun (db.deleteRunInTx x k time reason) k).of p =
      (db.deleteRunInTx x k time reason).1.aggregateRollups p := by
  rw [RunRollups.deleteRun]
  split
  · apply RunRollups.fresh_of_agreesOn [k.projectName] h
    intro p hp
    apply Db.deleteRunInTx_agreesOn
    exact .inr fun he => hp (List.mem_singleton.2 he.symm)
  · next hflag =>
    rw [h p, (Db.deleteRunInTx_agreesOn (.inl (Bool.eq_false_iff.2 hflag))).aggregateRollups]

theorem RunRollups.fresh_expire (h : ∀ p, rollups.of p = db.aggregateRollups p)
    (projectName : String) (cutoff time : Int) :
    (rollups.expire x db projectName cutoff time).1 =
        db.expireProjectRunsBefore x projectName cutoff time ∧
      ∀ p, (rollups.expire x db projectName cutoff time).2.of p =
        (db.expireProjectRunsBefore x projectName cutoff time).aggregateRollups p := by
  rw [RunRollups.expire, Db.expireProjectRunsBefore]
  generalize db.expiryCandidates projectName cutoff = candidates
  induction candidates generalizing db rollups with
  | nil => exact ⟨rfl, h⟩
  | cons row candidates ih => exact ih (RunRollups.fresh_deleteRun h)

theorem RollupSystem.step_eq_some {s s' : RollupSystem}
    (h : s.step x maxSpansPerSegment action = some s') :
    s.system.step x maxSpansPerSegment action = some s'.system ∧
      s'.rollups = s.refreshed x maxSpansPerSegment s'.system action := by
  obtain ⟨after, hafter, rfl⟩ := Option.map_eq_some_iff.1 h
  exact ⟨hafter, rfl⟩

/-- Every step refreshes the projects whose live runs it changes. -/
theorem RollupSystem.Fresh.step {s s' : RollupSystem} (hs : s.Fresh)
    (h : s.step x maxSpansPerSegment action = some s') : s'.Fresh := by
  obtain ⟨hstep, hrollups⟩ := RollupSystem.step_eq_some h
  rw [RollupSystem.Fresh, hrollups]
  generalize s'.system = after at hstep
  cases System.step_cases hstep with
  | ingest partition name records fault hfree huser =>
    apply RunRollups.fresh_of_agreesOn _ hs
    intro p hp
    exact (World.persistSegment_commit x s.system.world partition name records fault).agreesOn hp
  | delete k time reason => exact RunRollups.fresh_deleteRun hs
  | expire projectName cutoff time => exact (RunRollups.fresh_expire hs projectName cutoff time).2
  | readIds projectName => exact hs
  | listRuns i runs listed execution hi hstage hlisted hperm => exact hs
  | persist i name fault execution partition records work world turn hi hstage hfree hturn =>
    apply RunRollups.fresh_of_agreesOn _ hs
    intro p hp
    rw [System.committed_persist hi hstage] at hp
    exact hturn.commit.agreesOn hp
  | mark i time execution hi hstage => exact hs
  | stop i => exact hs

theorem RollupSystem.Fresh.initial : RollupSystem.initial.Fresh := by
  intro p
  rw [RollupSystem.initial, RunRollups.of, TreeMap.getElem?_emptyc]
  rfl

/-- The runs of the system with rollups are those of the system. -/
theorem RollupSystem.run_system {s s' : RollupSystem}
    (h : Transition.run (RollupSystem.step x maxSpansPerSegment) s actions = some s') :
    Transition.run (System.step x maxSpansPerSegment) s.system actions = some s'.system := by
  induction actions generalizing s with
  | nil =>
    cases h
    rfl
  | cons action actions ih =>
    obtain ⟨t, ht, h⟩ := Transition.run_cons_eq_some h
    rw [Transition.run_cons, (RollupSystem.step_eq_some ht).1]
    exact ih h

/-- In every reachable state the rollups are those of the live runs. -/
theorem RollupSystem.Fresh.run {s : RollupSystem}
    (h : Transition.run (RollupSystem.step x maxSpansPerSegment) .initial actions = some s) :
    s.Fresh :=
  Transition.run_invariant_of_step _ (fun _ _ _ hs hstep => hs.step hstep) .initial h

end KevinDb
