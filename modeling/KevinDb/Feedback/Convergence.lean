import KevinDb.Feedback.Store

namespace KevinDb
set_option autoImplicit true

/-- The rollups that a call has still to insert. -/
def FeedbackStage.remaining (feedback : FeedbackTable) :
    FeedbackStage → List (FeedbackGroup × FeedbackRollupStats)
  | .loadRows projectName _ => feedback.rollups projectName
  | .insertRollup _ row rows _ => row :: rows
  | _ => []

def pendingBy (stage : Option FeedbackStage) : List String := stage.elim [] FeedbackStage.pending

def refreshedBy (stage : Option FeedbackStage) : Option String :=
  stage.bind FeedbackStage.refreshed

def remainingBy (feedback : FeedbackTable) (stage : Option FeedbackStage) :
    List (FeedbackGroup × FeedbackRollupStats) :=
  stage.elim [] (FeedbackStage.remaining feedback)

/-- The rollups of a project are about to be deleted, or one call is inserting what is missing, or
they are those of the feedback. -/
def Settled (feedback : FeedbackTable) (stages : Nat → Option FeedbackStage)
    (rollups : Table FeedbackGroup FeedbackRollupStats) (p : String) : Prop :=
  (∃ n, p ∈ pendingBy (stages n)) ∨
  (∃ n, refreshedBy (stages n) = some p ∧ ∀ row : FeedbackGroup × FeedbackRollupStats,
    rollups[row.1]? = some row.2 ∨ row ∈ remainingBy feedback (stages n) ↔
      row ∈ feedback.rollups p) ∨
  ((∀ n, refreshedBy (stages n) ≠ some p) ∧ ∀ row : FeedbackGroup × FeedbackRollupStats,
    rollups[row.1]? = some row.2 ↔ row ∈ feedback.rollups p)

/-- What a call inserts next does not meet the primary key. -/
def FeedbackStage.Fits (rollupsOf : String → Table FeedbackGroup FeedbackRollupStats) :
    FeedbackStage → Prop
  | .loadRows p _ => ∀ group : FeedbackGroup, (rollupsOf p)[group]? = none
  | .insertRollup p row rows _ => ((row :: rows).map Prod.fst).Nodup ∧
      ∀ entry ∈ row :: rows, (rollupsOf p)[entry.1]? = none
  | _ => True

/-- The projects that the statements of a call refer to. -/
def FeedbackCall.projects (call : FeedbackCall) : List String :=
  match call.stage with
  | .ensureProject => []
  | .loadOldProject => call.record.projectName.toList
  | .upsert oldProjectName => oldProjectName.toList ++ call.record.projectName.toList
  | stage => stage.refreshed.toList ++ stage.pending

def FeedbackStore.stageOf (s : FeedbackStore) (n : Nat) : Option FeedbackStage :=
  s.calls[n]?.map FeedbackCall.stage

structure FeedbackStore.Sound (s : FeedbackStore) : Prop where
  rowProjects : ∀ (id : String) (record : FeedbackRecord), s.feedback[id]? = some record →
    ∀ p ∈ record.projectName, p ∈ s.projects
  callProjects : ∀ (n : Nat) (call : FeedbackCall), s.calls[n]? = some call → ∀ p ∈ call.projects, p ∈ s.projects
  stored : ∀ (n : Nat) (call : FeedbackCall), s.calls[n]? = some call → call.stage.hasStored →
    (s.feedback[call.record.id]?).isSome
  acknowledged : ∀ id ∈ s.acknowledged, (s.feedback[id]?).isSome
  refreshes : ∀ m n p, refreshedBy (s.stageOf m) = some p → refreshedBy (s.stageOf n) = some p →
    m = n
  fits : ∀ n stage, s.stageOf n = some stage → stage.Fits s.rollupsOf
  settled : ∀ p, Settled s.feedback s.stageOf (s.rollupsOf p) p

variable {s t : FeedbackStore} {n m : Nat} {p q : String} {feedback feedback' : FeedbackTable}
  {stages stages' : Nat → Option FeedbackStage} {stage : FeedbackStage} {call : FeedbackCall}
  {rollups rollups' : Table FeedbackGroup FeedbackRollupStats} {record : FeedbackRecord}
  {rows : List (FeedbackGroup × FeedbackRollupStats)} {projects : List String}

theorem pendingBy_refreshNext : pendingBy (FeedbackStage.refreshNext projects) = projects := by
  cases projects with
  | nil => rfl
  | cons p projects => rfl

theorem refreshedBy_refreshNext : refreshedBy (FeedbackStage.refreshNext projects) = none := by
  cases projects with
  | nil => rfl
  | cons p projects => rfl

theorem pendingBy_insertNext :
    pendingBy (FeedbackStage.insertNext p projects rows) = projects := by
  cases rows with
  | nil => exact pendingBy_refreshNext
  | cons row rows => rfl

theorem refreshedBy_insertNext :
    refreshedBy (FeedbackStage.insertNext p projects rows) = if rows = [] then none else some p := by
  cases rows with
  | nil => exact refreshedBy_refreshNext
  | cons row rows => rfl

theorem remainingBy_insertNext :
    remainingBy feedback (FeedbackStage.insertNext p projects rows) = rows := by
  cases rows with
  | nil =>
    cases projects with
    | nil => rfl
    | cons p projects => rfl
  | cons row rows => rfl

theorem remainingBy_congr {stage : Option FeedbackStage} (h : refreshedBy stage = some p)
    (hrollups : feedback'.rollups p = feedback.rollups p) :
    remainingBy feedback' stage = remainingBy feedback stage := by
  rcases stage with _ | stage
  · rfl
  cases stage with
  | loadRows q projects =>
    obtain rfl := Option.some.inj h
    exact hrollups
  | _ => rfl

/-- A project stays settled when a call does something else. -/
theorem Settled.frame (h : Settled feedback stages rollups p)
    (hstages : ∀ m, stages' m = if n = m then next else stages m)
    (hpending : p ∈ pendingBy (stages n) → p ∈ pendingBy next)
    (hrefreshed : refreshedBy (stages n) ≠ some p) (hnext : refreshedBy next ≠ some p)
    (hrollups : feedback'.rollups p = feedback.rollups p) :
    Settled feedback' stages' rollups p := by
  have hother {m : Nat} (hne : n ≠ m) : stages' m = stages m := by rw [hstages, if_neg hne]
  rcases h with ⟨m, hm⟩ | ⟨m, hm, hrows⟩ | ⟨hnone, hrows⟩
  · by_cases hne : n = m
    · subst hne
      exact .inl ⟨n, by rw [hstages, if_pos rfl]; exact hpending hm⟩
    · exact .inl ⟨m, by rwa [hother hne]⟩
  · have hne : n ≠ m := by
      rintro rfl
      exact hrefreshed hm
    refine .inr (.inl ⟨m, by rwa [hother hne], fun row => ?_⟩)
    rw [hother hne, remainingBy_congr hm hrollups, hrollups]
    exact hrows row
  · refine .inr (.inr ⟨fun m => ?_, fun row => ?_⟩)
    · rw [hstages]
      split
      · exact hnext
      · exact hnone m
    · rw [hrollups]
      exact hrows row

/-- A call that moves rows from what it has to insert into the rollups. -/
theorem Settled.insertNext (h : Settled feedback stages rollups p)
    (hstages : ∀ m, stages' m =
      if n = m then FeedbackStage.insertNext p projects rows else stages m)
    (hpending : pendingBy (stages n) = projects) (hrefreshed : refreshedBy (stages n) = some p)
    (hone : ∀ m, refreshedBy (stages m) = some p → n = m)
    (hmoved : ∀ row : FeedbackGroup × FeedbackRollupStats,
      rollups'[row.1]? = some row.2 ∨ row ∈ rows ↔
        rollups[row.1]? = some row.2 ∨ row ∈ remainingBy feedback (stages n)) :
    Settled feedback stages' rollups' p := by
  have hself : stages' n = FeedbackStage.insertNext p projects rows := by
    rw [hstages, if_pos rfl]
  rcases h with ⟨m, hm⟩ | ⟨m, hm, hrows⟩ | ⟨hnone, -⟩
  · by_cases hne : n = m
    · subst hne
      exact .inl ⟨n, by rwa [hself, pendingBy_insertNext, ← hpending]⟩
    · exact .inl ⟨m, by rwa [hstages, if_neg hne]⟩
  · obtain rfl := hone m hm
    have hnew (row : FeedbackGroup × FeedbackRollupStats) := (hmoved row).trans (hrows row)
    by_cases hempty : rows = []
    · subst hempty
      refine .inr (.inr ⟨fun m => ?_, fun row => ?_⟩)
      · rw [hstages]
        split
        · rw [refreshedBy_insertNext, if_pos rfl]
          nofun
        · next hne => exact fun hm => hne (hone m hm)
      · rw [← hnew]
        simp
    · refine .inr (.inl ⟨n, ?_, fun row => ?_⟩)
      · rw [hself, refreshedBy_insertNext, if_neg hempty]
      · rw [hself, remainingBy_insertNext]
        exact hnew row
  · exact absurd hrefreshed (hnone n)

namespace FeedbackStore

/-- What a statement does that leads a call to its next stage, or to its return. -/
structure Advances (s : FeedbackStore) (n : Nat) (call : FeedbackCall) (t : FeedbackStore)
    (next : Option FeedbackStage) : Prop where
  executes : s.execute call.record call.stage = (t, some next)
  calls : t.calls = s.calls
  acknowledged : t.acknowledged = s.acknowledged
  projects : s.projects ⊆ t.projects
  keeps : ∀ id : String, (s.feedback[id]?).isSome → (t.feedback[id]?).isSome
  rowProjects : ∀ (id : String) (record : FeedbackRecord), t.feedback[id]? = some record →
    ∀ p ∈ record.projectName, p ∈ t.projects
  callProjects : ∀ stage ∈ next, ∀ p ∈ { call with stage }.projects, p ∈ t.projects
  stored : next.all FeedbackStage.hasStored → (t.feedback[call.record.id]?).isSome
  refreshes : ∀ p, refreshedBy next = some p → ∀ m, refreshedBy (s.stageOf m) = some p → n = m
  fitsNext : ∀ stage ∈ next, stage.Fits t.rollupsOf
  fits : ∀ m stage, n ≠ m → s.stageOf m = some stage → stage.Fits t.rollupsOf
  settled : ∀ stages, (∀ m, stages m = if n = m then next else s.stageOf m) →
    ∀ p, Settled t.feedback stages (t.rollupsOf p) p

theorem Advances.get_calls {next : Option FeedbackStage} (h : s.Advances n call t next) (m : Nat) :
    (s.proceed n call).calls[m]? =
      if n = m then next.map fun stage => { call with stage } else s.calls[m]? := by
  rw [proceed, h.executes]
  cases next with
  | none => rw [Table.get_erase, h.calls]; rfl
  | some stage => rw [Table.get_insert, h.calls]; rfl

theorem Advances.stageOf {next : Option FeedbackStage} (h : s.Advances n call t next) (m : Nat) :
    (s.proceed n call).stageOf m = if n = m then next else s.stageOf m := by
  rw [FeedbackStore.stageOf, h.get_calls]
  split
  · cases next with
    | none => rfl
    | some stage => rfl
  · rfl

theorem Advances.tables {next : Option FeedbackStage} (h : s.Advances n call t next) :
    (s.proceed n call).projects = t.projects ∧ (s.proceed n call).feedback = t.feedback ∧
      (s.proceed n call).rollups = t.rollups := by
  rw [proceed, h.executes]
  cases next with
  | none => exact ⟨rfl, rfl, rfl⟩
  | some stage => exact ⟨rfl, rfl, rfl⟩

theorem Advances.mem_acknowledged {next : Option FeedbackStage} (h : s.Advances n call t next)
    {id : String} (hid : id ∈ (s.proceed n call).acknowledged) :
    id ∈ s.acknowledged ∨ next = none ∧ id = call.record.id := by
  rw [proceed, h.executes] at hid
  cases next with
  | none =>
    rcases List.mem_cons.1 hid with rfl | hid
    · exact .inr ⟨rfl, rfl⟩
    · exact .inl (h.acknowledged ▸ hid)
  | some stage => exact .inl (h.acknowledged ▸ hid)

theorem Sound.advance {next : Option FeedbackStage} (hs : s.Sound)
    (h : s.Advances n call t next) : (s.proceed n call).Sound := by
  obtain ⟨hprojects, hfeedback, hrollups⟩ := h.tables
  have hrollupsOf : (s.proceed n call).rollupsOf = t.rollupsOf := by
    funext p
    rw [rollupsOf, rollupsOf, hrollups]
  constructor
  · intro id record hid
    rw [hfeedback] at hid
    rw [hprojects]
    exact h.rowProjects id record hid
  · intro m call' hcall' p hp
    rw [h.get_calls] at hcall'
    rw [hprojects]
    split at hcall'
    · obtain ⟨stage, hstage, rfl⟩ := Option.map_eq_some_iff.1 hcall'
      exact h.callProjects stage hstage p hp
    · exact h.projects (hs.callProjects m call' hcall' p hp)
  · intro m call' hcall' hstored
    rw [h.get_calls] at hcall'
    rw [hfeedback]
    split at hcall'
    · obtain ⟨stage, rfl, rfl⟩ := Option.map_eq_some_iff.1 hcall'
      exact h.stored hstored
    · exact h.keeps _ (hs.stored m call' hcall' hstored)
  · intro id hid
    rw [hfeedback]
    rcases h.mem_acknowledged hid with hid | ⟨rfl, rfl⟩
    · exact h.keeps id (hs.acknowledged id hid)
    · exact h.stored rfl
  · intro m m' p hm hm'
    rw [h.stageOf] at hm hm'
    split at hm <;> split at hm'
    · next he he' => exact he.symm.trans he'
    · next he he' => exact absurd (h.refreshes p hm m' hm') he'
    · next he he' => exact absurd (h.refreshes p hm' m hm) he
    · exact hs.refreshes m m' p hm hm'
  · intro m stage hstage
    rw [h.stageOf] at hstage
    rw [hrollupsOf]
    split at hstage
    · exact h.fitsNext stage hstage
    · next hne => exact h.fits m stage hne hstage
  · intro p
    rw [hfeedback, hrollupsOf]
    exact h.settled _ h.stageOf p

theorem stageOf_eq (hcall : s.calls[n]? = some call) : s.stageOf n = some call.stage := by
  rw [stageOf, hcall]
  rfl

theorem Sound.ensureProject (hs : s.Sound) (hcall : s.calls[n]? = some ⟨record, .ensureProject⟩) :
    s.Advances n ⟨record, .ensureProject⟩
      { s with projects := record.projectName.toList ∪ s.projects } (some .loadOldProject) where
  executes := rfl
  calls := rfl
  acknowledged := rfl
  projects := fun _ hp => List.mem_union_right _ hp
  keeps := fun _ hid => hid
  rowProjects := fun id record hid p hp =>
    List.mem_union_right _ (hs.rowProjects id record hid p hp)
  callProjects := by
    rintro _ ⟨⟩ p hp
    exact List.mem_union_left hp _
  stored := nofun
  refreshes := nofun
  fitsNext := by
    rintro _ ⟨⟩
    trivial
  fits := fun m stage _ hstage => hs.fits m stage hstage
  settled := by
    intro stages hstages p
    refine (hs.settled p).frame hstages ?_ ?_ nofun rfl
    · rw [stageOf_eq hcall]
      nofun
    · rw [stageOf_eq hcall]
      nofun

theorem Sound.loadOldProject (hs : s.Sound)
    (hcall : s.calls[n]? = some ⟨record, .loadOldProject⟩) :
    s.Advances n ⟨record, .loadOldProject⟩ s
      (some (.upsert (s.feedback[record.id]?.bind (·.projectName)))) where
  executes := rfl
  calls := rfl
  acknowledged := rfl
  projects := fun _ hp => hp
  keeps := fun _ hid => hid
  rowProjects := hs.rowProjects
  callProjects := by
    rintro _ ⟨⟩ p hp
    rcases List.mem_append.1 hp with hp | hp
    · obtain ⟨old, hold, hproject⟩ := Option.bind_eq_some_iff.1 (Option.mem_toList.1 hp)
      exact hs.rowProjects _ _ hold p hproject
    · exact hs.callProjects n _ hcall p hp
  stored := nofun
  refreshes := nofun
  fitsNext := by
    rintro _ ⟨⟩
    trivial
  fits := fun m stage _ hstage => hs.fits m stage hstage
  settled := by
    intro stages hstages p
    refine (hs.settled p).frame hstages ?_ ?_ nofun rfl
    · rw [stageOf_eq hcall]
      nofun
    · rw [stageOf_eq hcall]
      nofun

theorem fits_of_mem_refreshNext (hstage : stage ∈ FeedbackStage.refreshNext projects) :
    ∀ rollupsOf, stage.Fits rollupsOf := by
  cases projects with
  | nil => cases hstage
  | cons p projects =>
    cases hstage
    exact fun _ => trivial

theorem projects_of_mem_refreshNext (hstage : stage ∈ FeedbackStage.refreshNext projects) :
    (FeedbackCall.mk record stage).projects = projects := by
  cases projects with
  | nil => cases hstage
  | cons p projects =>
    cases hstage
    rfl

theorem fits_of_mem_insertNext (hstage : stage ∈ FeedbackStage.insertNext p projects rows)
    {rollupsOf : String → Table FeedbackGroup FeedbackRollupStats}
    (hnodup : (rows.map Prod.fst).Nodup)
    (hnone : ∀ entry ∈ rows, (rollupsOf p)[entry.1]? = none) : stage.Fits rollupsOf := by
  cases rows with
  | nil => exact fits_of_mem_refreshNext hstage rollupsOf
  | cons row rows =>
    cases hstage
    exact ⟨hnodup, hnone⟩

theorem projects_of_mem_insertNext (hstage : stage ∈ FeedbackStage.insertNext p projects rows) :
    (FeedbackCall.mk record stage).projects ⊆ p :: projects := by
  cases rows with
  | nil =>
    rw [projects_of_mem_refreshNext hstage]
    exact List.subset_cons_self _ _
  | cons row rows =>
    cases hstage
    exact fun _ hq => hq

theorem Sound.upsert (hs : s.Sound)
    (hcall : s.calls[n]? = some ⟨record, .upsert (s.feedback[record.id]?.bind (·.projectName))⟩) :
    s.Advances n ⟨record, .upsert (s.feedback[record.id]?.bind (·.projectName))⟩
      { s with feedback := s.feedback.upsertRecord record }
      (FeedbackStage.refreshNext (affectedProjects
        (s.feedback[record.id]?.bind (·.projectName)) record.projectName)) where
  executes := rfl
  calls := rfl
  acknowledged := rfl
  projects := fun _ hp => hp
  keeps := by
    intro id hid
    rw [FeedbackTable.get_upsertRecord]
    split
    · rfl
    · exact hid
  rowProjects := by
    intro id other hother p hp
    rw [FeedbackTable.get_upsertRecord] at hother
    split at hother
    · obtain rfl := Option.some.inj hother
      exact hs.callProjects n _ hcall p (List.mem_append_right _ (Option.mem_toList.2 hp))
    · exact hs.rowProjects id other hother p hp
  callProjects := by
    intro stage hstage p hp
    rw [projects_of_mem_refreshNext hstage, mem_affectedProjects] at hp
    apply hs.callProjects n _ hcall p
    exact List.mem_append.2 (hp.imp Option.mem_toList.2 Option.mem_toList.2)
  stored := by
    intro _
    dsimp only
    rw [FeedbackTable.get_upsertRecord, if_pos rfl]
    rfl
  refreshes := by
    intro p hp
    rw [refreshedBy_refreshNext] at hp
    cases hp
  fitsNext := fun stage hstage => fits_of_mem_refreshNext hstage _
  fits := fun m stage _ hstage => hs.fits m stage hstage
  settled := by
    intro stages hstages p
    by_cases hp : p ∈ affectedProjects (s.feedback[record.id]?.bind (·.projectName))
        record.projectName
    · refine .inl ⟨n, ?_⟩
      rwa [hstages, if_pos rfl, pendingBy_refreshNext]
    · refine (hs.settled p).frame hstages ?_ ?_ ?_ (FeedbackTable.rollups_upsertRecord hp)
      · rw [stageOf_eq hcall]
        nofun
      · rw [stageOf_eq hcall]
        nofun
      · rw [refreshedBy_refreshNext]
        nofun

theorem get_rollupsOf_erase (s : FeedbackStore) (p q : String) :
    ({ s with rollups := s.rollups.erase p } : FeedbackStore).rollupsOf q =
      if p = q then ∅ else s.rollupsOf q := by
  rw [rollupsOf, Table.get_erase]
  split
  · rfl
  · rfl

theorem get_rollupsOf_insert (s : FeedbackStore) (p q : String) :
    ({ s with rollups := s.rollups.insert p rollups } : FeedbackStore).rollupsOf q =
      if p = q then rollups else s.rollupsOf q := by
  rw [rollupsOf, Table.get_insert]
  split
  · rfl
  · rfl

/-- A stage that refreshes another project fits what only the rollups of one project change. -/
theorem fits_congr {rollupsOf rollupsOf' : String → Table FeedbackGroup FeedbackRollupStats}
    (h : stage.Fits rollupsOf) (hne : stage.refreshed ≠ some p)
    (hsame : ∀ q, p ≠ q → rollupsOf' q = rollupsOf q) : stage.Fits rollupsOf' := by
  cases stage with
  | loadRows q projects =>
    rw [FeedbackStage.Fits, hsame q fun he => hne (congrArg some he.symm)]
    exact h
  | insertRollup q row rows projects =>
    rw [FeedbackStage.Fits, hsame q fun he => hne (congrArg some he.symm)]
    exact h
  | _ => trivial

theorem refreshed_of_stageOf (hstage : s.stageOf m = some stage) :
    refreshedBy (s.stageOf m) = stage.refreshed := by
  rw [hstage]
  rfl

theorem Sound.deleteRollups (hs : s.Sound)
    (hcall : s.calls[n]? = some ⟨record, .deleteRollups p projects⟩)
    (hone : ∀ m, refreshedBy (s.stageOf m) = some p → n = m) :
    s.Advances n ⟨record, .deleteRollups p projects⟩ { s with rollups := s.rollups.erase p }
      (some (.loadRows p projects)) where
  executes := rfl
  calls := rfl
  acknowledged := rfl
  projects := fun _ hq => hq
  keeps := fun _ hid => hid
  rowProjects := hs.rowProjects
  callProjects := by
    rintro _ ⟨⟩ q hq
    exact hs.callProjects n _ hcall q hq
  stored := fun _ => hs.stored n _ hcall rfl
  refreshes := by
    rintro _ ⟨⟩
    exact hone
  fitsNext := by
    rintro _ ⟨⟩ group
    rw [get_rollupsOf_erase, if_pos rfl]
    rfl
  fits := by
    intro m stage hne hstage
    apply fits_congr (hs.fits m stage hstage) (p := p)
    · rw [← refreshed_of_stageOf hstage]
      exact fun hm => hne (hone m hm)
    · intro q hq
      rw [get_rollupsOf_erase, if_neg hq]
  settled := by
    intro stages hstages q
    rw [get_rollupsOf_erase]
    by_cases hq : p = q
    · subst hq
      refine .inr (.inl ⟨n, ?_, fun row => ?_⟩)
      · rw [hstages, if_pos rfl]
        rfl
      · rw [hstages, if_pos rfl, if_pos rfl]
        exact or_iff_right nofun
    · rw [if_neg hq]
      refine (hs.settled q).frame hstages ?_ ?_ ?_ rfl
      · rw [stageOf_eq hcall]
        intro hpending
        exact (List.mem_cons.1 hpending).resolve_left (Ne.symm hq)
      · rw [stageOf_eq hcall]
        nofun
      · exact fun he => hq (Option.some.inj he)

theorem Sound.loadRows (hs : s.Sound)
    (hcall : s.calls[n]? = some ⟨record, .loadRows p projects⟩) :
    s.Advances n ⟨record, .loadRows p projects⟩ s
      (FeedbackStage.insertNext p projects (s.feedback.rollups p)) where
  executes := rfl
  calls := rfl
  acknowledged := rfl
  projects := fun _ hq => hq
  keeps := fun _ hid => hid
  rowProjects := hs.rowProjects
  callProjects := fun stage hstage q hq =>
    hs.callProjects n _ hcall q (projects_of_mem_insertNext hstage hq)
  stored := fun _ => hs.stored n _ hcall rfl
  refreshes := by
    intro q hq m hm
    rw [refreshedBy_insertNext] at hq
    split at hq
    · cases hq
    · exact hs.refreshes n m q (by rw [stageOf_eq hcall]; exact hq) hm
  fitsNext := by
    intro stage hstage
    apply fits_of_mem_insertNext hstage (FeedbackTable.rollups_nodup _ _)
    intro entry _
    exact hs.fits n _ (stageOf_eq hcall) entry.1
  fits := fun m stage _ hstage => hs.fits m stage hstage
  settled := by
    intro stages hstages q
    by_cases hq : p = q
    · subst hq
      apply (hs.settled p).insertNext hstages
      · rw [stageOf_eq hcall]
        rfl
      · rw [stageOf_eq hcall]
        rfl
      · exact fun m hm => hs.refreshes n m p (by rw [stageOf_eq hcall]; rfl) hm
      · intro row
        rw [stageOf_eq hcall]
        exact Iff.rfl
    · refine (hs.settled q).frame hstages ?_ ?_ ?_ rfl
      · rw [stageOf_eq hcall, pendingBy_insertNext]
        exact id
      · rw [stageOf_eq hcall]
        exact fun he => hq (Option.some.inj he)
      · rw [refreshedBy_insertNext]
        split
        · nofun
        · exact fun he => hq (Option.some.inj he)

theorem Sound.insertRollup (hs : s.Sound) {row : FeedbackGroup × FeedbackRollupStats}
    (hcall : s.calls[n]? = some ⟨record, .insertRollup p row rows projects⟩) :
    s.Advances n ⟨record, .insertRollup p row rows projects⟩
      { s with rollups := s.rollups.insert p ((s.rollupsOf p).insert row.1 row.2) }
      (FeedbackStage.insertNext p projects rows) where
  executes := by
    have hproject := hs.callProjects n _ hcall p List.mem_cons_self
    have hfits := hs.fits n _ (stageOf_eq hcall)
    exact if_pos ⟨hproject, hfits.2 row List.mem_cons_self⟩
  calls := rfl
  acknowledged := rfl
  projects := fun _ hq => hq
  keeps := fun _ hid => hid
  rowProjects := hs.rowProjects
  callProjects := fun stage hstage q hq =>
    hs.callProjects n _ hcall q (projects_of_mem_insertNext hstage hq)
  stored := fun _ => hs.stored n _ hcall rfl
  refreshes := by
    intro q hq m hm
    rw [refreshedBy_insertNext] at hq
    split at hq
    · cases hq
    · exact hs.refreshes n m q (by rw [stageOf_eq hcall]; exact hq) hm
  fitsNext := by
    intro stage hstage
    have hfits := hs.fits n _ (stageOf_eq hcall)
    obtain ⟨hfirst, hnodup⟩ := List.nodup_cons.1 hfits.1
    apply fits_of_mem_insertNext hstage hnodup
    intro entry hentry
    rw [get_rollupsOf_insert, if_pos rfl, Table.get_insert, if_neg]
    · exact hfits.2 entry (List.mem_cons_of_mem _ hentry)
    · rintro he
      exact hfirst (he ▸ List.mem_map_of_mem hentry)
  fits := by
    intro m stage hne hstage
    apply fits_congr (hs.fits m stage hstage) (p := p)
    · rw [← refreshed_of_stageOf hstage]
      exact fun hm => hne (hs.refreshes n m p (by rw [stageOf_eq hcall]; rfl) hm)
    · intro q hq
      rw [get_rollupsOf_insert, if_neg hq]
  settled := by
    intro stages hstages q
    rw [get_rollupsOf_insert]
    by_cases hq : p = q
    · subst hq
      rw [if_pos rfl]
      have hfits := hs.fits n _ (stageOf_eq hcall)
      apply (hs.settled p).insertNext hstages
      · rw [stageOf_eq hcall]
        rfl
      · rw [stageOf_eq hcall]
        rfl
      · exact fun m hm => hs.refreshes n m p (by rw [stageOf_eq hcall]; rfl) hm
      · intro other
        rw [stageOf_eq hcall, Table.get_insert]
        change _ ↔ _ ∨ other ∈ row :: rows
        rw [List.mem_cons, ← or_assoc]
        apply or_congr_left
        split
        · next he =>
          rw [Option.some.injEq, ← he, hfits.2 row List.mem_cons_self]
          constructor
          · exact fun hsame => .inr (Prod.ext he.symm hsame.symm)
          · rintro (hnone | rfl)
            · cases hnone
            · rfl
        · next he =>
          have hother : other ≠ row := by
            rintro rfl
            exact he rfl
          exact (or_iff_left hother).symm
    · rw [if_neg hq]
      refine (hs.settled q).frame hstages ?_ ?_ ?_ rfl
      · rw [stageOf_eq hcall, pendingBy_insertNext]
        exact id
      · rw [stageOf_eq hcall]
        exact fun he => hq (Option.some.inj he)
      · rw [refreshedBy_insertNext]
        split
        · nofun
        · exact fun he => hq (Option.some.inj he)

theorem idle_of_not_hasStored (h : stage.hasStored = false) :
    stage.pending = [] ∧ stage.refreshed = none ∧ ∀ rollupsOf, stage.Fits rollupsOf := by
  cases stage with
  | ensureProject => exact ⟨rfl, rfl, fun _ => trivial⟩
  | loadOldProject => exact ⟨rfl, rfl, fun _ => trivial⟩
  | upsert oldProjectName => exact ⟨rfl, rfl, fun _ => trivial⟩
  | deleteRollups p projects => cases h
  | loadRows p projects => cases h
  | insertRollup p row rows projects => cases h

/-- Calls that have not upserted yet may come and go. -/
theorem Sound.setCall (hs : s.Sound) {calls : Table Nat FeedbackCall} {new : Option FeedbackCall}
    (hcalls : ∀ m : Nat, calls[m]? = if n = m then new else s.calls[m]?)
    (hnew : ∀ call ∈ new, call.projects = [] ∧ call.stage.hasStored = false)
    (hold : ∀ call ∈ s.calls[n]?, call.stage.hasStored = false) :
    Sound { s with calls } := by
  have hidle : ∀ call ∈ s.calls[n]?, pendingBy (s.stageOf n) = [] := by
    intro call hcall
    rw [stageOf_eq hcall]
    exact (idle_of_not_hasStored (hold call hcall)).1
  have hpending : pendingBy (s.stageOf n) = [] := by
    cases hcall : s.calls[n]? with
    | none => rw [stageOf, hcall]; rfl
    | some call => exact hidle call hcall
  have hrefreshed : refreshedBy (s.stageOf n) = none := by
    cases hcall : s.calls[n]? with
    | none => rw [stageOf, hcall]; rfl
    | some call =>
      rw [stageOf_eq hcall]
      exact (idle_of_not_hasStored (hold call hcall)).2.1
  have hnext : refreshedBy (new.map FeedbackCall.stage) = none := by
    cases new with
    | none => rfl
    | some call => exact (idle_of_not_hasStored (hnew call rfl).2).2.1
  have hstages (m : Nat) : ({ s with calls } : FeedbackStore).stageOf m =
      if n = m then new.map FeedbackCall.stage else s.stageOf m := by
    rw [stageOf, hcalls]
    split
    · rfl
    · rfl
  refine ⟨hs.rowProjects, ?_, ?_, hs.acknowledged, ?_, ?_, ?_⟩
  · intro m call hcall p hp
    rw [hcalls] at hcall
    split at hcall
    · rw [(hnew call hcall).1] at hp
      cases hp
    · exact hs.callProjects m call hcall p hp
  · intro m call hcall hstored
    rw [hcalls] at hcall
    split at hcall
    · rw [(hnew call hcall).2] at hstored
      cases hstored
    · exact hs.stored m call hcall hstored
  · intro m m' p hm hm'
    rw [hstages] at hm hm'
    split at hm
    · rw [hnext] at hm
      cases hm
    · split at hm'
      · rw [hnext] at hm'
        cases hm'
      · exact hs.refreshes m m' p hm hm'
  · intro m stage hstage
    rw [hstages] at hstage
    split at hstage
    · obtain ⟨call, hcall, rfl⟩ := Option.map_eq_some_iff.1 hstage
      exact (idle_of_not_hasStored (hnew call hcall).2).2.2 _
    · exact hs.fits m stage hstage
  · intro p
    refine (hs.settled p).frame hstages ?_ ?_ ?_ rfl
    · rw [hpending]
      nofun
    · rw [hrefreshed]
      nofun
    · rw [hnext]
      nofun

theorem new_call (record : FeedbackRecord) :
    let stage := if record.projectName.isSome then FeedbackStage.ensureProject else .loadOldProject
    FeedbackCall.projects { record, stage } = [] ∧ stage.hasStored = false := by
  cases hproject : record.projectName with
  | none => simp [FeedbackCall.projects, hproject, FeedbackStage.hasStored]
  | some p => simp [FeedbackCall.projects, FeedbackStage.hasStored]

/-- Calls that keep apart keep the tables sound. -/
theorem Sound.step (hs : s.Sound) {action : FeedbackAction} (hapart : s.keepsApart action)
    (h : s.step action = some t) : t.Sound := by
  cases action with
  | call n record =>
    rw [FeedbackStore.step] at h
    split at h
    · next hnone =>
      obtain rfl := Option.some.inj h
      apply hs.setCall fun m => Table.get_insert _ _ _ _
      · intro call hcall
        obtain rfl := Option.some.inj hcall
        exact new_call record
      · intro call hcall
        rw [hnone] at hcall
        cases hcall
    · cases h
  | proceed n =>
    obtain ⟨call, hcall, rfl⟩ := Option.map_eq_some_iff.1 h
    rw [keepsApart, hcall] at hapart
    obtain ⟨record, stage⟩ := call
    cases stage with
    | ensureProject => exact hs.advance (hs.ensureProject hcall)
    | loadOldProject => exact hs.advance (hs.loadOldProject hcall)
    | upsert oldProjectName =>
      have hold : s.feedback[record.id]?.bind (·.projectName) = oldProjectName :=
        of_decide_eq_true hapart
      subst hold
      exact hs.advance (hs.upsert hcall)
    | deleteRollups p projects =>
      apply hs.advance (hs.deleteRollups hcall fun m hm => ?_)
      obtain ⟨stage, hstage, hrefreshed⟩ := Option.bind_eq_some_iff.1 hm
      obtain ⟨other, hother, rfl⟩ := Option.map_eq_some_iff.1 hstage
      have hentry := List.all_eq_true.1 hapart (m, other)
        (Std.TreeMap.mem_toList_iff_getElem?_eq_some.2 hother)
      rw [Bool.or_eq_true] at hentry
      rcases hentry with he | hne
      · exact (of_decide_eq_true he).symm
      · exact absurd hrefreshed (of_decide_eq_true hne)
    | loadRows p projects => exact hs.advance (hs.loadRows hcall)
    | insertRollup p row rows projects => exact hs.advance (hs.insertRollup hcall)
  | stop n =>
    obtain ⟨call, hcall, rfl⟩ := Option.map_eq_some_iff.1 h
    rw [keepsApart, hcall] at hapart
    apply hs.setCall fun m => Table.get_erase _ _ _
    · intro other hother
      cases hother
    · intro other hother
      obtain rfl := Option.some.inj (hcall.symm.trans hother)
      exact Bool.not_eq_true' _ ▸ hapart

theorem sound_initial : initial.Sound := by
  have hcalls (n : Nat) : initial.calls[n]? = none := Std.TreeMap.getElem?_emptyc
  have hfeedback (id : String) : initial.feedback[id]? = none := Std.TreeMap.getElem?_emptyc
  have hstages (n : Nat) : initial.stageOf n = none := by
    rw [stageOf, hcalls]
    rfl
  constructor
  · intro id record hid
    rw [hfeedback] at hid
    cases hid
  · intro n call hcall
    rw [hcalls] at hcall
    cases hcall
  · intro n call hcall
    rw [hcalls] at hcall
    cases hcall
  · nofun
  · intro m n p hm
    rw [hstages] at hm
    cases hm
  · intro n stage hstage
    rw [hstages] at hstage
    cases hstage
  · intro p
    refine .inr (.inr ⟨fun n => ?_, fun row => ?_⟩)
    · rw [hstages]
      nofun
    · have hnone : (initial.rollupsOf p)[row.1]? = none := by
        rw [rollupsOf, show initial.rollups[p]? = none from Std.TreeMap.getElem?_emptyc]
        exact Std.TreeMap.getElem?_emptyc
      rw [hnone]
      exact iff_of_false nofun nofun

/-- In every run whose calls keep apart, in every state in which no call is running, the rollups of
each project are those of its feedback, and they count every feedback that was acknowledged. -/
theorem rollups_converge {actions : List FeedbackAction}
    (h : Transition.run FeedbackStore.step initial actions = some s)
    (hapart : Transition.Meets FeedbackStore.step (fun s action => s.keepsApart action) initial
      actions)
    (hdone : ∀ n : Nat, s.calls[n]? = none) :
    (∀ p group stats, (s.rollupsOf p)[group]? = some stats ↔
      (group, stats) ∈ s.feedback.rollups p) ∧
    ∀ id ∈ s.acknowledged, ∃ record, s.feedback[id]? = some record ∧
      ∀ p ∈ record.projectName, ∃ stats, (s.rollupsOf p)[record.group]? = some stats ∧
        record ∈ s.feedback.rowsOf p ∧ stats.feedbackCount =
          ((s.feedback.rowsOf p).filter fun other => other.group = record.group).length := by
  have hs : s.Sound := Transition.run_invariant Sound
    (fun s action t hs hapart h => hs.step hapart h) sound_initial hapart h
  have hidle (n : Nat) : s.stageOf n = none := by
    rw [stageOf, hdone]
    rfl
  have hrollups : ∀ p group stats, (s.rollupsOf p)[group]? = some stats ↔
      (group, stats) ∈ s.feedback.rollups p := by
    intro p group stats
    rcases hs.settled p with ⟨n, hn⟩ | ⟨n, hn, -⟩ | ⟨-, hrows⟩
    · rw [hidle] at hn
      cases hn
    · rw [hidle] at hn
      cases hn
    · exact hrows (group, stats)
  refine ⟨hrollups, fun id hid => ?_⟩
  obtain ⟨record, hrecord⟩ := Option.isSome_iff_exists.1 (hs.acknowledged id hid)
  refine ⟨record, hrecord, fun p hp => ?_⟩
  obtain ⟨stats, hstats, hcount, hrow⟩ := FeedbackTable.counted hrecord hp
  exact ⟨stats, (hrollups _ _ _).2 hstats, hrow, hcount⟩

/-- Feedback without a score. -/
def sampleFeedback (id : String) : FeedbackRecord := ⟨id, none, some "p", "k", none, 0⟩

def sampleCall : List FeedbackAction :=
  .call 0 (sampleFeedback "f") :: List.replicate 6 (.proceed 0)

theorem rollups_converge_sample :
    ∃ s, Transition.run FeedbackStore.step initial sampleCall = some s ∧
      s.acknowledged = ["f"] ∧
      (∀ p group stats, (s.rollupsOf p)[group]? = some stats ↔
        (group, stats) ∈ s.feedback.rollups p) ∧
      ∀ id ∈ s.acknowledged, ∃ record, s.feedback[id]? = some record ∧
        ∀ p ∈ record.projectName, ∃ stats, (s.rollupsOf p)[record.group]? = some stats ∧
          record ∈ s.feedback.rowsOf p ∧ stats.feedbackCount =
            ((s.feedback.rowsOf p).filter fun other => other.group = record.group).length := by
  have hrun : (Transition.run FeedbackStore.step initial sampleCall).map (fun s =>
      (s.calls.isEmpty, s.acknowledged)) = some (true, ["f"]) := by
    decide +kernel
  have hapart : Transition.Meets FeedbackStore.step (fun s action => s.keepsApart action) initial
      sampleCall := by
    decide +kernel
  obtain ⟨s, hs, hfacts⟩ := Option.map_eq_some_iff.1 hrun
  obtain ⟨hempty, hacknowledged⟩ := Prod.mk.inj hfacts
  exact ⟨s, hs, hacknowledged,
    rollups_converge hs hapart fun n => Std.TreeMap.getElem?_of_isEmpty hempty⟩

/-- The second call deletes the rollups between what the first one has read and inserts: the first
inserts what it has read, and the second fails at the primary key. -/
def sampleRace : List FeedbackAction :=
  .call 0 (sampleFeedback "f") :: List.replicate 5 (.proceed 0) ++
    .call 1 (sampleFeedback "g") :: List.replicate 4 (.proceed 1) ++
    .proceed 0 :: List.replicate 2 (.proceed 1)

theorem rollups_miss_feedback :
    ∃ s, Transition.run FeedbackStore.step initial sampleRace = some s ∧
      (∀ n : Nat, s.calls[n]? = none) ∧
      ¬ ∀ p group stats, (s.rollupsOf p)[group]? = some stats ↔
        (group, stats) ∈ s.feedback.rollups p := by
  have hrun : (Transition.run FeedbackStore.step initial sampleRace).map (fun s =>
      (s.calls.isEmpty, (s.rollupsOf "p").toList.map fun entry => entry.2.feedbackCount,
        (s.feedback.rollups "p").map fun entry => entry.2.feedbackCount)) =
      some (true, [1], [2]) := by
    decide +kernel
  obtain ⟨s, hs, hfacts⟩ := Option.map_eq_some_iff.1 hrun
  obtain ⟨hempty, hfacts⟩ := Prod.mk.inj hfacts
  obtain ⟨hstored, hexpected⟩ := Prod.mk.inj hfacts
  refine ⟨s, hs, fun n => Std.TreeMap.getElem?_of_isEmpty hempty, fun hsame => ?_⟩
  have hmem : 2 ∈ (s.feedback.rollups "p").map fun entry => entry.2.feedbackCount := by
    rw [hexpected]
    exact List.mem_cons_self
  obtain ⟨⟨group, stats⟩, hentry, hcount⟩ := List.mem_map.1 hmem
  have hrow := (hsame "p" group stats).2 hentry
  have hcounts : stats.feedbackCount ∈ (s.rollupsOf "p").toList.map fun entry =>
      entry.2.feedbackCount :=
    List.mem_map.2 ⟨_, Std.TreeMap.mem_toList_iff_getElem?_eq_some.2 hrow, rfl⟩
  rw [hstored, List.mem_singleton] at hcounts
  exact absurd (hcounts.symm.trans hcount) (by decide)

end FeedbackStore

end KevinDb
