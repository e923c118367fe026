import KevinDb.Lib.Table
import KevinDb.Lib.Text
import KevinDb.Lib.Transition
import KevinDb.Record

namespace KevinDb
set_option autoImplicit true

structure CompactionServiceConfig where
  holderId : String
  leaseDurationNanos : Nat
deriving DecidableEq, Repr

def normalizeHolderId (holderId : String) : Option String :=
  if trim holderId = "" then none else some (trim holderId)

/-- `duration_nanos`. -/
def durationNanos (nanos : Nat) : Option Int :=
  if nanos = 0 ∨ i64Max < nanos then none else some nanos

/-- A row of `compaction_leases` under its project. -/
structure CompactionLease where
  holderId : String
  leaseExpiresAtUnixNano : Int
deriving DecidableEq, Repr

abbrev Leases := Table String CompactionLease

/-- The transaction of `try_acquire_compaction_lease`: a lease that has expired or is the
holder's own is deleted, then the new one is inserted unless there still is one. -/
def Leases.tryAcquire (leases : Leases) (projectName holderId : String)
    (leaseExpiresAtUnixNano nowUnixNano : Int) : Leases × Bool :=
  let leases : Leases := match leases[projectName]? with
    | none => leases
    | some lease =>
      if lease.leaseExpiresAtUnixNano ≤ nowUnixNano ∨ lease.holderId = holderId then
        leases.erase projectName
      else leases
  match leases[projectName]? with
  | none => (leases.insert projectName ⟨holderId, leaseExpiresAtUnixNano⟩, true)
  | some _ => (leases, false)

/-- `release_compaction_lease`. -/
def Leases.release (leases : Leases) (projectName holderId : String) : Leases :=
  match leases[projectName]? with
  | none => leases
  | some lease => if lease.holderId = holderId then leases.erase projectName else leases

/-- Where an execution of `run_compaction_service_once` stands. -/
inductive ServiceStage where
  | listing
  | scanning (projects : List String)
  | acquiring (projectName : String) (nowUnixNano leaseExpiresAtUnixNano : Int)
      (projects : List String)
  | compacting (projectName : String) (projects : List String)
  | releasing (projectName : String) (projects : List String)
deriving DecidableEq, Repr

structure ServiceExecution where
  holderId : String
  leaseDurationNanos : Int
  stage : ServiceStage
deriving DecidableEq, Repr

/-- A lease that a holder has acquired and not released, whatever has become of its row. -/
structure Holding where
  projectName : String
  holderId : String
  leaseExpiresAtUnixNano : Int
deriving DecidableEq, Repr

def Holding.isOf (projectName holderId : String) (holding : Holding) : Bool :=
  holding.projectName = projectName && holding.holderId = holderId

/-- The clock, the lease table, the executions in progress and the leases their holders have. -/
structure LeaseSystem where
  nowUnixNano : Int
  leases : Leases
  executions : List ServiceExecution
  holdings : List Holding

def LeaseSystem.initial (nowUnixNano : Int) : LeaseSystem := ⟨nowUnixNano, ∅, [], []⟩

/-- The steps of the services. An execution is named by its position. -/
inductive LeaseAction where
  | tick (nanos : Nat)
  | start (config : CompactionServiceConfig)
  | listProjects (i : Nat) (projects : List String)
  | readClock (i : Nat)
  | acquire (i : Nat)
  | compacted (i : Nat)
  | release (i : Nat)
  | stop (i : Nat)
deriving Repr

def ServiceExecution.at (execution : ServiceExecution) (stage : ServiceStage) :
    ServiceExecution :=
  { execution with stage }

/-- The clock reading for the next project. An expiry out of range ends the execution. -/
def ServiceExecution.readClock (nowUnixNano : Int) (execution : ServiceExecution) :
    Option (Option ServiceExecution) :=
  match execution.stage with
  | .scanning (projectName :: projects) =>
    if nowUnixNano + execution.leaseDurationNanos ≤ i64Max then
      some (some (execution.at (.acquiring projectName nowUnixNano
        (nowUnixNano + execution.leaseDurationNanos) projects)))
    else some none
  | _ => none

/-- The lease that the acquire of an execution gets, if it succeeds. -/
def LeaseSystem.acquires (s : LeaseSystem) (i : Nat) : Option Holding :=
  match s.executions[i]? with
  | some ⟨holderId, _, .acquiring projectName nowUnixNano leaseExpiresAtUnixNano _⟩ =>
    if (s.leases.tryAcquire projectName holderId leaseExpiresAtUnixNano nowUnixNano).2 then
      some ⟨projectName, holderId, leaseExpiresAtUnixNano⟩
    else none
  | _ => none

def LeaseSystem.step (s : LeaseSystem) : LeaseAction → Option LeaseSystem
  | .tick nanos => some { s with nowUnixNano := s.nowUnixNano + nanos }
  | .start config => do
    let holderId ← normalizeHolderId config.holderId
    let leaseDurationNanos ← durationNanos config.leaseDurationNanos
    return { s with executions := s.executions ++ [⟨holderId, leaseDurationNanos, .listing⟩] }
  | .listProjects i projects =>
    match s.executions[i]? with
    | some execution =>
      if execution.stage = .listing then
        some { s with executions := s.executions.set i (execution.at (.scanning projects)) }
      else none
    | none => none
  | .readClock i => do
    let execution ← s.executions[i]?
    let next ← execution.readClock s.nowUnixNano
    return { s with executions := Transition.replace s.executions i next }
  | .acquire i =>
    match s.executions[i]? with
    | some execution =>
      match execution.stage with
      | .acquiring projectName nowUnixNano leaseExpiresAtUnixNano projects =>
        let (leases, acquired) := s.leases.tryAcquire projectName execution.holderId
          leaseExpiresAtUnixNano nowUnixNano
        let next := if acquired then .compacting projectName projects else .scanning projects
        some { s with
          leases
          executions := s.executions.set i (execution.at next)
          holdings :=
            if acquired then
              ⟨projectName, execution.holderId, leaseExpiresAtUnixNano⟩ ::
                s.holdings.filter (!·.isOf projectName execution.holderId)
            else s.holdings }
      | _ => none
    | none => none
  | .compacted i =>
    match s.executions[i]? with
    | some execution =>
      match execution.stage with
      | .compacting projectName projects =>
        some { s with
          executions := s.executions.set i (execution.at (.releasing projectName projects)) }
      | _ => none
    | none => none
  | .release i =>
    match s.executions[i]? with
    | some execution =>
      match execution.stage with
      | .releasing projectName projects =>
        some { s with
          leases := s.leases.release projectName execution.holderId
          executions := s.executions.set i (execution.at (.scanning projects))
          holdings := s.holdings.filter (!·.isOf projectName execution.holderId) }
      | _ => none
    | none => none
  | .stop i => some { s with executions := s.executions.eraseIdx i }

variable {leases : Leases} {s s' : LeaseSystem}

/-- An acquire takes the place of no lease but an expired one or the holder's own. -/
theorem Leases.tryAcquire_cases (leases : Leases) (projectName holderId : String)
    (leaseExpiresAtUnixNano nowUnixNano : Int) :
    ((leases.tryAcquire projectName holderId leaseExpiresAtUnixNano nowUnixNano).2 = true ∧
      (∀ lease, leases[projectName]? = some lease →
        lease.leaseExpiresAtUnixNano ≤ nowUnixNano ∨ lease.holderId = holderId) ∧
      ∀ other : String,
        (leases.tryAcquire projectName holderId leaseExpiresAtUnixNano nowUnixNano).1[other]? =
          if projectName = other then some ⟨holderId, leaseExpiresAtUnixNano⟩
          else leases[other]?) ∨
    (leases.tryAcquire projectName holderId leaseExpiresAtUnixNano nowUnixNano) =
      (leases, false) := by
  unfold Leases.tryAcquire
  cases hlease : leases[projectName]? with
  | none =>
    simp only [hlease]
    refine .inl ⟨trivial, nofun, fun other => ?_⟩
    exact Table.get_insert leases projectName other _
  | some lease =>
    by_cases hfree : lease.leaseExpiresAtUnixNano ≤ nowUnixNano ∨ lease.holderId = holderId
    · simp only [if_pos hfree, Table.get_erase, if_true]
      refine .inl ⟨trivial, ?_, ?_⟩
      · intro old hold
        cases hold
        exact hfree
      · intro other
        rw [Table.get_insert, Table.get_erase]
        split
        · rfl
        · rfl
    · simp only [if_neg hfree, hlease]
      exact .inr trivial

/-- A release leaves the leases of other holders alone. -/
theorem Leases.get_release {lease : CompactionLease} (h : leases[other]? = some lease)
    (hother : other = projectName → lease.holderId ≠ holderId) :
    (leases.release projectName holderId)[other]? = some lease := by
  unfold Leases.release
  split
  · exact h
  next own hown =>
    split
    next hholder =>
      rw [Table.get_erase, if_neg, h]
      rintro rfl
      rw [h] at hown
      cases hown
      exact hother rfl hholder
    · exact h

theorem Holding.isOf_eq_false {holding : Holding} {project holder : String} :
    (!holding.isOf project holder) = true ↔
      (holding.projectName = project → holding.holderId ≠ holder) := by
  simp [Holding.isOf, imp_iff_not_or]

/-- A lease whose row is gone has expired, and no execution read the clock in the future. -/
structure LeaseSystem.Fenced (s : LeaseSystem) : Prop where
  holding : ∀ holding ∈ s.holdings,
    s.leases[holding.projectName]? =
        some ⟨holding.holderId, holding.leaseExpiresAtUnixNano⟩ ∨
      holding.leaseExpiresAtUnixNano ≤ s.nowUnixNano
  reading : ∀ execution ∈ s.executions,
    ∀ projectName nowUnixNano leaseExpiresAtUnixNano projects,
      execution.stage = .acquiring projectName nowUnixNano leaseExpiresAtUnixNano projects →
        nowUnixNano ≤ s.nowUnixNano

theorem LeaseSystem.Fenced.initial (nowUnixNano : Int) :
    (LeaseSystem.initial nowUnixNano).Fenced :=
  ⟨List.forall_mem_nil _, List.forall_mem_nil _⟩

/-- Executions that read no clock keep the readings in the past. -/
theorem LeaseSystem.Fenced.reading_set {execution : ServiceExecution} (hs : s.Fenced)
    (hstage : ∀ projectName nowUnixNano leaseExpiresAtUnixNano projects,
      execution.stage ≠ .acquiring projectName nowUnixNano leaseExpiresAtUnixNano projects) :
    ∀ other ∈ s.executions.set i execution,
      ∀ projectName nowUnixNano leaseExpiresAtUnixNano projects,
        other.stage = .acquiring projectName nowUnixNano leaseExpiresAtUnixNano projects →
          nowUnixNano ≤ s.nowUnixNano := by
  intro other hother projectName nowUnixNano leaseExpiresAtUnixNano projects hacquiring
  rcases List.mem_or_eq_of_mem_set hother with hother | rfl
  · exact hs.reading other hother _ _ _ _ hacquiring
  · exact absurd hacquiring (hstage _ _ _ _)

theorem LeaseSystem.Fenced.step (hs : s.Fenced) (h : s.step action = some s') : s'.Fenced := by
  cases action with
  | tick nanos =>
    cases h
    refine ⟨fun holding hholding => ?_, fun execution hexecution p now e rest hstage => ?_⟩
    · refine (hs.holding holding hholding).imp_right fun hle => hle.trans ?_
      exact Int.le_add_of_nonneg_right (Int.natCast_nonneg nanos)
    · refine (hs.reading execution hexecution p now e rest hstage).trans ?_
      exact Int.le_add_of_nonneg_right (Int.natCast_nonneg nanos)
  | start config =>
    obtain ⟨holderId, -, h⟩ := Option.bind_eq_some_iff.1 h
    obtain ⟨nanos, -, h⟩ := Option.bind_eq_some_iff.1 h
    cases h
    refine ⟨hs.holding, fun execution hexecution p now e rest hstage => ?_⟩
    rcases List.mem_append.1 hexecution with hexecution | hexecution
    · exact hs.reading execution hexecution p now e rest hstage
    · rw [List.mem_singleton.1 hexecution] at hstage
      cases hstage
  | listProjects i projects =>
    simp only [LeaseSystem.step] at h
    split at h
    next execution hi =>
      simp only [Option.ite_none_right_eq_some, Option.some.injEq] at h
      obtain ⟨-, rfl⟩ := h
      exact ⟨hs.holding, hs.reading_set nofun⟩
    · cases h
  | readClock i =>
    obtain ⟨execution, hi, h⟩ := Option.bind_eq_some_iff.1 h
    obtain ⟨next, hnext, h⟩ := Option.bind_eq_some_iff.1 h
    cases h
    refine ⟨hs.holding, fun other hother p now e rest hstage => ?_⟩
    rcases Transition.mem_replace hother with hother | rfl
    · exact hs.reading other hother p now e rest hstage
    · unfold ServiceExecution.readClock at hnext
      split at hnext
      · split at hnext
        · cases hnext
          cases hstage
          exact le_rfl
        · cases hnext
      · cases hnext
  | acquire i =>
    simp only [LeaseSystem.step] at h
    split at h
    next execution hi =>
      split at h
      next p now e rest hstage =>
        have hreading := hs.reading execution (List.mem_of_getElem? hi) _ _ _ _ hstage
        rcases s.leases.tryAcquire_cases p execution.holderId e now with
          ⟨hacquired, hfree, hget⟩ | hrefused
        · rw [hacquired] at h
          cases h
          refine ⟨?_, hs.reading_set nofun⟩
          intro holding hholding
          rcases List.mem_cons.1 hholding with rfl | hholding
          · exact .inl ((hget _).trans (if_pos rfl))
          · obtain ⟨hmem, hother⟩ := List.mem_filter.1 hholding
            rw [Holding.isOf_eq_false] at hother
            rcases hs.holding holding hmem with hrow | hexpired
            · by_cases hproject : p = holding.projectName
              · subst hproject
                -- The row of another holder gives way only when it has expired.
                have hle := (hfree _ hrow).resolve_right (hother rfl)
                exact .inr (hle.trans hreading)
              · exact .inl ((hget _).trans ((if_neg hproject).trans hrow))
            · exact .inr hexpired
        · rw [hrefused] at h
          cases h
          exact ⟨hs.holding, hs.reading_set nofun⟩
      · cases h
    · cases h
  | compacted i =>
    simp only [LeaseSystem.step] at h
    split at h
    next execution hi =>
      split at h
      · cases h
        exact ⟨hs.holding, hs.reading_set nofun⟩
      · cases h
    · cases h
  | release i =>
    simp only [LeaseSystem.step] at h
    split at h
    next execution hi =>
      split at h
      next p rest hstage =>
        cases h
        refine ⟨?_, hs.reading_set nofun⟩
        intro holding hholding
        obtain ⟨hmem, hother⟩ := List.mem_filter.1 hholding
        rw [Holding.isOf_eq_false] at hother
        exact (hs.holding holding hmem).imp_left fun hrow => Leases.get_release hrow hother
      · cases h
    · cases h
  | stop i =>
    cases h
    refine ⟨hs.holding, fun execution hexecution => ?_⟩
    exact hs.reading execution (List.mem_of_mem_eraseIdx hexecution)

theorem LeaseSystem.Fenced.run
    (h : Transition.run LeaseSystem.step (LeaseSystem.initial start) actions = some s) :
    s.Fenced :=
  Transition.run_invariant_of_step _ (fun _ _ _ hs hstep => LeaseSystem.Fenced.step hs hstep)
    (.initial start) h

/-- No two holders have leases of one project that have both not expired. -/
theorem LeaseSystem.Fenced.exclusive (hs : s.Fenced) {holding other : Holding}
    (hholding : holding ∈ s.holdings) (hother : other ∈ s.holdings)
    (hproject : holding.projectName = other.projectName)
    (hlive : s.nowUnixNano < holding.leaseExpiresAtUnixNano)
    (hlive' : s.nowUnixNano < other.leaseExpiresAtUnixNano) :
    holding.holderId = other.holderId := by
  have hrow := (hs.holding holding hholding).resolve_right (not_le.2 hlive)
  have hrow' := (hs.holding other hother).resolve_right (not_le.2 hlive')
  rw [hproject, hrow'] at hrow
  exact (congrArg CompactionLease.holderId (Option.some.inj hrow)).symm

/-- The holder whose lease a release gives back. -/
def LeaseSystem.releases (s : LeaseSystem) (i : Nat) : Option (String × String) :=
  match s.executions[i]? with
  | some ⟨holderId, _, .releasing projectName _⟩ => some (projectName, holderId)
  | _ => none

theorem LeaseSystem.acquires_eq_some (h : s.step (.acquire i) = some s')
    (hacquired : s.acquires i = some acquired) :
    s'.leases[acquired.projectName]? =
        some ⟨acquired.holderId, acquired.leaseExpiresAtUnixNano⟩ ∧
      ∃ nowUnixNano, (∀ lease, s.leases[acquired.projectName]? = some lease →
          lease.leaseExpiresAtUnixNano ≤ nowUnixNano ∨ lease.holderId = acquired.holderId) ∧
        ∃ execution ∈ s.executions, ∃ projects, execution.stage = .acquiring acquired.projectName
          nowUnixNano acquired.leaseExpiresAtUnixNano projects := by
  unfold LeaseSystem.acquires at hacquired
  split at hacquired
  next holder nanos p now expires projects hi =>
    simp only [Option.ite_none_right_eq_some, Option.some.injEq] at hacquired
    obtain ⟨hflag, rfl⟩ := hacquired
    simp only [LeaseSystem.step, hi, Option.some.injEq] at h
    subst h
    rcases s.leases.tryAcquire_cases p holder expires now with ⟨-, hfree, hget⟩ | hrefused
    · refine ⟨(hget p).trans (if_pos rfl), now, hfree, _, List.mem_of_getElem? hi, projects, rfl⟩
    · rw [hrefused] at hflag
      cases hflag
  · cases hacquired

theorem LeaseSystem.releases_eq_some (h : s.step (.release i) = some s') :
    ∃ projectName holderId, s.releases i = some (projectName, holderId) ∧
      s'.leases = s.leases.release projectName holderId := by
  simp only [LeaseSystem.step] at h
  split at h
  next execution hi =>
    split at h
    next p rest hstage =>
      cases h
      refine ⟨p, execution.holderId, ?_, rfl⟩
      cases execution
      cases hstage
      rw [LeaseSystem.releases, hi]
    · cases h
  · cases h

/-- When an acquire succeeds, the lease that another holder acquired for the project and has not
released has expired. A release removes no lease of another holder. -/
theorem compaction_lease_exclusive (start : Int) (actions : List LeaseAction) (s : LeaseSystem)
    (h : Transition.run LeaseSystem.step (LeaseSystem.initial start) actions = some s) :
    (∀ i s' acquired, s.step (.acquire i) = some s' → s.acquires i = some acquired →
      s'.leases[acquired.projectName]? =
          some ⟨acquired.holderId, acquired.leaseExpiresAtUnixNano⟩ ∧
        ∀ holding ∈ s.holdings, holding.projectName = acquired.projectName →
          holding.holderId ≠ acquired.holderId →
            holding.leaseExpiresAtUnixNano ≤ s.nowUnixNano) ∧
    ∀ i s', s.step (.release i) = some s' →
      ∃ projectName holderId, s.releases i = some (projectName, holderId) ∧
        ∀ (other : String) (lease : CompactionLease), s.leases[other]? = some lease →
          lease.holderId ≠ holderId → s'.leases[other]? = some lease := by
  have hs := LeaseSystem.Fenced.run h
  constructor
  · intro i s' acquired hstep hacquired
    obtain ⟨hrow, now, hfree, execution, hexecution, projects, hstage⟩ :=
      LeaseSystem.acquires_eq_some hstep hacquired
    refine ⟨hrow, ?_⟩
    intro holding hholding hproject hother
    rcases hs.holding holding hholding with hlease | hexpired
    · rw [hproject] at hlease
      have hle := (hfree _ hlease).resolve_right hother
      exact hle.trans (hs.reading execution hexecution _ _ _ _ hstage)
    · exact hexpired
  · intro i s' hstep
    obtain ⟨projectName, holderId, hreleases, hleases⟩ := LeaseSystem.releases_eq_some hstep
    refine ⟨projectName, holderId, hreleases, ?_⟩
    intro other lease hlease hother
    rw [hleases]
    exact Leases.get_release hlease fun _ => hother

/-- Holder `a` acquires at time 0 for 10, and `b` reads the clock at time 10. -/
def sampleTakeover : List LeaseAction :=
  [.start ⟨"a", 10⟩, .start ⟨" b", 10⟩, .listProjects 0 ["demo"], .listProjects 1 ["demo"],
    .readClock 0, .acquire 0, .tick 10, .readClock 1]

/-- The lease of the first holder has expired when the second takes over, and the late release of
the first leaves the second's lease. -/
theorem compaction_lease_exclusive_takeover :
    ∃ s s' t t', Transition.run LeaseSystem.step (.initial 0) sampleTakeover = some s ∧
      s.step (.acquire 1) = some s' ∧
      (∀ holding ∈ s.holdings, holding.projectName = "demo" → holding.holderId ≠ "b" →
        holding.leaseExpiresAtUnixNano ≤ s.nowUnixNano) ∧
      Transition.run LeaseSystem.step (.initial 0)
        (sampleTakeover ++ [.acquire 1, .compacted 0]) = some t ∧
      t.step (.release 0) = some t' ∧ t'.leases["demo"]? = some ⟨"b", 20⟩ := by
  have hrun : ((Transition.run LeaseSystem.step (.initial 0) sampleTakeover).bind fun s =>
      (s.step (.acquire 1)).map fun _ => s.acquires 1) = some (some ⟨"demo", "b", 20⟩) := by
    decide +kernel
  have hlate : ((Transition.run LeaseSystem.step (.initial 0)
      (sampleTakeover ++ [.acquire 1, .compacted 0])).bind fun t =>
        (t.step (.release 0)).map fun _ => (t.releases 0, t.leases["demo"]?)) =
          some (some ("demo", "a"), some ⟨"b", 20⟩) := by
    decide +kernel
  obtain ⟨s, hs, hfacts⟩ := Option.bind_eq_some_iff.1 hrun
  obtain ⟨s', hs', hacquires⟩ := Option.map_eq_some_iff.1 hfacts
  obtain ⟨t, ht, hfacts⟩ := Option.bind_eq_some_iff.1 hlate
  obtain ⟨t', ht', hfacts⟩ := Option.map_eq_some_iff.1 hfacts
  obtain ⟨hreleases, hlease⟩ := Prod.mk.inj hfacts
  refine ⟨s, s', t, t', hs, hs',
    ((compaction_lease_exclusive 0 _ s hs).1 1 s' _ hs' hacquires).2, ht, ht', ?_⟩
  obtain ⟨project, holder, hown, hkeeps⟩ := (compaction_lease_exclusive 0 _ t ht).2 0 t' ht'
  rw [hreleases] at hown
  cases hown
  exact hkeeps "demo" _ hlease (by decide)

end KevinDb
