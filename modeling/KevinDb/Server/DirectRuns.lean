import KevinDb.Server.RunsQuery

namespace KevinDb
set_option autoImplicit true

/-- The reads of loading runs by their ids. -/
def directCost (readCost : String → ReadCost) (runIds : List String) : ReadCost where
  requests := (runIds.map fun runId => (readCost runId).requests).sum
  bytes := (runIds.map fun runId => (readCost runId).bytes).sum

/-- What `enforce_direct_runtime_limits` lets pass. -/
def ReadCost.IsWithin (cost : ReadCost) : Prop :=
  cost.requests ≤ maxDirectRunRequests ∧ cost.bytes ≤ maxDirectRunBytes

instance (cost : ReadCost) : Decidable cost.IsWithin := inferInstanceAs (Decidable (_ ∧ _))

variable {server : RunsServer} {request : RunsQueryRequest} {w : World}
  {readCost : String → ReadCost} {total : ReadCost} {runIds : List String}
  {runs found received : List RunSummary} {parentRunId : Option String} {limit : Nat}

theorem enforceDirectRuntimeLimits_eq_ok :
    enforceDirectRuntimeLimits total = .ok () ↔ total.IsWithin := by
  rw [ReadCost.IsWithin, ← rejectAbove_eq_ok "actual object-store requests",
    ← rejectAbove_eq_ok "actual bytes read", enforceDirectRuntimeLimits]
  cases rejectAbove "actual object-store requests" total.requests
      (some (Int.ofNat maxDirectRunRequests)) with
  | error message => exact iff_of_false nofun fun h => nomatch h.1
  | ok _ => exact (and_iff_right rfl).symm

theorem ReadCost.add_isWithin (next : ReadCost) :
    (total.add next).IsWithin ↔ total.requests + next.requests ≤ maxDirectRunRequests ∧
      total.bytes + next.bytes ≤ maxDirectRunBytes := by
  simp only [ReadCost.IsWithin, ReadCost.add, maxDirectRunRequests, maxDirectRunBytes,
    maxRunQueryCandidateSegments]
  omega

theorem ReadCost.add_eq {next : ReadCost} (h : (total.add next).IsWithin) :
    total.add next = ⟨total.requests + next.requests, total.bytes + next.bytes⟩ := by
  rw [ReadCost.add_isWithin, maxDirectRunRequests, maxDirectRunBytes,
    maxRunQueryCandidateSegments] at h
  rw [ReadCost.add, Nat.min_eq_right (by omega), Nat.min_eq_right (by omega)]

/-- The loop goes through all runs exactly if the sum of their reads is within the limits. -/
theorem World.loadEachRun_eq_ok
    (hload : List.Forall₂ (fun runId run => w.loadRunById runId = some (some run)) runIds runs)
    (htotal : total.IsWithin) :
    w.loadEachRun readCost total runIds = .ok found ↔ found = runs ∧
      total.requests + (directCost readCost runIds).requests ≤ maxDirectRunRequests ∧
      total.bytes + (directCost readCost runIds).bytes ≤ maxDirectRunBytes := by
  induction hload generalizing total found with
  | nil =>
    rw [World.loadEachRun, Except.ok.injEq, eq_comm]
    exact (and_iff_left htotal).symm
  | @cons runId run runIds runs hrun hrest ih =>
    have hfirst : w.loadEachRun readCost total (runId :: runIds) = (do
        enforceDirectRuntimeLimits (total.add (readCost runId))
        let rest ← w.loadEachRun readCost (total.add (readCost runId)) runIds
        return [run] ++ rest) := by
      rw [World.loadEachRun, hrun]
      rfl
    have hsum : directCost readCost (runId :: runIds) =
        ⟨(readCost runId).requests + (directCost readCost runIds).requests,
          (readCost runId).bytes + (directCost readCost runIds).bytes⟩ := rfl
    rw [hfirst, hsum]
    by_cases hnext : (total.add (readCost runId)).IsWithin
    · rw [enforceDirectRuntimeLimits_eq_ok.2 hnext]
      have ih := @ih (total.add (readCost runId))
      rw [ReadCost.add_eq hnext] at ih ⊢
      rw [ReadCost.add_eq hnext] at hnext
      constructor
      · intro h
        obtain ⟨_, -, h⟩ := bind_eq_ok h
        obtain ⟨rest, hrest, h⟩ := bind_eq_ok h
        obtain ⟨rfl, hrequests, hbytes⟩ := (ih hnext).1 hrest
        cases h
        dsimp only at hrequests hbytes ⊢
        exact ⟨rfl, by omega, by omega⟩
      · rintro ⟨rfl, hrequests, hbytes⟩
        dsimp only at hrequests hbytes ih
        have hrest := (ih hnext).2 ⟨rfl, by omega, by omega⟩
        simp only [bind, Except.bind, hrest]
        rfl
    · apply iff_of_false
      · intro h
        obtain ⟨_, hok, -⟩ := bind_eq_ok h
        exact hnext (enforceDirectRuntimeLimits_eq_ok.1 hok)
      · rw [ReadCost.add_isWithin] at hnext
        rintro ⟨-, hrequests, hbytes⟩
        dsimp only at hrequests hbytes
        omega

theorem World.loadDirectRuns_eq_ok
    (hload : List.Forall₂ (fun runId run => w.loadRunById runId = some (some run)) runIds runs)
    (hlength : runIds.length ≤ maxRunQueryCandidateSegments) :
    w.loadDirectRuns readCost runIds = .ok found ↔
      found = runs ∧ (directCost readCost runIds).IsWithin := by
  have hzero : (⟨0, 0⟩ : ReadCost).IsWithin := by decide
  rw [World.loadDirectRuns, (rejectAbove_eq_ok _ _ _).2 hlength]
  refine (World.loadEachRun_eq_ok hload hzero).trans ?_
  simp only [Nat.zero_add]
  rfl

/-- The answer to a request for runs by their ids does not depend on its offset. -/
theorem World.queryRuns_direct (hcheck : server.check request = .ok (runIds, parentRunId))
    (hne : runIds ≠ []) {answer : Except String RunsResponse} :
    w.QueryRuns server request answer ↔
      answer = (w.loadDirectRuns server.readCost runIds).map
        (.fromRunsWithLimit request.limit request.pageOffset) := by
  rw [World.QueryRuns, hcheck]
  exact iff_of_eq (if_pos hne)

theorem World.Follows.loads (h : w.Follows server request received)
    (hcheck : server.check request = .ok (runIds, parentRunId)) (hne : runIds ≠ []) :
    ∃ runs, w.loadDirectRuns server.readCost runIds = .ok runs := by
  have hok : ∀ response, w.QueryRuns server request (.ok response) →
      ∃ runs, w.loadDirectRuns server.readCost runIds = .ok runs := by
    intro response hresponse
    rw [World.queryRuns_direct hcheck hne] at hresponse
    cases hload : w.loadDirectRuns server.readCost runIds with
    | error message =>
      rw [hload] at hresponse
      cases hresponse
    | ok runs => exact ⟨runs, rfl⟩
  cases h with
  | last h => exact hok _ h
  | next h _ => exact hok _ h

/-- A page with all runs ends the listing. -/
theorem World.follows_short (hcheck : server.check request = .ok (runIds, parentRunId))
    (hne : runIds ≠ []) (hload : w.loadDirectRuns server.readCost runIds = .ok runs)
    (hlimit : request.limit = some limit) (hshort : runs.length ≤ limit) :
    w.Follows server request received ↔ received = runs := by
  have hanswer (answer : Except String RunsResponse) :
      w.QueryRuns server request answer ↔ answer = .ok ⟨runs, none⟩ := by
    rw [World.queryRuns_direct hcheck hne, hload, hlimit]
    change answer = .ok (.fromRunsWithLimit _ _ _) ↔ _
    rw [RunsResponse.fromRunsWithLimit, if_neg (by omega)]
  constructor
  · intro h
    cases h with
    | last h =>
      cases (hanswer _).1 h
      rfl
    | next h _ => cases (hanswer _).1 h
  · rintro rfl
    exact .last ((hanswer _).2 rfl)

/-- More runs than the limit are never followed to the end: each page is the first one again. -/
theorem World.not_follows_long (hne : runIds ≠ [])
    (hload : w.loadDirectRuns server.readCost runIds = .ok runs) (hlong : limit < runs.length)
    (h : w.Follows server request received) :
    server.check request = .ok (runIds, parentRunId) → request.limit ≠ some limit := by
  have hnext (request : RunsQueryRequest)
      (hcheck : server.check request = .ok (runIds, parentRunId))
      (hlimit : request.limit = some limit) (found : List RunSummary) :
      ¬ w.QueryRuns server request (.ok ⟨found, none⟩) := by
    rw [World.queryRuns_direct hcheck hne, hload, hlimit]
    intro h
    have h : (⟨found, none⟩ : RunsResponse) = .fromRunsWithLimit (some limit) _ runs :=
      Except.ok.inj h
    rw [RunsResponse.fromRunsWithLimit, if_pos hlong] at h
    cases h
  induction h with
  | last h =>
    intro hcheck hlimit
    exact hnext _ hcheck hlimit _ h
  | next h hrest ih => exact ih

/-- A client that follows the cursors of a request for existing runs by their ids stops and has each
run once exactly if the reads are within the limits, one page has all runs and no two ids name the
same run. -/
theorem World.run_ids_received_once (w : World)
    (hcheck : server.check request = .ok (runIds, parentRunId)) (hne : runIds ≠ [])
    (hlimit : request.limit = some limit) (hlength : runIds.length ≤ maxRunQueryCandidateSegments)
    (hexist : ∀ runId ∈ runIds, ∃ run, w.loadRunById runId = some (some run)) :
    (∃ received, w.Follows server request received ∧
      ∀ runId ∈ runIds, ∀ run, w.loadRunById runId = some (some run) → received.count run = 1) ↔
      (directCost server.readCost runIds).IsWithin ∧ runIds.length ≤ limit ∧
        (runIds.map w.loadRunById).Nodup := by
  obtain ⟨runs, hruns⟩ := exists_forall₂ hexist
  have hmap : runIds.map w.loadRunById = runs.map fun run => some (some run) := by
    rw [← List.forall₂_eq_eq_eq, List.forall₂_map_left_iff, List.forall₂_map_right_iff]
    exact hruns
  have hinjective : Function.Injective fun run : RunSummary => some (some run) :=
    (Option.some_injective _).comp (Option.some_injective _)
  have honce : (∀ runId ∈ runIds, ∀ run, w.loadRunById runId = some (some run) →
      runs.count run = 1) ↔ (runIds.map w.loadRunById).Nodup := by
    rw [hmap, List.nodup_map_iff hinjective, List.nodup_iff_count_eq_one]
    constructor
    · intro h run hrun
      have hloaded : some (some run) ∈ runIds.map w.loadRunById := by
        rw [hmap]
        exact List.mem_map_of_mem hrun
      obtain ⟨runId, hrunId, hload⟩ := List.mem_map.1 hloaded
      exact h runId hrunId run hload
    · intro h runId hrunId run hload
      have hloaded : some (some run) ∈ runs.map fun run => some (some run) := by
        rw [← hmap, ← hload]
        exact List.mem_map_of_mem hrunId
      exact h run ((List.mem_map_of_injective hinjective).1 hloaded)
  have hloads (found : List RunSummary) : w.loadDirectRuns server.readCost runIds = .ok found ↔
      found = runs ∧ (directCost server.readCost runIds).IsWithin :=
    World.loadDirectRuns_eq_ok hruns hlength
  rw [hruns.length_eq]
  constructor
  · rintro ⟨received, hfollows, hreceived⟩
    obtain ⟨found, hfound⟩ := hfollows.loads hcheck hne
    obtain ⟨rfl, hwithin⟩ := (hloads found).1 hfound
    rcases Nat.lt_or_ge limit found.length with hlong | hshort
    · exact absurd hlimit (World.not_follows_long hne hfound hlong hfollows hcheck)
    · obtain rfl := (World.follows_short hcheck hne hfound hlimit hshort).1 hfollows
      exact ⟨hwithin, hshort, honce.1 hreceived⟩
  · rintro ⟨hwithin, hshort, hnodup⟩
    have hfound := (hloads runs).2 ⟨rfl, hwithin⟩
    exact ⟨runs, (World.follows_short hcheck hne hfound hlimit hshort).2 rfl, honce.2 hnodup⟩

/-- A run with a number as its id. -/
def SpanRecord.numbered (spanId : String) (id : Uuid) : SpanRecord :=
  { SpanRecord.sample "t" spanId "n" .«end» 10 30 with runId := id.hyphenated }

/-- Ask for runs by numbers, in pages of one. -/
def RunsQueryRequest.numbered (ids : List Uuid) : RunsQueryRequest :=
  { RunsQueryRequest.sample with runIds := ids.map Uuid.hyphenated, projectName := [] }

theorem World.run_ids_received_once_sample :
    ∃ s received, Transition.run (System.step .sample 1) .initial
        [.ingest ⟨"p", 0⟩ ⟨1, 1⟩ [.numbered "s" 7] none] = some s ∧
      s.world.Follows .sample (.numbered [7]) received ∧
      ∀ run, s.world.loadRunById (7 : Uuid).hyphenated = some (some run) →
        received.count run = 1 := by
  have hrun : (Transition.run (System.step .sample 1) .initial
      [.ingest ⟨"p", 0⟩ ⟨1, 1⟩ [.numbered "s" 7] none]).map
      (fun s => (s.world.loadRunById (7 : Uuid).hyphenated).join.isSome) = some true := by
    decide +kernel
  obtain ⟨s, hs, hload⟩ := Option.map_eq_some_iff.1 hrun
  obtain ⟨run, hload⟩ := Option.isSome_iff_exists.1 hload
  have hload := Option.join_eq_some_iff.1 hload
  have hcheck : RunsServer.sample.check (.numbered [7]) = .ok ([(7 : Uuid).hyphenated], none) :=
    eq_ok_of_toOption (by decide +kernel)
  obtain ⟨received, hfollows, hreceived⟩ := (World.run_ids_received_once s.world hcheck
    (List.cons_ne_nil _ _) rfl (by decide) (by
      rw [List.forall_mem_singleton]
      exact ⟨run, hload⟩)).2 ⟨by decide, by decide, List.nodup_singleton _⟩
  exact ⟨s, received, hs, hfollows, hreceived _ List.mem_cons_self⟩

/-- Two runs in pages of one: the cursor leads to the first page again, for ever. -/
theorem World.run_ids_never_end :
    ∃ s, Transition.run (System.step .sample 2) .initial
        [.ingest ⟨"p", 0⟩ ⟨1, 1⟩ [.numbered "s" 7, .numbered "u" 8] none] = some s ∧
      (∀ id : Uuid, id = 7 ∨ id = 8 → ∃ run, s.world.loadRunById id.hyphenated = some (some run)) ∧
      ∀ received, ¬ s.world.Follows .sample (.numbered [7, 8]) received := by
  have hrun : (Transition.run (System.step .sample 2) .initial
      [.ingest ⟨"p", 0⟩ ⟨1, 1⟩ [.numbered "s" 7, .numbered "u" 8] none]).map
      (fun s => ((s.world.loadRunById (7 : Uuid).hyphenated).join.isSome,
        (s.world.loadRunById (8 : Uuid).hyphenated).join.isSome,
        (s.world.loadDirectRuns RunsServer.sample.readCost
          [(7 : Uuid).hyphenated, (8 : Uuid).hyphenated]).toOption.map List.length)) =
        some (true, true, some 2) := by
    decide +kernel
  obtain ⟨s, hs, hfacts⟩ := Option.map_eq_some_iff.1 hrun
  obtain ⟨hfirst, hfacts⟩ := Prod.mk.inj hfacts
  obtain ⟨hsecond, hloads⟩ := Prod.mk.inj hfacts
  obtain ⟨runs, hloads, hlength⟩ := Option.map_eq_some_iff.1 hloads
  have hcheck : RunsServer.sample.check (.numbered [7, 8]) =
      .ok ([(7 : Uuid).hyphenated, (8 : Uuid).hyphenated], none) :=
    eq_ok_of_toOption (by decide +kernel)
  refine ⟨s, hs, ?_, ?_⟩
  · rintro id (rfl | rfl)
    · obtain ⟨run, hload⟩ := Option.isSome_iff_exists.1 hfirst
      exact ⟨run, Option.join_eq_some_iff.1 hload⟩
    · obtain ⟨run, hload⟩ := Option.isSome_iff_exists.1 hsecond
      exact ⟨run, Option.join_eq_some_iff.1 hload⟩
  · intro received hfollows
    have hlong : 1 < runs.length := by omega
    exact World.not_follows_long (List.cons_ne_nil _ _) (eq_ok_of_toOption hloads) hlong hfollows
      hcheck rfl

end KevinDb
