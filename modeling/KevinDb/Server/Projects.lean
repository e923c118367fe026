import KevinDb.Lib.Ranking
import KevinDb.Lib.Table
import KevinDb.Lib.Uuid

namespace KevinDb
set_option autoImplicit true

/-- What the handlers ask the database for: its projects, the order of its collation and the
UUIDs of the names. -/
structure ServerState where
  uuids : UuidLib
  projects : List String
  projects_nodup : projects.Nodup
  before : String → String → Prop
  decBefore : DecidableRel before
  linear : IsLinearOrder String before

namespace ServerState

instance (state : ServerState) : DecidableRel state.before := state.decBefore

instance (state : ServerState) : IsLinearOrder String state.before := state.linear

def projectUuid (state : ServerState) (projectName : String) : Uuid :=
  state.uuids.newV5 ("kevindb:project:" ++ projectName)

def listProjectNames (state : ServerState) (name : Option String) (limit : Option Nat) :
    List String :=
  let limit := min (limit.getD 100) 1000
  let rows := match name with
    | some name => state.projects.filter (· = name)
    | none => state.projects
  (rows.insertionSort state.before).take limit

end ServerState

/-- `dedupe`. -/
def dedupeAux (seen : List String) : List String → List String
  | [] => []
  | value :: values =>
    if trim value = "" ∨ value ∈ seen then dedupeAux seen values
    else value :: dedupeAux (value :: seen) values

def dedupe (values : List String) : List String := dedupeAux [] values

theorem mem_dedupeAux : value ∈ dedupeAux seen values ↔
    value ∈ values ∧ trim value ≠ "" ∧ value ∉ seen := by
  induction values generalizing seen with
  | nil => simp [dedupeAux]
  | cons first values ih =>
    rw [dedupeAux]
    split
    · next h =>
      rw [ih]
      constructor
      · intro ⟨hmem, hrest⟩
        exact ⟨List.mem_cons_of_mem _ hmem, hrest⟩
      · intro ⟨hmem, hblank, hseen⟩
        rcases List.mem_cons.1 hmem with rfl | hmem
        · exact absurd h (not_or_intro hblank hseen)
        · exact ⟨hmem, hblank, hseen⟩
    · next h =>
      rw [not_or] at h
      rw [List.mem_cons, ih, List.mem_cons, List.mem_cons, not_or]
      by_cases he : value = first
      · subst he
        simp [h]
      · simp [he]

theorem mem_dedupe : value ∈ dedupe values ↔ value ∈ values ∧ trim value ≠ "" := by
  simp [dedupe, mem_dedupeAux]

namespace ServerState

def projectNamesById (state : ServerState) (projectNames : List String) : Table String String :=
  projectNames.foldl (fun table name => table.insert (state.projectUuid name).hyphenated name) ∅

/-- The project that a selector stands for, if the loop finds one. -/
def resolveSelector (state : ServerState) (projectNames : List String) (selector : String) :
    Option String :=
  if trim selector = "" then none else
    let uuidKey := (state.uuids.parseStr selector).map Uuid.hyphenated
    match uuidKey.bind fun key => (state.projectNamesById projectNames)[key]? with
    | some name => some name
    | none =>
      if selector ∈ projectNames ∨ uuidKey.isNone then some selector else none

def resolveProjectSelectors (state : ServerState) (selectors : List String) : List String :=
  if selectors = [] then [] else
    dedupe (selectors.filterMap (state.resolveSelector (state.listProjectNames none none)))

end ServerState

structure StoredRunHead where
  projectName : String
  traceId : String
  parentRunId : Option String
  parentSpanId : Option String
  name : String
  runType : String
  startTimeUnixNano : Int
  endTimeUnixNano : Int
deriving DecidableEq, Repr

def ServerState.resolveWriteProjectName (state : ServerState) (sessionName sessionId : Option String)
    (existing : Option StoredRunHead) : String :=
  match sessionName.filter fun name => trim name ≠ "" with
  | some sessionName => sessionName
  | none =>
    match existing with
    | some existing => existing.projectName
    | none =>
      match sessionId.bind fun sessionId =>
        (state.resolveProjectSelectors [sessionId]).getLast? with
      | some projectName => projectName
      | none => "default"

namespace ServerState

variable {state : ServerState}

theorem mem_listProjectNames (hp : p ∈ state.projects) :
    p ∈ state.listProjectNames none none ↔ rank state.before state.projects p < 100 := by
  have hperm := List.perm_insertionSort state.before state.projects
  have hsorted := List.pairwise_insertionSort state.before state.projects
  have huntied : Untied state.before state.projects := fun a _ b _ => antisymm
  rw [← rank_perm hperm]
  constructor
  · exact rank_of_mem_take hsorted
  · intro hrank
    apply mem_take_of_rankEnd hsorted (hperm.mem_iff.2 hp)
    rw [rankEnd_perm hperm, rankEnd_untied huntied state.projects_nodup hp, ← rank_perm hperm]
    exact hrank

theorem listProjectNames_nodup : (state.listProjectNames none none).Nodup :=
  (((List.perm_insertionSort _ _).nodup_iff).2 state.projects_nodup).sublist (List.take_sublist _ _)

theorem mem_projects (hp : p ∈ state.listProjectNames none none) : p ∈ state.projects :=
  (List.perm_insertionSort _ _).mem_iff.1 (List.mem_of_mem_take hp)

/-- Different projects have different UUIDs. -/
def DistinctUuids (state : ServerState) : Prop :=
  ∀ q ∈ state.projects, ∀ q' ∈ state.projects, state.projectUuid q = state.projectUuid q' → q = q'

theorem DistinctUuids.of_nodup (h : (state.projects.map state.projectUuid).Nodup) :
    state.DistinctUuids :=
  fun _ hq _ hq' he => List.inj_on_of_nodup_map h hq hq' he

theorem get_projectNamesById (h : state.DistinctUuids) (id : Uuid) (name : String) :
    (state.projectNamesById (state.listProjectNames none none))[id.hyphenated]? = some name ↔
      name ∈ state.listProjectNames none none ∧ state.projectUuid name = id := by
  rw [projectNamesById, Table.get_foldl_insert _ (fun name => (state.projectUuid name).hyphenated)
    (fun name => name)]
  · constructor
    · rintro ⟨_, hmem, hid, rfl⟩
      exact ⟨hmem, Uuid.hyphenated_injective hid⟩
    · rintro ⟨hmem, rfl⟩
      exact ⟨name, hmem, rfl, rfl⟩
  · apply List.Nodup.map_on _ listProjectNames_nodup
    intro q hq q' hq' he
    exact h q (mem_projects hq) q' (mem_projects hq') (Uuid.hyphenated_injective he)

/-- The UUID of a listed project stands for the project. -/
theorem resolveSelector_listed (h : state.DistinctUuids)
    (hselector : state.uuids.parseStr selector = some (state.projectUuid p))
    (hp : p ∈ state.listProjectNames none none) :
    state.resolveSelector (state.listProjectNames none none) selector = some p := by
  have hblank : trim selector ≠ "" := by
    intro hblank
    rw [state.uuids.parseStr_blank selector hblank] at hselector
    cases hselector
  rw [resolveSelector, if_neg hblank, hselector]
  simp only [Option.map_some, Option.bind_some, (get_projectNamesById h _ p).2 ⟨hp, rfl⟩]

/-- A UUID stands for listed projects only. -/
theorem resolveSelector_mem {id : Uuid} (h : state.DistinctUuids)
    (hselector : state.uuids.parseStr selector = some id)
    (hname : state.resolveSelector (state.listProjectNames none none) selector = some name) :
    name ∈ state.listProjectNames none none := by
  rw [resolveSelector, hselector] at hname
  split at hname
  · cases hname
  · simp only [Option.map_some, Option.bind_some, Option.isNone_some] at hname
    split at hname
    · next found hfound =>
      obtain rfl := Option.some.inj hname
      exact ((get_projectNamesById h id found).1 hfound).1
    · split at hname
      · next hlisted =>
        obtain rfl := Option.some.inj hname
        exact hlisted.resolve_right Bool.false_ne_true
      · cases hname

theorem resolveSelector_unlisted (h : state.DistinctUuids) (hmem : p ∈ state.projects)
    (hselector : state.uuids.parseStr selector = some (state.projectUuid p))
    (hp : p ∉ state.listProjectNames none none)
    (hunnamed : selector ∉ state.listProjectNames none none) :
    state.resolveSelector (state.listProjectNames none none) selector = none := by
  have hnone : (state.projectNamesById (state.listProjectNames none none))[
      (state.projectUuid p).hyphenated]? = none := by
    rw [Option.eq_none_iff_forall_ne_some]
    intro q hq
    obtain ⟨hlisted, hid⟩ := (get_projectNamesById h _ q).1 hq
    obtain rfl := h q (mem_projects hlisted) p hmem hid
    exact hp hlisted
  rw [resolveSelector, hselector]
  simp [hnone, hunnamed]

theorem mem_resolveProjectSelectors : p ∈ state.resolveProjectSelectors selectors ↔
    trim p ≠ "" ∧ ∃ selector ∈ selectors,
      state.resolveSelector (state.listProjectNames none none) selector = some p := by
  rw [resolveProjectSelectors]
  split
  · next h => simp [h]
  · rw [mem_dedupe, List.mem_filterMap, and_comm]

theorem resolveProjectSelectors_singleton
    (h : state.resolveSelector (state.listProjectNames none none) selector = some p)
    (hp : trim p ≠ "") : state.resolveProjectSelectors [selector] = [p] := by
  simp [resolveProjectSelectors, h, dedupe, dedupeAux, hp]

theorem resolveWriteProjectName_new (hname : ∀ name ∈ sessionName, trim name = "") :
    state.resolveWriteProjectName sessionName (some selector) none =
      (state.resolveProjectSelectors [selector]).getLast?.getD "default" := by
  have hnone : sessionName.filter (fun name => trim name ≠ "") = none := by
    rw [Option.filter_eq_none_iff]
    intro name hmem
    simpa using hname name hmem
  rw [resolveWriteProjectName, hnone, Option.bind_some]
  cases (state.resolveProjectSelectors [selector]).getLast? <;> rfl

/-- A UUID selector resolves to its project on both paths exactly if the name is not blank and
stands among the first hundred. -/
theorem project_selector_resolves (state : ServerState) (hdistinct : state.DistinctUuids)
    (p selector : String) (hp : p ∈ state.projects)
    (hselector : state.uuids.parseStr selector = some (state.projectUuid p)) :
    (state.resolveProjectSelectors [selector] = [p] ∧
      (∀ selectors, selector ∈ selectors → p ∈ state.resolveProjectSelectors selectors) ∧
      ∀ sessionName, (∀ name ∈ sessionName, trim name = "") →
        state.resolveWriteProjectName sessionName (some selector) none = p) ↔
      trim p ≠ "" ∧ rank state.before state.projects p < 100 := by
  rw [← mem_listProjectNames hp]
  constructor
  · rintro ⟨hread, -⟩
    have hmem : p ∈ state.resolveProjectSelectors [selector] := by
      rw [hread]
      exact List.mem_singleton_self p
    obtain ⟨hblank, _, hone, hresolved⟩ := mem_resolveProjectSelectors.1 hmem
    obtain rfl := List.mem_singleton.1 hone
    exact ⟨hblank, resolveSelector_mem hdistinct hselector hresolved⟩
  · rintro ⟨hblank, hlisted⟩
    have hresolved := resolveSelector_listed hdistinct hselector hlisted
    have hread := resolveProjectSelectors_singleton hresolved hblank
    refine ⟨hread, ?_, ?_⟩
    · intro selectors hmem
      exact mem_resolveProjectSelectors.2 ⟨hblank, selector, hmem, hresolved⟩
    · intro sessionName hname
      rw [resolveWriteProjectName_new hname, hread]
      rfl

/-- A project named by a number has the number as its UUID. -/
def numbered (projects : List String) (hprojects : projects.Nodup) : ServerState where
  uuids := .ofNewV5 fun name =>
    Fin.ofNat _ ((name.toList.drop 16).foldl (fun n c => 10 * n + (c.toNat - '0'.toNat)) 0)
  projects := projects
  projects_nodup := hprojects
  before := (· ≤ ·)
  decBefore := inferInstance
  linear := inferInstance

def alone : ServerState := numbered ["100"] (by decide)

theorem project_selector_resolves_alone :
    alone.resolveProjectSelectors [(alone.projectUuid "100").hyphenated] = ["100"] := by
  have hdistinct : alone.DistinctUuids := .of_nodup (List.nodup_singleton _)
  have hselector := alone.uuids.parseStr_hyphenated (alone.projectUuid "100")
  have hresolves := project_selector_resolves alone hdistinct "100" _ List.mem_cons_self hselector
  exact (hresolves.2 ⟨by decide +kernel, by decide +kernel⟩).1

/-- The projects "100" to "200". -/
def many : ServerState :=
  numbered ((List.range 101).map fun n => toString (100 + n))
    (List.nodup_range.map (toString_nat_injective.comp (add_right_injective 100)))

theorem many_distinctUuids : many.DistinctUuids := by
  apply DistinctUuids.of_nodup
  have huuids : many.projects.map many.projectUuid =
      (List.range 101).map fun n => Fin.ofNat (2 ^ 128) (100 + n) := by
    decide +kernel
  rw [huuids]
  apply List.Nodup.map_on _ List.nodup_range
  intro m hm n hn he
  have he := congrArg Fin.val he
  rw [List.mem_range] at hm hn
  rw [Fin.val_ofNat, Fin.val_ofNat, Nat.mod_eq_of_lt (by omega), Nat.mod_eq_of_lt (by omega)] at he
  omega

/-- The last of 101 projects cannot be selected, and a new run of its session goes to the
default project. -/
theorem many_last_unresolved :
    many.DistinctUuids ∧ "200" ∈ many.projects ∧
    many.resolveProjectSelectors [(many.projectUuid "200").hyphenated] = [] ∧
    many.resolveWriteProjectName none (some (many.projectUuid "200").hyphenated) none =
      "default" := by
  have hmem : "200" ∈ many.projects := by decide +kernel
  have hlisting : many.listProjectNames none none =
      (List.range 100).map fun n => toString (100 + n) := by
    decide +kernel
  have hnone := resolveSelector_unlisted many_distinctUuids hmem
    (many.uuids.parseStr_hyphenated _) (by rw [hlisting]; decide +kernel)
    (by rw [hlisting]; decide +kernel)
  have hread : many.resolveProjectSelectors [(many.projectUuid "200").hyphenated] = [] := by
    rw [resolveProjectSelectors, List.filterMap_cons_none hnone]
    rfl
  refine ⟨many_distinctUuids, hmem, hread, ?_⟩
  rw [resolveWriteProjectName_new (by simp), hread]
  rfl

end ServerState

end KevinDb
