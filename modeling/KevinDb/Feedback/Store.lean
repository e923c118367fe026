import KevinDb.Feedback.Rollup
import KevinDb.Lib.Transition

namespace KevinDb
set_option autoImplicit true

/-- The statement that a call of `insert_feedback` executes next. -/
inductive FeedbackStage where
  | ensureProject
  | loadOldProject
  | upsert (oldProjectName : Option String)
  | deleteRollups (projectName : String) (projects : List String)
  | loadRows (projectName : String) (projects : List String)
  | insertRollup (projectName : String) (row : FeedbackGroup × FeedbackRollupStats)
      (rows : List (FeedbackGroup × FeedbackRollupStats)) (projects : List String)
deriving DecidableEq

/-- A call goes on with the refresh of the next affected project, or returns. -/
def FeedbackStage.refreshNext : List String → Option FeedbackStage
  | [] => none
  | projectName :: projects => some (.deleteRollups projectName projects)

def FeedbackStage.insertNext (projectName : String) (projects : List String) :
    List (FeedbackGroup × FeedbackRollupStats) → Option FeedbackStage
  | [] => refreshNext projects
  | row :: rows => some (.insertRollup projectName row rows projects)

structure FeedbackCall where
  record : FeedbackRecord
  stage : FeedbackStage
deriving DecidableEq

/-- The tables, the calls that are running and the ids that calls have returned `Ok` for. -/
structure FeedbackStore where
  projects : List String
  feedback : FeedbackTable
  rollups : Table String (Table FeedbackGroup FeedbackRollupStats)
  calls : Table Nat FeedbackCall
  acknowledged : List String

namespace FeedbackStore

def initial : FeedbackStore := ⟨[], ∅, ∅, ∅, []⟩

def rollupsOf (s : FeedbackStore) (projectName : String) :
    Table FeedbackGroup FeedbackRollupStats :=
  s.rollups[projectName]?.getD ∅

/-- A statement of a call, and where the call goes on. There is no result if the statement fails,
and no next stage when the call returns. -/
def execute (s : FeedbackStore) (record : FeedbackRecord) :
    FeedbackStage → FeedbackStore × Option (Option FeedbackStage)
  | .ensureProject =>
    ({ s with projects := record.projectName.toList ∪ s.projects }, some (some .loadOldProject))
  | .loadOldProject => (s, some (some (.upsert (s.feedback[record.id]?.bind (·.projectName)))))
  | .upsert oldProjectName =>
    ({ s with feedback := s.feedback.upsertRecord record },
      some (FeedbackStage.refreshNext (affectedProjects oldProjectName record.projectName)))
  | .deleteRollups projectName projects =>
    ({ s with rollups := s.rollups.erase projectName },
      some (some (.loadRows projectName projects)))
  | .loadRows projectName projects =>
    (s, some (FeedbackStage.insertNext projectName projects (s.feedback.rollups projectName)))
  | .insertRollup projectName row rows projects =>
    -- The project is referenced, and the primary key has to be free.
    if projectName ∈ s.projects ∧ (s.rollupsOf projectName)[row.1]? = none then
      ({ s with rollups :=
          s.rollups.insert projectName ((s.rollupsOf projectName).insert row.1 row.2) },
        some (FeedbackStage.insertNext projectName projects rows))
    else (s, none)

def proceed (s : FeedbackStore) (n : Nat) (call : FeedbackCall) : FeedbackStore :=
  match s.execute call.record call.stage with
  | (s, some (some stage)) => { s with calls := s.calls.insert n { call with stage } }
  | (s, some none) => { s with
      calls := s.calls.erase n
      acknowledged := call.record.id :: s.acknowledged }
  | (s, none) => { s with calls := s.calls.erase n }

end FeedbackStore

/-- A call begins on a connection, executes its next statement, or stops with an error. -/
inductive FeedbackAction where
  | call (n : Nat) (record : FeedbackRecord)
  | proceed (n : Nat)
  | stop (n : Nat)

namespace FeedbackStore

def step (s : FeedbackStore) : FeedbackAction → Option FeedbackStore
  | .call n record =>
    if s.calls[n]? = none then
      let stage := if record.projectName.isSome then .ensureProject else .loadOldProject
      some { s with calls := s.calls.insert n { record, stage } }
    else none
  | .proceed n => s.calls[n]?.map (s.proceed n)
  | .stop n => s.calls[n]?.map fun _ => { s with calls := s.calls.erase n }

end FeedbackStore

/-- The projects whose rollups a call has still to delete. -/
def FeedbackStage.pending : FeedbackStage → List String
  | .deleteRollups projectName projects => projectName :: projects
  | .loadRows _ projects => projects
  | .insertRollup _ _ _ projects => projects
  | _ => []

/-- The project whose rollups a call has deleted and not yet inserted again. -/
def FeedbackStage.refreshed : FeedbackStage → Option String
  | .loadRows projectName _ => some projectName
  | .insertRollup projectName _ _ _ => some projectName
  | _ => none

/-- A call has changed `feedback`. -/
def FeedbackStage.hasStored : FeedbackStage → Bool
  | .ensureProject | .loadOldProject | .upsert _ => false
  | _ => true

/-- A call upserts where it still finds the project that it has read, and deletes no rollups that
another call is inserting. -/
def FeedbackStore.admits (s : FeedbackStore) (n : Nat) (call : FeedbackCall) : Bool :=
  match call.stage with
  | .upsert oldProjectName =>
    s.feedback[call.record.id]?.bind (·.projectName) = oldProjectName
  | .deleteRollups projectName _ => s.calls.toList.all fun entry =>
      entry.1 = n || entry.2.stage.refreshed ≠ some projectName
  | _ => true

/-- Calls keep apart, and none stops once it has upserted. -/
def FeedbackStore.keepsApart (s : FeedbackStore) : FeedbackAction → Bool
  | .call _ _ => true
  | .proceed n => s.calls[n]?.all (s.admits n)
  | .stop n => s.calls[n]?.all fun call => !call.stage.hasStored

end KevinDb
