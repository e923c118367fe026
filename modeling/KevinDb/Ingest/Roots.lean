import KevinDb.Compaction.System
import KevinDb.Ingest.TreeIndex

namespace KevinDb
set_option autoImplicit true

/-- The head of a run that is not deleted. -/
def Db.liveHead (db : Db) (k : RunKey) : Option RunHead := db.runHeads[k]?.filter (db.isLive k)

/-- The parents that the live runs of a trace name. -/
def Db.liveParent (db : Db) (k : RunKey) : Parents String :=
  fun span => (db.liveHead { k with spanId := span }).bind RunHead.parentSpanId

/-- The run names a live run of its trace as its parent, and the parents of that one do not lead
back to it. -/
def Db.hasTreeParent (db : Db) (k : RunKey) (head : RunHead) : Prop :=
  ∃ parent, head.parentSpanId = some parent ∧
    (db.liveHead { k with spanId := parent }).isSome ∧
      ¬ (db.liveParent k).Reaches parent k.spanId

def RunKey.trace (k : RunKey) : String × String := (k.projectName, k.traceId)

/-- The flag `is_root` of the live runs says whether they have a parent in the tree, outside the
traces that are still to be refreshed. -/
def Db.FreshBut (traces : List (String × String)) (db : Db) : Prop :=
  ∀ k head, db.liveHead k = some head → k.trace ∉ traces →
    (head.isRoot = false ↔ db.hasTreeParent k head)

abbrev Db.Fresh (db : Db) : Prop := db.FreshBut []

variable {db db' : Db} {k : RunKey} {head : RunHead} {traces : List (String × String)}
  {x : Externals}

theorem Db.liveHead_eq_some :
    db.liveHead k = some head ↔ db.runHeads[k]? = some head ∧ db.isLive k head :=
  Option.filter_eq_some_iff

theorem RunKey.trace_withSpan (k : RunKey) (span : String) :
    ({ k with spanId := span } : RunKey).trace = k.trace := rfl

/-- Whether a run has a parent in the tree is seen from the parents of its trace. -/
theorem Db.hasTreeParent_congr
    (h : ∀ span, (db'.liveHead { k with spanId := span }).map RunHead.parentSpanId =
      (db.liveHead { k with spanId := span }).map RunHead.parentSpanId)
    (hhead : head'.parentSpanId = head.parentSpanId) :
    db'.hasTreeParent k head' ↔ db.hasTreeParent k head := by
  have hparent : db'.liveParent k = db.liveParent k := by
    funext span
    have hjoin : ∀ db : Db, db.liveParent k span =
        ((db.liveHead { k with spanId := span }).map RunHead.parentSpanId).join := by
      intro db
      rw [Db.liveParent]
      cases db.liveHead { k with spanId := span } with
      | none => rfl
      | some head => rfl
    rw [hjoin, hjoin, h]
  have hlive : ∀ span, (db'.liveHead { k with spanId := span }).isSome =
      (db.liveHead { k with spanId := span }).isSome := by
    intro span
    rw [← Option.isSome_map, h, Option.isSome_map]
  simp only [Db.hasTreeParent, hparent, hlive, hhead]

/-- A trace whose live heads stay keeps its fresh flags. -/
theorem Db.FreshBut.congr (hdb : db.FreshBut traces)
    (h : ∀ k : RunKey, k.trace ∉ traces' → db'.liveHead k = db.liveHead k)
    (hsub : traces ⊆ traces') : db'.FreshBut traces' := by
  intro k head hhead htrace
  rw [h k htrace] at hhead
  rw [hdb k head hhead fun hmem => htrace (hsub hmem)]
  apply Iff.symm
  apply Db.hasTreeParent_congr _ rfl
  intro span
  rw [h { k with spanId := span } htrace]

/-- The live runs of a trace, as the refresh reads them. -/
def Db.liveRuns (x : Externals) (db : Db) (projectName traceId : String) : List RunTreeInput :=
  (db.runHeads.toList.filter fun row =>
    (decide (row.1.projectName = projectName ∧ row.1.traceId = traceId)) &&
      db.isLive row.1 row.2).map fun row => row.2.treeInput x row.1

theorem Db.mem_liveRuns {projectName traceId : String} :
    input ∈ db.liveRuns x projectName traceId ↔ ∃ span head,
      db.liveHead ⟨projectName, traceId, span⟩ = some head ∧
        head.treeInput x ⟨projectName, traceId, span⟩ = input := by
  simp only [Db.liveRuns, List.mem_map, List.mem_filter, Bool.and_eq_true, decide_eq_true_eq,
    Prod.exists, Std.TreeMap.mem_toList_iff_getElem?_eq_some]
  constructor
  · rintro ⟨⟨_, _, span⟩, head, ⟨hk, ⟨rfl, rfl⟩, hlive⟩, hinput⟩
    exact ⟨span, head, Db.liveHead_eq_some.2 ⟨hk, hlive⟩, hinput⟩
  · rintro ⟨span, head, hhead, hinput⟩
    obtain ⟨hk, hlive⟩ := Db.liveHead_eq_some.1 hhead
    exact ⟨_, head, ⟨hk, ⟨rfl, rfl⟩, hlive⟩, hinput⟩

theorem Db.liveRuns_nodup (projectName traceId : String) :
    ((db.liveRuns x projectName traceId).map RunTreeInput.spanId).Nodup := by
  rw [Db.liveRuns, List.map_map, List.Nodup, List.pairwise_map, List.pairwise_filter]
  apply (Std.TreeMap.ordered_keys_toList (t := db.runHeads)).imp
  rintro ⟨⟨p, t, s⟩, head⟩ ⟨⟨p', t', s'⟩, head'⟩ hlt hin hin' heq
  simp only [Bool.and_eq_true, decide_eq_true_eq] at hin hin'
  obtain ⟨⟨rfl, rfl⟩, -⟩ := hin
  obtain ⟨⟨rfl, rfl⟩, -⟩ := hin'
  replace heq : s = s' := heq
  subst heq
  have hsame : ∀ k : RunKey, compare k k = .eq := fun _ => Std.ReflCmp.compare_self
  rw [hsame] at hlt
  cases hlt

/-- The parents that the refresh works with are those of the live runs. -/
theorem Db.spanParent_liveRuns (k : RunKey) :
    spanParent (db.liveRuns x k.projectName k.traceId) = db.liveParent k := by
  funext span
  apply Option.ext
  intro parent
  rw [spanParent_eq_some (Db.liveRuns_nodup _ _), Db.liveParent, Option.bind_eq_some_iff]
  constructor
  · rintro ⟨run, hrun, rfl, hparent⟩
    obtain ⟨span, head, hhead, rfl⟩ := Db.mem_liveRuns.1 hrun
    exact ⟨head, hhead, hparent⟩
  · rintro ⟨head, hhead, hparent⟩
    exact ⟨_, Db.mem_liveRuns.2 ⟨span, head, hhead, rfl⟩, rfl, hparent⟩

theorem Db.mem_spans_liveRuns (k : RunKey) (span : String) :
    span ∈ (db.liveRuns x k.projectName k.traceId).map RunTreeInput.spanId ↔
      (db.liveHead { k with spanId := span }).isSome := by
  rw [List.mem_map, Option.isSome_iff_exists]
  constructor
  · rintro ⟨run, hrun, rfl⟩
    obtain ⟨span, head, hhead, rfl⟩ := Db.mem_liveRuns.1 hrun
    exact ⟨head, hhead⟩
  · rintro ⟨head, hhead⟩
    exact ⟨_, Db.mem_liveRuns.2 ⟨span, head, hhead, rfl⟩, rfl⟩

/-- The node of a live run in the index of its trace. -/
theorem Db.node_parent {node : RunTreeIndexNode} (hhead : db.liveHead k = some head)
    (hnode : node ∈ buildTraceTreeIndex (db.liveRuns x k.projectName k.traceId))
    (hspan : node.spanId = k.spanId) :
    node.parentSpanId.isNone = false ↔ db.hasTreeParent k head := by
  obtain ⟨run, hrun, hrunSpan, hparent⟩ :=
    (buildTraceTreeIndex_spec (Db.liveRuns_nodup k.projectName k.traceId)).2 node hnode
  obtain ⟨span, head', hhead', rfl⟩ := Db.mem_liveRuns.1 hrun
  have hk : k = ⟨k.projectName, k.traceId, span⟩ := by
    cases k
    cases hspan
    cases hrunSpan
    rfl
  rw [← hk, hhead] at hhead'
  cases hhead'
  rw [Option.isNone_eq_false_iff, Option.isSome_iff_exists]
  simp only [hparent, RunTreeInput.keepsParent, Db.spanParent_liveRuns, Db.mem_spans_liveRuns]
  rw [Db.hasTreeParent, ← hk]
  rfl

/-- What the updates of the refresh leave of a head. -/
theorem get_foldl_setTree (nodes : List RunTreeIndexNode) (projectName traceId : String)
    (heads : Table RunKey RunHead) (k : RunKey) :
    let heads' := nodes.foldl (fun heads node =>
      heads.modify ⟨projectName, traceId, node.spanId⟩ (RunHead.setTree node)) heads
    (heads'[k]? = heads[k]? ∧ ∀ node ∈ nodes, k ≠ ⟨projectName, traceId, node.spanId⟩) ∨
      ∃ node ∈ nodes, k = ⟨projectName, traceId, node.spanId⟩ ∧
        heads'[k]? = heads[k]?.map (RunHead.setTree node) := by
  induction nodes using List.reverseRecOn with
  | nil => exact .inl ⟨rfl, fun _ h => absurd h List.not_mem_nil⟩
  | append_singleton nodes last ih =>
    dsimp only at ih ⊢
    rw [List.foldl_append, List.foldl_cons, List.foldl_nil, Table.get_modify]
    split
    next hk =>
      refine .inr ⟨last, List.mem_append_right _ (List.mem_singleton_self _), hk.symm, ?_⟩
      rcases ih with ⟨hsame, -⟩ | ⟨node, -, -, hset⟩
      · rw [hsame]
      · rw [hset, Option.map_map]
        rfl
    next hk =>
      rcases ih with ⟨hsame, hnone⟩ | ⟨node, hnode, hkey, hset⟩
      · refine .inl ⟨hsame, fun node hnode => ?_⟩
        rcases List.mem_append.1 hnode with hnode | hnode
        · exact hnone node hnode
        · rw [List.mem_singleton.1 hnode]
          exact fun heq => hk heq.symm
      · exact .inr ⟨node, List.mem_append_left _ hnode, hkey, hset⟩

theorem Db.refresh_liveHead (x : Externals) (db : Db) (projectName traceId : String) (k : RunKey) :
    let nodes := buildTraceTreeIndex (db.liveRuns x projectName traceId)
    let db' := db.refreshTraceTreeMetadata x projectName traceId
    (db'.liveHead k = db.liveHead k ∧ ∀ node ∈ nodes, k ≠ ⟨projectName, traceId, node.spanId⟩) ∨
      ∃ node ∈ nodes, k = ⟨projectName, traceId, node.spanId⟩ ∧
        db'.liveHead k = (db.liveHead k).map (RunHead.setTree node) := by
  dsimp only
  rcases get_foldl_setTree (buildTraceTreeIndex (db.liveRuns x projectName traceId)) projectName
    traceId db.runHeads k with ⟨hsame, hnone⟩ | ⟨node, hnode, hkey, hset⟩
  · refine .inl ⟨?_, hnone⟩
    rw [Db.liveHead, Db.liveHead, ← hsame]
    rfl
  · refine .inr ⟨node, hnode, hkey, ?_⟩
    rw [Db.liveHead, Db.liveHead]
    rw [show (db.refreshTraceTreeMetadata x projectName traceId).runHeads[k]? = _ from hset]
    cases db.runHeads[k]? with
    | none => rfl
    | some head =>
      rw [Option.map_some, Option.filter_some, Option.filter_some]
      rw [show (db.refreshTraceTreeMetadata x projectName traceId).isLive k
        (RunHead.setTree node head) = db.isLive k head from rfl]
      split
      · rfl
      · rfl

/-- After a refresh the flags of the trace are fresh. -/
theorem Db.FreshBut.refresh (hdb : db.FreshBut ((projectName, traceId) :: traces)) (x : Externals) :
    (db.refreshTraceTreeMetadata x projectName traceId).FreshBut traces := by
  have hlive := db.refresh_liveHead x projectName traceId
  have hparents : ∀ k : RunKey,
      ((db.refreshTraceTreeMetadata x projectName traceId).liveHead k).map RunHead.parentSpanId =
        (db.liveHead k).map RunHead.parentSpanId := by
    intro k
    rcases hlive k with ⟨hsame, -⟩ | ⟨node, -, -, hset⟩
    · rw [hsame]
    · rw [hset, Option.map_map]
      rfl
  intro k head hhead htrace
  rcases hlive k with ⟨hsame, hnone⟩ | ⟨node, hnode, rfl, hset⟩
  · rw [hsame] at hhead
    rw [Db.hasTreeParent_congr (fun span => hparents _) rfl]
    apply hdb k head hhead
    intro hmem
    rcases List.mem_cons.1 hmem with heq | hmem
    · obtain ⟨rfl, rfl⟩ := Prod.mk.inj heq
      obtain ⟨node, hnode, hspan⟩ := (buildTraceTreeIndex_spec
        (Db.liveRuns_nodup k.projectName k.traceId)).1 _ (Db.mem_liveRuns.2 ⟨k.spanId, head, hhead, rfl⟩)
      apply hnone node hnode
      rw [hspan]
      rfl
    · exact htrace hmem
  · rw [hset, Option.map_eq_some_iff] at hhead
    obtain ⟨old, hold, rfl⟩ := hhead
    rw [Db.hasTreeParent_congr (fun span => hparents _)
      (show (RunHead.setTree node old).parentSpanId = old.parentSpanId from rfl)]
    exact Db.node_parent hold hnode rfl

theorem Db.FreshBut.foldl_refresh (hdb : db.FreshBut traces) (x : Externals) :
    (traces.foldl (fun db trace => db.refreshTraceTreeMetadata x trace.1 trace.2) db).Fresh := by
  induction traces generalizing db with
  | nil => exact hdb
  | cons trace traces ih => exact ih (hdb.refresh x)

theorem Db.liveHead_congr (hhead : db'.runHeads[k]? = db.runHeads[k]?)
    (hdeleted : db'.runDeletions[k]? = db.runDeletions[k]?) : db'.liveHead k = db.liveHead k := by
  have hlive : db'.isLive k = db.isLive k := by
    funext head
    rw [Db.isLive, Db.isLive, hdeleted]
  rw [Db.liveHead, Db.liveHead, hhead, hlive]

/-- An event that updates no head leaves all flags alone. -/
theorem Db.FreshBut.applyEvent (hdb : db.FreshBut traces) (x : Externals) (segmentId rowIndex : Nat)
    (record : SpanRecord) :
    (db.applyEvent x segmentId rowIndex record).1.FreshBut
      (if (db.applyEvent x segmentId rowIndex record).2 then
        traces.insert (record.projectName, record.traceId) else traces) := by
  have hother : ∀ k : RunKey, record.runKey ≠ k →
      (db.applyEvent x segmentId rowIndex record).1.liveHead k = db.liveHead k := by
    intro k hk
    refine Db.liveHead_congr ?_ rfl
    unfold Db.applyEvent
    dsimp only
    rw [Table.get_upsert, if_neg hk]
  split
  next hupdated =>
    apply hdb.congr
    · intro k htrace
      apply hother
      rintro rfl
      exact htrace List.mem_insert_self
    · exact fun trace htrace => List.mem_insert_of_mem htrace
  next hupdated =>
    apply hdb.congr _ (List.Subset.refl _)
    intro k _
    refine Db.liveHead_congr ?_ rfl
    unfold Db.applyEvent Table.upsert at hupdated ⊢
    dsimp only at hupdated ⊢
    split at hupdated
    · exact absurd rfl hupdated
    next old hold =>
      split at hupdated
      · exact absurd rfl hupdated
      next hkeep =>
        rw [if_neg hkeep]

theorem Db.FreshBut.persistRows (hdb : db.FreshBut traces)
    (h : db.persistRows x segmentId rowIndex records traces = (db', some traces')) :
    db'.FreshBut traces' := by
  induction records generalizing db rowIndex traces with
  | nil =>
    cases h
    exact hdb
  | cons record records ih =>
    rw [Db.persistRows] at h
    split at h
    · cases h
    · exact ih (hdb.applyEvent x segmentId rowIndex record) h

theorem Db.Fresh.persistMetadata (hdb : db.Fresh)
    (h : db.persistMetadata x partition uri searchIndexUri records = some (db', true)) :
    db'.Fresh := by
  obtain ⟨first, -, h⟩ := Option.map_eq_some_iff.1 h
  dsimp only at h
  split at h
  · cases h
  next db₁ traces hrows =>
    cases h
    apply Db.FreshBut.foldl_refresh
    apply Db.FreshBut.persistRows _ hrows
    exact Db.FreshBut.congr hdb (fun k _ => rfl) (List.Subset.refl _)

theorem Db.Fresh.rollback (hdb : db.Fresh) (stop : Db) : (db.rollback stop).Fresh :=
  Db.FreshBut.congr hdb (fun _ _ => rfl) (List.Subset.refl _)

theorem World.commitSegment_fresh {w : World} (hw : w.db.Fresh) :
    (w.commitSegment x partition uri records fault).1.db.Fresh := by
  unfold World.commitSegment
  split
  · exact hw
  next db inserted hpersist =>
    split
    · exact hw.rollback db
    split
    · exact hw.rollback db
    next hinserted =>
      split
      · exact hw.rollback db
      · rw [Bool.not_eq_true, Bool.not_eq_false'] at hinserted
        rw [hinserted] at hpersist
        exact hw.persistMetadata hpersist

theorem World.persistSegment_fresh {w : World} (hw : w.db.Fresh) :
    (w.persistSegment x partition name records fault).1.db.Fresh := by
  unfold World.persistSegment
  split
  · exact hw
  split
  · exact hw
  split
  · exact hw
  dsimp only
  split
  · exact hw
  split
  · exact hw
  · exact World.commitSegment_fresh hw

theorem World.TurnResult.fresh {w w' : World} (hw : w.db.Fresh)
    (h : World.TurnResult x maxSpansPerSegment w partition name fault records w' turn) :
    w'.db.Fresh := by
  cases h with
  | unfiltered => exact hw
  | finished => exact hw
  | written window rest w' receipt hfault hwindow hsplit hpersist hevents =>
    rw [← show (w.persistSegment x partition name window (TurnFault.inSegment fault)).1 = w' from
      congrArg Prod.fst hpersist]
    exact World.persistSegment_fresh hw
  | kept window w' db hfault hwindow hpersist hdb =>
    rw [hdb]
    exact hw.rollback db
  | failed window w' db hfault hwindow hpersist hdb =>
    rw [hdb]
    exact hw.rollback db

theorem Db.Fresh.deleteRunInTx (hdb : db.Fresh) (x : Externals) (k : RunKey) (time : Int)
    (reason : Option String) : (db.deleteRunInTx x k time reason).1.Fresh := by
  unfold Db.deleteRunInTx
  split
  · exact hdb
  next head hhead =>
    split
    · exact hdb
    · apply Db.FreshBut.refresh
      apply Db.FreshBut.congr hdb _ (List.nil_subset _)
      intro other htrace
      have hne : k ≠ other := by
        rintro rfl
        exact htrace List.mem_cons_self
      unfold Db.writeDeletion Db.insertTombstone
      dsimp only
      split
      · apply Db.liveHead_congr
        · exact (Table.get_modify _ _ _ _).trans (if_neg hne)
        · exact (Table.get_insert _ _ _ _).trans (if_neg hne)
      · apply Db.liveHead_congr
        · exact (Table.get_modify _ _ _ _).trans (if_neg hne)
        · exact (Table.get_insert _ _ _ _).trans (if_neg hne)

/-- In every reachable store `is_root` says which live runs have no parent in the tree. -/
theorem System.fresh_step {s s' : System} (hs : s.world.db.Fresh)
    (h : s.step x maxSpansPerSegment action = some s') : s'.world.db.Fresh := by
  cases System.step_cases h with
  | ingest partition name records fault hfree huser => exact World.persistSegment_fresh hs
  | delete k time reason => exact hs.deleteRunInTx x k time reason
  | expire projectName cutoff time =>
    exact Db.expireProjectRunsBefore_induction Db.Fresh
      (fun db k hdb => hdb.deleteRunInTx x k time _) hs
  | readIds projectName => exact hs
  | listRuns i runs listed execution hi hstage hlisted hperm => exact hs
  | persist i name fault execution partition records work world turn hi hstage hfree hturn =>
    exact hturn.fresh hs
  | mark i time execution hi hstage =>
    exact Db.FreshBut.congr hs (fun k _ => rfl) (List.Subset.refl _)
  | stop i => exact hs

theorem System.fresh {s : System}
    (h : Transition.run (System.step x maxSpansPerSegment) .initial actions = some s) :
    s.world.db.Fresh := by
  refine Transition.run_invariant_of_step (fun s : System => s.world.db.Fresh) ?_ ?_ h
  · exact fun s action s' hs hstep => System.fresh_step hs hstep
  · intro k head hhead
    cases (Db.liveHead_eq_some.1 hhead).1

end KevinDb
