import Mathlib.Data.List.Sort
import Mathlib.Tactic.Common
import Mathlib.Tactic.Linarith

namespace KevinDb
set_option autoImplicit true

/-- A range of bytes of an object, as `u64` numbers. -/
structure ByteRange where
  start : Nat
  stop : Nat
  start_lt : start < 2 ^ 64
  stop_lt : stop < 2 ^ 64
deriving DecidableEq

structure CoalescedRangePlan where
  originalIndex : Nat
  coalescedIndex : Nat
  start : Nat
  stop : Nat
deriving DecidableEq

structure ObjectStoreReadSnapshot where
  getRequests : Nat
  getRangesRequests : Nat
  headRequests : Nat
  listRequests : Nat
  bytesRead : Nat
deriving DecidableEq

def coalesceGapBytes : Nat := 1024 * 1024

def coalesceMaxBytes : Nat := 16 * 1024 * 1024

def saturatingAdd (a b : Nat) : Nat := min (a + b) (2 ^ 64 - 1)

def ByteRange.before (left right : ByteRange × Nat) : Prop :=
  left.1.start < right.1.start ∨ (left.1.start = right.1.start ∧ left.1.stop ≤ right.1.stop)

instance : DecidableRel ByteRange.before := fun left right =>
  inferInstanceAs (Decidable (left.1.start < right.1.start ∨ _))

/-- The range goes on to the end of another one, if that is farther. -/
def ByteRange.extend (last range : ByteRange) : ByteRange where
  start := last.start
  stop := max last.stop range.stop
  start_lt := last.start_lt
  stop_lt := max_lt last.stop_lt range.stop_lt

/-- A turn of the loop of `coalesce_ranges`. -/
def coalesceRange (state : List ByteRange × List CoalescedRangePlan) (indexed : ByteRange × Nat) :
    List ByteRange × List CoalescedRangePlan :=
  let (coalesced, plans) := state
  let (range, originalIndex) := indexed
  let plan (coalesced : List ByteRange) : CoalescedRangePlan :=
    ⟨originalIndex, coalesced.length - 1, range.start, range.stop⟩
  let pushed := coalesced ++ [range]
  match coalesced.getLast? with
  | none => (pushed, plans ++ [plan pushed])
  | some last =>
    if range.start ≤ saturatingAdd last.stop coalesceGapBytes ∧
        range.stop - last.start ≤ coalesceMaxBytes then
      let grown := coalesced.dropLast ++ [last.extend range]
      (grown, plans ++ [plan grown])
    else (pushed, plans ++ [plan pushed])

def coalesceRanges (ranges : List ByteRange) : List ByteRange × List CoalescedRangePlan :=
  (ranges.zipIdx.insertionSort ByteRange.before).foldl coalesceRange ([], [])

/-- A read fails with an error, or it panics on an index or a slice that is out of bounds. -/
inductive ReadFailure where
  | error (message : String)
  | outOfBounds
deriving DecidableEq

def getOr (message : String) : Option α → Except ReadFailure α
  | some value => .ok value
  | none => .error (.error message)

/-- `Bytes::slice`, which panics out of bounds. -/
def bytesSlice (bytes : List UInt8) (start stop : Nat) : Except ReadFailure (List UInt8) :=
  if start ≤ stop ∧ stop ≤ bytes.length then .ok (bytes.extract start stop)
  else .error .outOfBounds

/-- A turn of the loop of `read_ranges`. A `u64` fits a `usize`. -/
def readPlan (coalescedRanges : List ByteRange) (coalescedChunks : List (List UInt8))
    (chunks : List (List UInt8)) (plan : CoalescedRangePlan) :
    Except ReadFailure (List (List UInt8)) := do
  let parent ← getOr "missing coalesced search range" coalescedChunks[plan.coalescedIndex]?
  let base ← getOr "missing coalesced search range plan" coalescedRanges[plan.coalescedIndex]?
  let start := plan.start - base.start
  let length := plan.stop - plan.start
  let stop ← getOr "coalesced search range slice overflow"
    (if start + length < 2 ^ 64 then some (start + length) else none)
  let slice ← bytesSlice parent start stop
  if plan.originalIndex < chunks.length then return chunks.set plan.originalIndex slice
  else throw .outOfBounds

/-- `read_ranges`, with the store's `get_ranges` for the path. -/
def readRanges (getRanges : List ByteRange → Except String (List (List UInt8)))
    (ranges : List ByteRange) (stats : ObjectStoreReadSnapshot) :
    Except ReadFailure (List (List UInt8)) × ObjectStoreReadSnapshot :=
  if ranges.isEmpty then (.ok [], stats)
  else
    let (coalescedRanges, plans) := coalesceRanges ranges
    let stats := { stats with getRangesRequests := saturatingAdd stats.getRangesRequests 1 }
    match getRanges coalescedRanges with
    | .error message => (.error (.error message), stats)
    | .ok coalescedChunks =>
      let read := (coalescedChunks.map List.length).sum
      (plans.foldlM (readPlan coalescedRanges coalescedChunks) (ranges.map fun _ => []),
        { stats with bytesRead := saturatingAdd stats.bytesRead read })

variable {ranges coalesced coalesced' : List ByteRange} {plans : List CoalescedRangePlan}
  {range base : ByteRange} {indexed : ByteRange × Nat} {bytes : List UInt8} {size : Nat}

def ByteRange.Within (size : Nat) (range : ByteRange) : Prop :=
  range.start ≤ range.stop ∧ range.stop ≤ size

/-- The plan is for the range, which is in the coalesced range that the plan names. -/
def CoalescedRangePlan.Covers (coalesced : List ByteRange) (plan : CoalescedRangePlan)
    (indexed : ByteRange × Nat) : Prop :=
  plan.originalIndex = indexed.2 ∧ plan.start = indexed.1.start ∧ plan.stop = indexed.1.stop ∧
    ∃ base, coalesced[plan.coalescedIndex]? = some base ∧ base.start ≤ indexed.1.start ∧
      indexed.1.stop ≤ base.stop

/-- What the loop of `coalesce_ranges` keeps: its plans cover the ranges done, and the last coalesced
range starts no later than those to come. -/
structure Coalesces (size : Nat) (done rest : List (ByteRange × Nat))
    (state : List ByteRange × List CoalescedRangePlan) : Prop where
  covers : List.Forall₂ (CoalescedRangePlan.Covers state.1) state.2 done
  within : ∀ base ∈ state.1, base.Within size
  last : ∀ last, state.1.getLast? = some last → ∀ indexed ∈ rest, last.start ≤ indexed.1.start

/-- A coalesced range that grows still covers what it covered. -/
theorem CoalescedRangePlan.Covers.mono {plan : CoalescedRangePlan}
    (hgrow : ∀ (i : ℕ) (base : ByteRange), coalesced[i]? = some base → ∃ base',
      coalesced'[i]? = some base' ∧ base'.start ≤ base.start ∧ base.stop ≤ base'.stop)
    (h : plan.Covers coalesced indexed) : plan.Covers coalesced' indexed := by
  obtain ⟨hindex, hstart, hstop, base, hbase, hfrom, hto⟩ := h
  obtain ⟨base', hbase', hfrom', hto'⟩ := hgrow _ base hbase
  exact ⟨hindex, hstart, hstop, base', hbase', hfrom'.trans hfrom, hto.trans hto'⟩

theorem Coalesces.push {done rest : List (ByteRange × Nat)}
    (h : Coalesces size done (indexed :: rest) (coalesced, plans))
    (hwithin : indexed.1.Within size) (hsorted : ∀ next ∈ rest, indexed.1.start ≤ next.1.start) :
    Coalesces size (done ++ [indexed]) rest (coalesced ++ [indexed.1],
      plans ++ [⟨indexed.2, (coalesced ++ [indexed.1]).length - 1, indexed.1.start,
        indexed.1.stop⟩]) := by
  constructor
  · have hgrow : ∀ (i : ℕ) (base : ByteRange), coalesced[i]? = some base → ∃ base',
        (coalesced ++ [indexed.1])[i]? = some base' ∧ base'.start ≤ base.start ∧
          base.stop ≤ base'.stop := by
      intro i base hbase
      refine ⟨base, ?_, le_rfl, le_rfl⟩
      rw [List.getElem?_append_left (List.getElem?_eq_some_iff.1 hbase).1, hbase]
    refine List.rel_append (h.covers.imp fun _ _ => .mono hgrow) (.cons ?_ .nil)
    exact ⟨rfl, rfl, rfl, indexed.1, by simp, le_rfl, le_rfl⟩
  · rw [List.forall_mem_append, List.forall_mem_singleton]
    exact ⟨h.within, hwithin⟩
  · intro last hlast
    rw [List.getLast?_concat, Option.some.injEq] at hlast
    rw [← hlast]
    exact hsorted

theorem Coalesces.grow {done rest : List (ByteRange × Nat)} {last : ByteRange}
    {front : List ByteRange} (h : Coalesces size done (indexed :: rest) (front ++ [last], plans))
    (hwithin : indexed.1.Within size) :
    Coalesces size (done ++ [indexed]) rest (front ++ [last.extend indexed.1],
      plans ++ [⟨indexed.2, (front ++ [last.extend indexed.1]).length - 1, indexed.1.start,
        indexed.1.stop⟩]) := by
  have hlast := h.last last List.getLast?_concat
  rw [List.forall_mem_cons] at hlast
  have hbase := h.within
  rw [List.forall_mem_append, List.forall_mem_singleton] at hbase
  constructor
  · have hgrow : ∀ (i : ℕ) (base : ByteRange), (front ++ [last])[i]? = some base → ∃ base',
        (front ++ [last.extend indexed.1])[i]? = some base' ∧ base'.start ≤ base.start ∧
          base.stop ≤ base'.stop := by
      intro i base hbase
      rcases Nat.lt_trichotomy i front.length with hlt | rfl | hgt
      · refine ⟨base, ?_, le_rfl, le_rfl⟩
        rw [List.getElem?_append_left hlt] at hbase ⊢
        exact hbase
      · rw [List.getElem?_concat_length, Option.some.injEq] at hbase
        subst hbase
        exact ⟨_, List.getElem?_concat_length, le_rfl, le_max_left _ _⟩
      · have hlt := (List.getElem?_eq_some_iff.1 hbase).1
        rw [List.length_append, List.length_singleton] at hlt
        omega
    refine List.rel_append (h.covers.imp fun _ _ => .mono hgrow) (.cons ?_ .nil)
    exact ⟨rfl, rfl, rfl, last.extend indexed.1, by simp, hlast.1, le_max_right _ _⟩
  · rw [List.forall_mem_append, List.forall_mem_singleton]
    exact ⟨hbase.1, hbase.2.1.trans (le_max_left _ _), max_le hbase.2.2 hwithin.2⟩
  · intro new hnew
    rw [List.getLast?_concat, Option.some.injEq] at hnew
    rw [← hnew]
    exact hlast.2

theorem Coalesces.step {done rest : List (ByteRange × Nat)}
    {state : List ByteRange × List CoalescedRangePlan}
    (h : Coalesces size done (indexed :: rest) state) (hwithin : indexed.1.Within size)
    (hsorted : ∀ next ∈ rest, indexed.1.start ≤ next.1.start) :
    Coalesces size (done ++ [indexed]) rest (coalesceRange state indexed) := by
  obtain ⟨coalesced, plans⟩ := state
  obtain ⟨range, originalIndex⟩ := indexed
  rw [coalesceRange]
  dsimp only
  cases hlast : coalesced.getLast? with
  | none => exact h.push hwithin hsorted
  | some last =>
    dsimp only
    split
    · obtain ⟨front, rfl⟩ := List.getLast?_eq_some_iff.1 hlast
      rw [List.dropLast_concat]
      exact h.grow hwithin
    · exact h.push hwithin hsorted

theorem Coalesces.run {done rest : List (ByteRange × Nat)}
    {state : List ByteRange × List CoalescedRangePlan} (h : Coalesces size done rest state)
    (hwithin : ∀ indexed ∈ rest, indexed.1.Within size) (hsorted : rest.Pairwise ByteRange.before) :
    Coalesces size (done ++ rest) [] (rest.foldl coalesceRange state) := by
  induction rest generalizing done state with
  | nil =>
    rw [List.append_nil]
    exact h
  | cons indexed rest ih =>
    rw [List.forall_mem_cons] at hwithin
    rw [List.pairwise_cons] at hsorted
    have hstep := h.step hwithin.1 fun next hnext => by
      rcases hsorted.1 next hnext with hlt | ⟨heq, -⟩
      · exact hlt.le
      · exact heq.le
    have hrun := ih hstep hwithin.2 hsorted.2
    rw [List.append_assoc, List.singleton_append] at hrun
    exact hrun

instance : Std.Total ByteRange.before := by
  constructor
  intro a b
  rw [ByteRange.before, ByteRange.before]
  omega

instance : IsTrans (ByteRange × Nat) ByteRange.before := by
  constructor
  intro a b c hab hbc
  rw [ByteRange.before] at hab hbc ⊢
  omega

/-- The plans cover the ranges, and the coalesced ranges are in the object. -/
theorem coalesceRanges_coalesces (hranges : ∀ range ∈ ranges, range.Within size) :
    Coalesces size (ranges.zipIdx.insertionSort ByteRange.before) [] (coalesceRanges ranges) := by
  have hstart : Coalesces size [] (ranges.zipIdx.insertionSort ByteRange.before) ([], []) :=
    ⟨.nil, nofun, nofun⟩
  have hrun := hstart.run (fun indexed hindexed => ?_) (List.pairwise_insertionSort _ _)
  · rw [List.nil_append] at hrun
    exact hrun
  · rw [List.mem_insertionSort] at hindexed
    exact hranges _ (List.fst_mem_of_mem_zipIdx hindexed)

theorem extract_extract (bytes : List UInt8) {start stop first last : Nat} (hfirst : start ≤ first)
    (hlast : last ≤ stop) : (bytes.extract start stop).extract (first - start)
      (first - start + (last - first)) = bytes.extract first last := by
  simp only [List.extract_eq_take_drop, List.drop_take, List.drop_drop, List.take_take]
  congr 1
  · omega
  · congr 1
    omega

/-- A plan that covers a range reads the bytes of it. -/
theorem readPlan_eq {plan : CoalescedRangePlan} {chunks : List (List UInt8)}
    (hplan : plan.Covers coalesced indexed) (hwithin : ∀ base ∈ coalesced, base.Within bytes.length)
    (hindexed : indexed.1.Within bytes.length) (hindex : indexed.2 < chunks.length) :
    readPlan coalesced (coalesced.map fun base => bytes.extract base.start base.stop) chunks plan =
      .ok (chunks.set indexed.2 (bytes.extract indexed.1.start indexed.1.stop)) := by
  obtain ⟨hplanIndex, hstart, hstop, base, hbase, hfrom, hto⟩ := hplan
  obtain ⟨hbaseLe, hbaseEnd⟩ := hwithin base (List.mem_of_getElem? hbase)
  have hlt := indexed.1.stop_lt
  have hle := hindexed.1
  have hfit : plan.start - base.start + (plan.stop - plan.start) < 2 ^ 64 := by omega
  have hlength : (bytes.extract base.start base.stop).length = base.stop - base.start := by
    rw [List.extract_eq_take_drop, List.length_take, List.length_drop]
    omega
  rw [readPlan, List.getElem?_map, hbase, Option.map_some, getOr, getOr]
  simp only [bind, Except.bind]
  rw [if_pos hfit, getOr]
  dsimp only
  rw [bytesSlice, if_pos (by omega)]
  dsimp only
  rw [hplanIndex, if_pos hindex, hstart, hstop, extract_extract bytes hfrom hto]
  rfl

/-- The plans read the bytes of every range they cover. -/
theorem readPlans_eq {done : List (ByteRange × Nat)} {chunks : List (List UInt8)}
    (hplans : List.Forall₂ (CoalescedRangePlan.Covers coalesced) plans done)
    (hwithin : ∀ base ∈ coalesced, base.Within bytes.length)
    (hdone : ∀ indexed ∈ done, indexed.1.Within bytes.length ∧ indexed.2 < chunks.length) :
    plans.foldlM (readPlan coalesced
        (coalesced.map fun base => bytes.extract base.start base.stop)) chunks =
      .ok (done.foldl (fun chunks indexed =>
        chunks.set indexed.2 (bytes.extract indexed.1.start indexed.1.stop)) chunks) := by
  induction hplans generalizing chunks with
  | nil => rfl
  | cons hplan hplans ih =>
    rw [List.forall_mem_cons] at hdone
    rw [List.foldlM_cons, readPlan_eq hplan hwithin hdone.1.1 hdone.1.2, List.foldl_cons]
    apply ih
    intro indexed hindexed
    rw [List.length_set]
    exact hdone.2 indexed hindexed

/-- The chunks of indexed ranges are in the places of their indices. -/
theorem getElem?_foldl_set (value : ByteRange → List UInt8) {done : List (ByteRange × Nat)}
    {chunks : List (List UInt8)} (hdone : ∀ indexed ∈ done, ranges[indexed.2]? = some indexed.1)
    (hlength : chunks.length = ranges.length) (i : ℕ) :
    (done.foldl (fun chunks indexed => chunks.set indexed.2 (value indexed.1)) chunks)[i]? =
      if i ∈ done.map Prod.snd then ranges[i]?.map value else chunks[i]? := by
  induction done generalizing chunks with
  | nil => rfl
  | cons indexed done ih =>
    rw [List.forall_mem_cons] at hdone
    rw [List.foldl_cons, ih hdone.2 (by rw [List.length_set, hlength]), List.map_cons]
    by_cases hmem : i ∈ done.map Prod.snd
    · rw [if_pos hmem, if_pos (List.mem_cons_of_mem _ hmem)]
    · rw [if_neg hmem]
      by_cases heq : i = indexed.2
      · subst heq
        rw [if_pos List.mem_cons_self, hdone.1, Option.map_some, List.getElem?_set_self]
        rw [hlength]
        exact (List.getElem?_eq_some_iff.1 hdone.1).1
      · rw [if_neg (by simp [heq, hmem]), List.getElem?_set_ne (Ne.symm heq)]

theorem exists_covers {done : List (ByteRange × Nat)}
    (h : List.Forall₂ (CoalescedRangePlan.Covers coalesced) plans done) (hindexed : indexed ∈ done) :
    ∃ plan ∈ plans, plan.Covers coalesced indexed := by
  induction h with
  | nil => cases hindexed
  | cons hplan _ ih =>
    rcases List.mem_cons.1 hindexed with rfl | hindexed
    · exact ⟨_, List.mem_cons_self, hplan⟩
    · obtain ⟨plan, hplan, hcovers⟩ := ih hindexed
      exact ⟨plan, List.mem_cons_of_mem _ hplan, hcovers⟩

/-- Coalesced reads return the bytes of each range, in the order of the requests, and every range is
in the coalesced range that its plan names. -/
theorem readRanges_eq {getRanges : List ByteRange → Except String (List (List UInt8))}
    (hstore : ∀ coalesced : List ByteRange, (∀ base ∈ coalesced, base.Within bytes.length) →
      getRanges coalesced =
        .ok (coalesced.map fun base => bytes.extract base.start base.stop))
    (hranges : ∀ range ∈ ranges, range.Within bytes.length) (stats : ObjectStoreReadSnapshot) :
    (∀ (i : ℕ) (range : ByteRange), ranges[i]? = some range → ∃ plan ∈ (coalesceRanges ranges).2,
        plan.Covers (coalesceRanges ranges).1 (range, i)) ∧
      (readRanges getRanges ranges stats).1 =
        .ok (ranges.map fun range => bytes.extract range.start range.stop) := by
  have hrun := coalesceRanges_coalesces hranges
  have hsorted : ∀ indexed, indexed ∈ ranges.zipIdx.insertionSort ByteRange.before ↔
      ranges[indexed.2]? = some indexed.1 := by
    intro indexed
    rw [List.mem_insertionSort, List.mem_zipIdx_iff_getElem?]
  constructor
  · intro i range hrange
    exact exists_covers hrun.covers ((hsorted (range, i)).2 hrange)
  · cases hempty : ranges.isEmpty with
    | true =>
      rw [readRanges, hempty, if_pos rfl, List.isEmpty_iff.1 hempty]
      rfl
    | false =>
      have hdone : ∀ indexed ∈ ranges.zipIdx.insertionSort ByteRange.before,
          indexed.1.Within bytes.length ∧
            indexed.2 < (ranges.map fun _ => ([] : List UInt8)).length := by
        intro indexed hindexed
        have hget := (hsorted indexed).1 hindexed
        rw [List.length_map]
        exact ⟨hranges _ (List.mem_of_getElem? hget), (List.getElem?_eq_some_iff.1 hget).1⟩
      have hread := readPlans_eq hrun.covers hrun.within hdone
      rw [readRanges, hempty, if_neg Bool.false_ne_true]
      dsimp only
      rw [hstore _ hrun.within]
      dsimp only
      rw [hread]
      refine congrArg Except.ok (List.ext_getElem? fun i => ?_)
      rw [getElem?_foldl_set (fun range => bytes.extract range.start range.stop)
        (fun indexed hindexed => (hsorted indexed).1 hindexed) (List.length_map _)]
      split
      · rw [List.getElem?_map]
      next hmem =>
        rw [List.getElem?_map, List.getElem?_map]
        cases hget : ranges[i]? with
        | none => rfl
        | some range =>
          exact absurd (List.mem_map.2 ⟨(range, i), (hsorted (range, i)).2 hget, rfl⟩) hmem

/-- Ranges that overlap, in any order, with an empty one and a repeated one. -/
theorem readRanges_eq_overlap :
    let bytes : List UInt8 := [10, 11, 12, 13, 14]
    let store (coalesced : List ByteRange) : Except String (List (List UInt8)) :=
      .ok (coalesced.map fun base => bytes.extract base.start base.stop)
    (readRanges store [⟨3, 5, by decide, by decide⟩, ⟨0, 4, by decide, by decide⟩,
        ⟨2, 2, by decide, by decide⟩, ⟨3, 5, by decide, by decide⟩] ⟨0, 0, 0, 0, 0⟩).1 =
      .ok [[13, 14], [10, 11, 12, 13], [], [13, 14]] := by
  intro bytes store
  refine (readRanges_eq (fun _ _ => rfl) ?_ _).2
  simp [ByteRange.Within, bytes]

end KevinDb
