import KevinDb.Server.ObjectCache

namespace KevinDb
set_option autoImplicit true

/-- The step that a running call on a path takes next. -/
inductive CacheCall where
  | getLookup (range : Option GetRange)
  | getFull (range : Option GetRange)
  | getRead (range : Option GetRange)
  | getInsert (range : Option GetRange) (read : CachedObjectRead)
  | putWrite (payload : List (List UInt8)) (nowMillis : Int) (tags : Option ObjectTags)
  | putInvalidate (read : CachedObjectRead)
  | putInsert (read : CachedObjectRead)
  | deleteInvalidate (deleted : Bool)
  | deleteInner (deleted : Bool)
deriving DecidableEq

namespace CachedObjectStore

/-- A step of a call, and where the call goes on if it does not return. -/
def advance (s : CachedObjectStore) (path : String) :
    CacheCall → CachedObjectStore × Option CacheCall
  | .getLookup range =>
    if (s.lookup (cacheKey path range)).isSome then (s, none) else (s, some (.getFull range))
  | .getFull range =>
    match s.cachedSlice path range with
    | some read => (s, some (.getInsert range read))
    | none => (s, some (.getRead range))
  | .getRead range =>
    match s.inner[path]?.bind fun object => object.read path range with
    | none => (s, none)
    | some result => (s, some (.getInsert range (.fromGetResult result)))
  | .getInsert range read => (s.insert path (cacheKey path range) read, none)
  | .putWrite payload nowMillis tags =>
    match tags with
    | none => (s, none)
    | some tags =>
      ({ s with inner := s.inner.insert path ⟨payload.flatten, tags⟩ },
        some (.putInvalidate (.fromPut path (payloadToBytes payload) nowMillis tags)))
  | .putInvalidate read => (s.invalidatePath path, some (.putInsert read))
  | .putInsert read => (s.insert path (cacheKey path none) read, none)
  | .deleteInvalidate deleted => (s.invalidatePath path, some (.deleteInner deleted))
  | .deleteInner deleted => (if deleted then { s with inner := s.inner.erase path } else s, none)

/-- The steps of a call that runs alone. -/
def runAlone (path : String) : Nat → CachedObjectStore → CacheCall → CachedObjectStore
  | 0, s, _ => s
  | turns + 1, s, call =>
    match s.advance path call with
    | (s, none) => s
    | (s, some call) => runAlone path turns s call

end CachedObjectStore

/-- The store, and the calls that are running on a path. -/
structure CacheRace where
  store : CachedObjectStore
  calls : List CacheCall

inductive RaceAction where
  | get (range : Option GetRange)
  | put (payload : List (List UInt8)) (nowMillis : Int) (tags : Option ObjectTags)
  | delete (deleted : Bool)
  | advance (i : Nat)
  | evict (keys : List String)
deriving DecidableEq

namespace CacheRace

def new (inner : Objects) : CacheRace := ⟨.new inner, []⟩

def step (path : String) (s : CacheRace) : RaceAction → Option CacheRace
  | .get range => some { s with calls := s.calls ++ [.getLookup range] }
  | .put payload nowMillis tags =>
    some { s with calls := s.calls ++ [.putWrite payload nowMillis tags] }
  | .delete deleted => some { s with calls := s.calls ++ [.deleteInvalidate deleted] }
  | .advance i => s.calls[i]?.map fun call =>
    let (store, next) := s.store.advance path call
    ⟨store, Transition.replace s.calls i next⟩
  | .evict keys => some { s with store := s.store.evict keys }

end CacheRace

/-- The call has an invalidation of the path before it. -/
def CacheCall.willInvalidate : CacheCall → Bool
  | .putInvalidate _ | .deleteInvalidate _ => true
  | _ => false

/-- The bytes are those that the inner store has for the range. -/
def CachedObjectStore.has (s : CachedObjectStore) (path : String) (range : Option GetRange)
    (read : CachedObjectRead) : Bool :=
  s.inner[path]?.any fun object => object.requested range = some (read.rangeStart, read.rangeEnd) ∧
    read.bytes = object.bytes.extract read.rangeStart read.rangeEnd ∧
    read.size = object.bytes.length

namespace CacheRace

/-- A running call is still to invalidate the path. -/
def awaitsInvalidation (s : CacheRace) : Bool := s.calls.any CacheCall.willInvalidate

/-- No write or read has overtaken the step: it inserts bytes that the inner store still has, and
deletes an object of which nothing was cached since the delete's invalidation, unless a running call
is still to invalidate the path. -/
def inOrder (path : String) (s : CacheRace) : RaceAction → Bool
  | .advance i => s.awaitsInvalidation || match s.calls[i]? with
    | some (.getInsert range read) => s.store.has path range read
    | some (.putInsert read) => s.store.has path none read
    | some (.deleteInner deleted) => !deleted ||
      (s.store.keysOf path).all fun key => (s.store.lookup key).isNone
    | _ => true
  | _ => true

/-- Every entry for the path holds what the inner store has. -/
def FreshAt (path : String) (s : CacheRace) : Prop :=
  ∀ (range : Option GetRange) (read : CachedObjectRead),
    s.store.lookup (cacheKey path range) = some read →
      ∃ object, s.store.inner[path]? = some object ∧ read.Shows object range

end CacheRace

variable {s t : CachedObjectStore} {path : String} {range : Option GetRange}
  {read : CachedObjectRead} {stale stale' : List String} {race race' : CacheRace}
  {conditional : ConditionalGet} {call : CacheCall} {i : Nat}

theorem CachedObjectStore.has_iff : s.has path range read ↔
    ∃ object, s.inner[path]? = some object ∧ read.Shows object range := by
  rw [has, Option.any_eq_true]
  refine exists_congr fun object => and_congr_right fun _ => ?_
  rw [decide_eq_true_iff]
  exact ⟨fun h => ⟨h.1, h.2.1, h.2.2⟩, fun h => ⟨h.range, h.bytes, h.size⟩⟩

/-- A get that runs alone does what `get_opts` does. -/
theorem CachedObjectStore.runAlone_get (s : CachedObjectStore) (path : String)
    (range : Option GetRange) (conditional : ConditionalGet) :
    runAlone path 4 s (.getLookup range) = (s.getOpts conditional path { range := range }).2 := by
  have hplain : GetOptions.isCacheableGet { range := range } := rfl
  rw [CachedObjectStore.getOpts, if_neg (by rw [hplain]; decide), Objects.getOpts, if_pos hplain]
  rw [runAlone, advance]
  dsimp only
  cases hlookup : s.lookup (cacheKey path range) with
  | some read => rfl
  | none =>
    rw [Option.isSome_none, if_neg Bool.false_ne_true]
    dsimp only
    rw [runAlone, advance]
    cases hslice : s.cachedSlice path range with
    | some read => rfl
    | none =>
      dsimp only
      rw [runAlone, advance]
      cases s.inner[path]?.bind fun object => object.read path range with
      | none => rfl
      | some result => rfl

theorem CachedObjectStore.runAlone_put (s : CachedObjectStore) (path : String)
    (payload : List (List UInt8)) (nowMillis : Int) (tags : Option ObjectTags) :
    runAlone path 3 s (.putWrite payload nowMillis tags) = s.putOpts path payload nowMillis tags := by
  cases tags <;> rfl

theorem CachedObjectStore.runAlone_delete (s : CachedObjectStore) (path : String)
    (deleted : Bool) : runAlone path 2 s (.deleteInvalidate deleted) = s.delete path deleted := by
  cases deleted <;> rfl

/-- A call that is not the one replaced is still there. -/
theorem any_replace {calls : List τ} {p : τ → Bool} {call : τ} {next : Option τ}
    (hcall : calls[i]? = some call) (hp : p call = false) (hany : calls.any p) :
    (Transition.replace calls i next).any p := by
  obtain ⟨other, hother, hholds⟩ := List.any_eq_true.1 hany
  obtain ⟨j, hj⟩ := List.mem_iff_getElem?.1 hother
  have hne : j ≠ i := by
    rintro rfl
    rw [hcall] at hj
    cases hj
    rw [hp] at hholds
    cases hholds
  rw [List.any_eq_true]
  refine ⟨other, ?_, hholds⟩
  cases next with
  | none => exact List.mem_eraseIdx_iff_getElem?.2 ⟨j, hne, hj⟩
  | some new =>
    apply List.mem_of_getElem? (i := j)
    rw [Transition.replace, List.getElem?_set_ne hne.symm, hj]

namespace CachedObjectStore

theorem FreshExcept.mono (h : s.FreshExcept stale) (hsub : stale ⊆ stale') :
    s.FreshExcept stale' := by
  intro key read hread
  obtain ⟨path, range, hkey, hmem, hfresh⟩ := h key read hread
  exact ⟨path, range, hkey, hmem, hfresh.imp_left fun hstale => hsub hstale⟩

/-- The entries are under the keys of the path, and no key of it is for another path. -/
structure CachesOnly (path : String) (s : CachedObjectStore) : Prop where
  entries : s.FreshExcept [path]
  keys : ∀ key ∈ s.keysOf path, ∃ range, key = cacheKey path range

/-- If nothing is cached for a path, no entry is stale. -/
theorem CachesOnly.fresh_of_empty (h : s.CachesOnly path)
    (hempty : ∀ key ∈ s.keysOf path, s.lookup key = none) : s.Fresh := by
  intro key read hread
  obtain ⟨other, range, hkey, hmem, hfresh⟩ := h.entries key read hread
  refine ⟨other, range, hkey, hmem, hfresh.imp_left fun hstale => ?_⟩
  rw [List.mem_singleton] at hstale
  subst hstale
  have hnone : s.cache[key]? = none := hempty key hmem
  rw [hnone] at hread
  cases hread

theorem CachesOnly.fresh_invalidatePath (h : s.CachesOnly path) : (s.invalidatePath path).Fresh :=
  FreshExcept.invalidatePath h.entries

theorem CachesOnly.insert (h : s.CachesOnly path) (range : Option GetRange)
    (read : CachedObjectRead) : (s.insert path (cacheKey path range) read).CachesOnly path := by
  constructor
  · exact h.entries.insert (.inl (List.mem_singleton_self _))
  · intro key hkey
    rw [keysOf, CachedObjectStore.insert, Table.get_insert, if_pos rfl, Option.getD_some,
      List.mem_insert_iff] at hkey
    rcases hkey with rfl | hkey
    · exact ⟨range, rfl⟩
    · exact h.keys key hkey

theorem CachesOnly.write (h : s.CachesOnly path) {objects : Objects}
    (hobjects : ∀ other, other ≠ path → objects[other]? = s.inner[other]?) :
    ({ s with inner := objects } : CachedObjectStore).CachesOnly path := by
  refine ⟨?_, h.keys⟩
  have hwrite : ({ s with inner := objects } : CachedObjectStore).FreshExcept ([path] ++ [path]) :=
    h.entries.write fun other hother => hobjects other fun heq =>
      hother (heq ▸ List.mem_singleton_self _)
  exact hwrite.mono (by simp)

/-- A step of a call on a path caches bytes for that path only. -/
theorem CachesOnly.advance (h : s.CachesOnly path) (call : CacheCall) :
    (s.advance path call).1.CachesOnly path := by
  have hinvalidate : (s.invalidatePath path).CachesOnly path := by
    refine ⟨h.fresh_invalidatePath.mono (List.nil_subset _), fun key hkey => ?_⟩
    rw [keysOf, invalidatePath, Table.get_erase, if_pos rfl] at hkey
    exact absurd hkey List.not_mem_nil
  cases call with
  | getLookup range =>
    rw [CachedObjectStore.advance]
    split <;> exact h
  | getFull range =>
    rw [CachedObjectStore.advance]
    split <;> exact h
  | getRead range =>
    rw [CachedObjectStore.advance]
    split <;> exact h
  | getInsert range read => exact h.insert range read
  | putWrite payload nowMillis tags =>
    cases tags with
    | none => exact h
    | some tags =>
      apply h.write
      intro other hother
      rw [Table.get_insert, if_neg hother.symm]
  | putInvalidate read => exact hinvalidate
  | putInsert read => exact h.insert none read
  | deleteInvalidate deleted => exact hinvalidate
  | deleteInner deleted =>
    rw [CachedObjectStore.advance]
    cases deleted with
    | false => exact h
    | true =>
      apply h.write
      intro other hother
      rw [Table.get_erase, if_neg hother.symm]

end CachedObjectStore

namespace CacheRace

/-- The entries are fresh, or a running call is still to invalidate them. -/
structure Settled (path : String) (race : CacheRace) : Prop where
  caches : race.store.CachesOnly path
  fresh : race.awaitsInvalidation ∨ race.store.Fresh

theorem settled_new (path : String) (inner : Objects) : (new inner).Settled path where
  caches := ⟨(CachedObjectStore.fresh_new inner).mono (List.nil_subset _), fun key hkey => by
    simp [new, CachedObjectStore.new, CachedObjectStore.keysOf] at hkey⟩
  fresh := .inr (CachedObjectStore.fresh_new inner)

theorem Settled.step_caches {action : RaceAction} (h : race.Settled path)
    (hstep : race.step path action = some race') : race'.store.CachesOnly path := by
  cases action with
  | get | put | delete =>
    cases hstep
    exact h.caches
  | advance i =>
    obtain ⟨call, -, rfl⟩ := Option.map_eq_some_iff.1 hstep
    exact h.caches.advance call
  | evict keys =>
    cases hstep
    exact ⟨h.caches.entries.evict keys, h.caches.keys⟩

/-- A step that is in order leaves the entries fresh, or a call that is still to invalidate them. -/
theorem Settled.advance (h : race.Settled path) (hcall : race.calls[i]? = some call)
    (horder : race.inOrder path (.advance i)) :
    (Transition.replace race.calls i (race.store.advance path call).2).any
        CacheCall.willInvalidate ∨ (race.store.advance path call).1.Fresh := by
  have hstays {next : Option CacheCall} (hno : call.willInvalidate = false)
      (hawaits : race.awaitsInvalidation) :
      (Transition.replace race.calls i next).any CacheCall.willInvalidate :=
    any_replace hcall hno hawaits
  have hinsert {range : Option GetRange} {read : CachedObjectRead}
      (hno : call.willInvalidate = false)
      (horder : race.awaitsInvalidation ∨ race.store.has path range read) :
      (Transition.replace race.calls i none).any CacheCall.willInvalidate ∨
        (race.store.insert path (cacheKey path range) read).Fresh := by
    rcases horder with hawaits | hhas
    · exact .inl (hstays hno hawaits)
    · rcases h.fresh with hawaits | hfresh
      · exact .inl (hstays hno hawaits)
      · exact .inr (hfresh.insert (.inr (CachedObjectStore.has_iff.1 hhas)))
  rw [inOrder, hcall, Bool.or_eq_true] at horder
  cases call with
  | getLookup range =>
    rw [CachedObjectStore.advance]
    split <;> exact h.fresh.imp_left (hstays rfl)
  | getFull range =>
    rw [CachedObjectStore.advance]
    split <;> exact h.fresh.imp_left (hstays rfl)
  | getRead range =>
    rw [CachedObjectStore.advance]
    split <;> exact h.fresh.imp_left (hstays rfl)
  | getInsert range read => exact hinsert rfl horder
  | putWrite payload nowMillis tags =>
    cases tags with
    | none => exact h.fresh.imp_left (hstays rfl)
    | some tags =>
      have hmem := List.mem_of_getElem? (List.getElem?_set_self (a := CacheCall.putInvalidate
        (.fromPut path (payloadToBytes payload) nowMillis tags))
          (List.getElem?_eq_some_iff.1 hcall).1)
      exact .inl (List.any_eq_true.2 ⟨_, hmem, rfl⟩)
  | putInvalidate read => exact .inr h.caches.fresh_invalidatePath
  | putInsert read => exact hinsert rfl horder
  | deleteInvalidate deleted => exact .inr h.caches.fresh_invalidatePath
  | deleteInner deleted =>
    rcases horder with hawaits | hempty
    · exact .inl (hstays rfl hawaits)
    · cases deleted with
      | false => exact h.fresh.imp_left (hstays rfl)
      | true =>
        refine .inr ((h.caches.advance (.deleteInner true)).fresh_of_empty fun key hkey => ?_)
        change ((race.store.keysOf path).all fun key => (race.store.lookup key).isNone) at hempty
        rw [List.all_eq_true] at hempty
        exact Option.isNone_iff_eq_none.1 (hempty key hkey)

/-- A step that is not in order leaves a stale entry, and no call that is still to invalidate it. -/
theorem Settled.advance_stale (h : race.Settled path) (hcall : race.calls[i]? = some call)
    (horder : race.inOrder path (.advance i) = false) :
    ¬ (CacheRace.mk (race.store.advance path call).1
        (Transition.replace race.calls i (race.store.advance path call).2)).awaitsInvalidation ∧
      ¬ (CacheRace.mk (race.store.advance path call).1
        (Transition.replace race.calls i (race.store.advance path call).2)).FreshAt path := by
  rw [inOrder, hcall, Bool.or_eq_false_iff] at horder
  obtain ⟨hawaits, horder⟩ := horder
  have hended : ¬ (race.calls.eraseIdx i).any CacheCall.willInvalidate := by
    rw [List.any_eq_true]
    rintro ⟨other, hother, hwill⟩
    have hany : race.awaitsInvalidation :=
      List.any_eq_true.2 ⟨other, List.mem_of_mem_eraseIdx hother, hwill⟩
    rw [hawaits] at hany
    cases hany
  have hinsert {range : Option GetRange} {read : CachedObjectRead}
      (hhas : race.store.has path range read = false) :
      ¬ (CacheRace.mk (race.store.insert path (cacheKey path range) read)
        (race.calls.eraseIdx i)).FreshAt path := by
    intro hfresh
    have hlookup : (race.store.insert path (cacheKey path range) read).lookup
        (cacheKey path range) = some read := by
      rw [CachedObjectStore.lookup, CachedObjectStore.insert, Table.get_insert, if_pos rfl]
    have hhad : race.store.has path range read :=
      CachedObjectStore.has_iff.2 (hfresh range read hlookup)
    rw [hhas] at hhad
    cases hhad
  cases call with
  | getLookup | getFull | getRead | putWrite | putInvalidate | deleteInvalidate => cases horder
  | getInsert range read => exact ⟨hended, hinsert horder⟩
  | putInsert read => exact ⟨hended, hinsert horder⟩
  | deleteInner deleted =>
    cases deleted with
    | false => cases horder
    | true =>
      refine ⟨hended, fun hfresh => ?_⟩
      change ((race.store.keysOf path).all fun key => (race.store.lookup key).isNone) = false
        at horder
      rw [List.all_eq_false] at horder
      obtain ⟨key, hkey, hcached⟩ := horder
      obtain ⟨range, rfl⟩ := h.caches.keys key hkey
      obtain ⟨read, hread⟩ := Option.ne_none_iff_exists'.1 (mt Option.isNone_iff_eq_none.2 hcached)
      obtain ⟨object, hobject, -⟩ := hfresh range read hread
      rw [CachedObjectStore.advance] at hobject
      simp only [if_true, Table.get_erase] at hobject
      cases hobject

theorem Settled.step {action : RaceAction} (h : race.Settled path)
    (hstep : race.step path action = some race') (horder : race.inOrder path action) :
    race'.Settled path := by
  refine ⟨h.step_caches hstep, ?_⟩
  cases action with
  | get | put | delete =>
    cases hstep
    refine h.fresh.imp_left fun hawaits => ?_
    rw [awaitsInvalidation, List.any_append, Bool.or_eq_true]
    exact .inl hawaits
  | advance i =>
    obtain ⟨call, hcall, rfl⟩ := Option.map_eq_some_iff.1 hstep
    exact h.advance hcall horder
  | evict keys =>
    cases hstep
    exact h.fresh.imp_right fun hfresh => CachedObjectStore.FreshExcept.evict hfresh keys

/-- After steps that are in order no entry is stale when no call is running. A step that is not
leaves a stale entry which no running call is to invalidate. -/
theorem freshAt_of_inOrder (path : String) (inner : Objects) {actions : List RaceAction}
    (hrun : Transition.run (CacheRace.step path) (new inner) actions = some race)
    (horder : Transition.Meets (CacheRace.step path)
      (fun race action => race.inOrder path action) (new inner) actions) :
    (race.calls = [] → race.FreshAt path) ∧
      ∀ action race', race.step path action = some race' → race.inOrder path action = false →
        ¬ race'.awaitsInvalidation ∧ ¬ race'.FreshAt path := by
  have h : race.Settled path := Transition.run_invariant (Settled path)
    (fun _ _ _ h horder hstep => h.step hstep horder) (settled_new path inner) horder hrun
  constructor
  · intro hcalls range read hread
    have hfresh : race.store.Fresh := by
      refine h.fresh.resolve_left ?_
      rw [awaitsInvalidation, hcalls]
      exact Bool.false_ne_true
    exact (hfresh.lookup hread).resolve_left List.not_mem_nil
  · intro action race' hstep horder
    cases action with
    | get | put | delete | evict => cases horder
    | advance i =>
      obtain ⟨call, hcall, rfl⟩ := Option.map_eq_some_iff.1 hstep
      exact h.advance_stale hcall horder

/-- Read an object while a put of it is running, and insert the bytes before the put invalidates. -/
theorem freshAt_of_inOrder_overlap :
    let inner : Objects := (∅ : Objects).insert "a" ⟨[1], ⟨0, none, none, []⟩⟩
    let actions : List RaceAction := [.get none, .advance 0, .advance 0, .advance 0,
      .put [[2]] 5 (some ⟨5, none, none, []⟩), .advance 1, .advance 0, .advance 0, .advance 0]
    ∃ race, Transition.run (CacheRace.step "a") (new inner) actions = some race ∧
      race.calls = [] ∧ race.FreshAt "a" := by
  intro inner actions
  have hcalls : (Transition.run (CacheRace.step "a") (new inner) actions).map CacheRace.calls =
      some [] := by
    decide +kernel
  obtain ⟨race, hrun, hcalls⟩ := Option.map_eq_some_iff.1 hcalls
  exact ⟨race, hrun, hcalls, (freshAt_of_inOrder "a" inner hrun (by decide +kernel)).1 hcalls⟩

/-- A get that read an object before a put inserts the old bytes after the put has returned. -/
theorem not_freshAt_late_insert :
    let inner : Objects := (∅ : Objects).insert "a" ⟨[1], ⟨0, none, none, []⟩⟩
    let actions : List RaceAction := [.get none, .advance 0, .advance 0, .advance 0,
      .put [[2]] 5 (some ⟨5, none, none, []⟩), .advance 1, .advance 1, .advance 1, .advance 0]
    ∃ race, Transition.run (CacheRace.step "a") (new inner) actions = some race ∧
      race.calls = [] ∧ ¬ race.FreshAt "a" := by
  intro inner actions
  have hfound : (Transition.run (CacheRace.step "a") (new inner) actions).map (fun race =>
      (race.calls, (race.store.lookup (cacheKey "a" none)).map (race.store.has "a" none))) =
        some ([], some false) := by
    decide +kernel
  obtain ⟨race, hrun, hfound⟩ := Option.map_eq_some_iff.1 hfound
  obtain ⟨hcalls, hread⟩ := Prod.mk.inj hfound
  obtain ⟨read, hread, hhas⟩ := Option.map_eq_some_iff.1 hread
  refine ⟨race, hrun, hcalls, fun hfresh => ?_⟩
  rw [CachedObjectStore.has_iff.2 (hfresh none read hread)] at hhas
  cases hhas

end CacheRace

end KevinDb
