import KevinDb.Lib.Table
import KevinDb.Lib.Text
import KevinDb.Lib.Transition

namespace KevinDb
set_option autoImplicit true

inductive GetRange where
  | bounded (start stop : Nat)
  | offset (start : Nat)
  | suffix (count : Nat)
deriving DecidableEq, Repr

/-- The bytes of an object of a size that a store gives for a range. -/
def GetRange.asRange (size : Nat) : GetRange → Option (Nat × Nat)
  | bounded start stop => if start < stop ∧ start < size then some (start, min stop size) else none
  | offset start => if start < size then some (start, size) else none
  | suffix count => some (size - count, size)

structure GetOptions where
  range : Option GetRange := none
  head : Bool := false
  ifMatch : Option String := none
  ifNoneMatch : Option String := none
  ifModifiedSince : Option Int := none
  ifUnmodifiedSince : Option Int := none
  version : Option String := none
  extensions : List String := []
deriving DecidableEq, Repr

/-- What a store records with the bytes of an object. Times are in milliseconds. -/
structure ObjectTags where
  lastModifiedMillis : Int
  eTag : Option String
  version : Option String
  attributes : List (String × String)
deriving DecidableEq, Repr

structure RemoteObject where
  bytes : List UInt8
  tags : ObjectTags
deriving DecidableEq, Repr

structure ObjectMeta where
  location : String
  lastModifiedMillis : Int
  size : Nat
  eTag : Option String
  version : Option String
deriving DecidableEq, Repr

structure GetResult where
  bytes : List UInt8
  objectMeta : ObjectMeta
  rangeStart : Nat
  rangeEnd : Nat
  attributes : List (String × String)
deriving DecidableEq, Repr

abbrev Objects := Table String RemoteObject

/-- The range that an unconditional request gets, if there are such bytes. -/
def RemoteObject.requested (object : RemoteObject) : Option GetRange → Option (Nat × Nat)
  | none => some (0, object.bytes.length)
  | some range => range.asRange object.bytes.length

def RemoteObject.read (object : RemoteObject) (path : String) (range : Option GetRange) :
    Option GetResult :=
  (object.requested range).map fun found =>
    { bytes := object.bytes.extract found.1 found.2
      objectMeta := ⟨path, object.tags.lastModifiedMillis, object.bytes.length, object.tags.eTag,
        object.tags.version⟩
      rangeStart := found.1
      rangeEnd := found.2
      attributes := object.tags.attributes }

/-- The request sets nothing but a range. -/
def GetOptions.isCacheableGet (options : GetOptions) : Bool :=
  !options.head && options.ifMatch.isNone && options.ifNoneMatch.isNone &&
    options.ifModifiedSince.isNone && options.ifUnmodifiedSince.isNone &&
    options.version.isNone && options.extensions.isEmpty

/-- What the inner store answers to requests that set something else than a range. -/
abbrev ConditionalGet := Objects → String → GetOptions → Option GetResult

namespace Objects

/-- The inner store's `get_opts`. -/
def getOpts (conditional : ConditionalGet) (objects : Objects) (path : String)
    (options : GetOptions) : Option GetResult :=
  if options.isCacheableGet then objects[path]?.bind fun object => object.read path options.range
  else conditional objects path options

/-- The inner store's `get_ranges`: the bytes of every range, if it has all of them. -/
def getRanges (objects : Objects) (path : String) (ranges : List (Nat × Nat)) :
    Option (List (List UInt8)) :=
  ranges.mapM fun range => do
    let object ← objects[path]?
    let result ← object.read path (some (.bounded range.1 range.2))
    return result.bytes

/-- The inner store's `copy_opts`. There are no tags if it refuses the copy. -/
def copy (objects : Objects) (source target : String) (tags : Option ObjectTags) :
    Option Objects := do
  let tags ← tags
  let object ← objects[source]?
  return objects.insert target ⟨object.bytes, tags⟩

/-- The inner store's `rename_opts`: a copy, and then a delete of the source. -/
def rename (objects : Objects) (source target : String) (tags : Option ObjectTags) :
    Option Objects :=
  (objects.copy source target tags).map fun objects => objects.erase source

end Objects

structure CachedObjectRead where
  bytes : List UInt8
  location : String
  lastModifiedMillis : Int
  size : Nat
  eTag : Option String
  version : Option String
  rangeStart : Nat
  rangeEnd : Nat
deriving DecidableEq, Repr

def requestedRange (size : Nat) : Option GetRange → Option (Nat × Nat)
  | none => some (0, size)
  | some (.bounded start stop) => if start ≤ stop ∧ stop ≤ size then some (start, stop) else none
  | some (.offset start) => if start ≤ size then some (start, size) else none
  | some (.suffix count) => some (size - count, size)

namespace CachedObjectRead

def fromPut (path : String) (bytes : List UInt8) (nowMillis : Int) (tags : ObjectTags) :
    CachedObjectRead :=
  ⟨bytes, path, nowMillis, bytes.length, tags.eTag, tags.version, 0, bytes.length⟩

def fromGetResult (result : GetResult) : CachedObjectRead :=
  ⟨result.bytes, result.objectMeta.location, result.objectMeta.lastModifiedMillis,
    result.objectMeta.size, result.objectMeta.eTag, result.objectMeta.version, result.rangeStart,
    result.rangeEnd⟩

def intoGetResult (read : CachedObjectRead) (attributes : List (String × String)) : GetResult where
  bytes := read.bytes
  objectMeta := ⟨read.location, read.lastModifiedMillis, read.size, read.eTag, read.version⟩
  rangeStart := read.rangeStart
  rangeEnd := read.rangeEnd
  attributes := attributes

def slice (read : CachedObjectRead) (requested : Option GetRange) : Option CachedObjectRead :=
  if read.rangeStart ≠ 0 ∨ read.rangeEnd ≠ read.size then none
  else do
    let (start, stop) ← requestedRange read.size requested
    if start ≤ stop ∧ stop ≤ read.bytes.length then
      return { read with
        bytes := read.bytes.extract start stop
        rangeStart := start
        rangeEnd := stop }
    else none

end CachedObjectRead

def rangeKey : Option GetRange → String
  | none => "all"
  | some (.bounded start stop) => "bytes=" ++ toString start ++ "-" ++ toString stop
  | some (.offset start) => "offset=" ++ toString start
  | some (.suffix count) => "suffix=" ++ toString count

def cacheKey (path : String) (range : Option GetRange) : String :=
  "get:" ++ path ++ ":" ++ rangeKey range

def payloadToBytes : List (List UInt8) → List UInt8
  | [chunk] => chunk
  | payload => payload.flatten

/-- The inner store, the cache and the keys that were put into it for each path. -/
structure CachedObjectStore where
  inner : Objects
  cache : Table String CachedObjectRead
  keysByPath : Table String (List String)

namespace CachedObjectStore

def new (inner : Objects) : CachedObjectStore := ⟨inner, ∅, ∅⟩

def keysOf (s : CachedObjectStore) (path : String) : List String := s.keysByPath[path]?.getD []

def lookup (s : CachedObjectStore) (key : String) : Option CachedObjectRead := s.cache[key]?

def insert (s : CachedObjectStore) (path key : String) (read : CachedObjectRead) :
    CachedObjectStore :=
  { s with
    cache := s.cache.insert key read
    keysByPath := s.keysByPath.insert path ((s.keysOf path).insert key) }

def invalidatePath (s : CachedObjectStore) (path : String) : CachedObjectStore :=
  { s with
    cache := (s.keysOf path).foldl (fun cache key => cache.erase key) s.cache
    keysByPath := s.keysByPath.erase path }

/-- `put_opts`. There are no tags if the inner store refuses the put. -/
def putOpts (s : CachedObjectStore) (path : String) (payload : List (List UInt8)) (nowMillis : Int) :
    Option ObjectTags → CachedObjectStore
  | none => s
  | some tags =>
    let bytes := payloadToBytes payload
    (({ s with inner := s.inner.insert path ⟨payload.flatten, tags⟩ }).invalidatePath path).insert
      path (cacheKey path none) (.fromPut path bytes nowMillis tags)

/-- The completion of a multipart upload. -/
def complete (s : CachedObjectStore) (path : String) (parts : List (List UInt8)) :
    Option ObjectTags → CachedObjectStore
  | none => s
  | some tags =>
    ({ s with inner := s.inner.insert path ⟨parts.flatten, tags⟩ }).invalidatePath path

/-- The part of a cached object that answers a request for a range. -/
def cachedSlice (s : CachedObjectStore) (path : String) (range : Option GetRange) :
    Option CachedObjectRead :=
  if range.isSome then (s.lookup (cacheKey path none)).bind fun full => full.slice range else none

/-- `get_opts`. The cache may evict entries between its steps: an eviction of the entry for the
request before the lookup of the full object, or of the full object before the slice, is one before
the request, and one after the insert is one after the request. -/
def getOpts (conditional : ConditionalGet) (s : CachedObjectStore) (path : String)
    (options : GetOptions) : Option GetResult × CachedObjectStore :=
  if !options.isCacheableGet then (s.inner.getOpts conditional path options, s)
  else
    let requestKey := cacheKey path options.range
    match s.lookup requestKey with
    | some read => (some (read.intoGetResult []), s)
    | none =>
      match s.cachedSlice path options.range with
      | some read => (some (read.intoGetResult []), s.insert path requestKey read)
      | none =>
        match s.inner.getOpts conditional path options with
        | none => (none, s)
        | some result =>
          let read := CachedObjectRead.fromGetResult result
          (some (read.intoGetResult result.attributes), s.insert path requestKey read)

def evict (s : CachedObjectStore) (keys : List String) : CachedObjectStore :=
  { s with cache := keys.foldl (fun cache key => cache.erase key) s.cache }

/-- `get_ranges`, with the keys that the cache evicts before each of its reads. -/
def getRanges (conditional : ConditionalGet) (s : CachedObjectStore) (path : String) :
    List ((Nat × Nat) × List String) → Option (List (List UInt8)) × CachedObjectStore
  | [] => (some [], s)
  | (range, evicted) :: reads =>
    match (s.evict evicted).getOpts conditional path
        { range := some (.bounded range.1 range.2) } with
    | (none, s) => (none, s)
    | (some result, s) =>
      let (rest, s) := s.getRanges conditional path reads
      (rest.map fun rest => result.bytes :: rest, s)

/-- `copy_opts`. -/
def copyOpts (s : CachedObjectStore) (source target : String) (tags : Option ObjectTags) :
    CachedObjectStore :=
  match s.inner.copy source target tags with
  | none => s
  | some objects => ({ s with inner := objects }).invalidatePath target

/-- `rename_opts`. -/
def renameOpts (s : CachedObjectStore) (source target : String) (tags : Option ObjectTags) :
    CachedObjectStore :=
  match s.inner.rename source target tags with
  | none => s
  | some objects =>
    (({ s with inner := objects }).invalidatePath source).invalidatePath target

/-- `delete_stream` of a path: the cache is invalidated when the inner store takes the path. -/
def delete (s : CachedObjectStore) (path : String) (deleted : Bool) : CachedObjectStore :=
  let s := s.invalidatePath path
  if deleted then { s with inner := s.inner.erase path } else s

end CachedObjectStore

variable {s : CachedObjectStore} {path path' key : String} {range range' : Option GetRange}
  {read full : CachedObjectRead} {object : RemoteObject} {options : GetOptions}
  {conditional : ConditionalGet} {stale stale' : List String} {objects : Objects}

theorem not_mem_rangeKey (range : Option GetRange) : ':' ∉ (rangeKey range).toList := by
  cases range with
  | none => decide
  | some range =>
    cases range with
    | bounded start stop =>
      simp only [rangeKey, String.toList_append, List.mem_append, not_or]
      exact ⟨⟨⟨by decide, not_mem_toString_nat rfl start⟩, by decide⟩,
        not_mem_toString_nat rfl stop⟩
    | offset start =>
      simp only [rangeKey, String.toList_append, List.mem_append, not_or]
      exact ⟨by decide, not_mem_toString_nat rfl start⟩
    | suffix count =>
      simp only [rangeKey, String.toList_append, List.mem_append, not_or]
      exact ⟨by decide, not_mem_toString_nat rfl count⟩

theorem rangeKey_injective : Function.Injective rangeKey := by
  intro range range' h
  have hlist := congrArg String.toList h
  have hhead := congrArg List.head? hlist
  cases range with
  | none =>
    cases range' with
    | none => rfl
    | some range' => cases range' <;> simp [rangeKey] at hhead
  | some range =>
    cases range' with
    | none => cases range <;> simp [rangeKey] at hhead
    | some range' =>
      cases range with
      | bounded start stop =>
        cases range' with
        | bounded start' stop' =>
          simp only [rangeKey, String.toList_append, List.append_assoc,
            List.append_cancel_left_eq] at hlist
          obtain ⟨hstart, hstop⟩ := append_cons_inj_left (not_mem_toString_nat rfl start)
            (not_mem_toString_nat rfl start') hlist
          rw [toString_nat_injective (String.toList_inj.1 hstart),
            toString_nat_injective (String.toList_inj.1 hstop)]
        | offset => simp [rangeKey] at hhead
        | suffix => simp [rangeKey] at hhead
      | offset start =>
        cases range' with
        | bounded => simp [rangeKey] at hhead
        | offset start' =>
          simp only [rangeKey, String.toList_append, List.append_cancel_left_eq] at hlist
          rw [toString_nat_injective (String.toList_inj.1 hlist)]
        | suffix => simp [rangeKey] at hhead
      | suffix count =>
        cases range' with
        | bounded => simp [rangeKey] at hhead
        | offset => simp [rangeKey] at hhead
        | suffix count' =>
          simp only [rangeKey, String.toList_append, List.append_cancel_left_eq] at hlist
          rw [toString_nat_injective (String.toList_inj.1 hlist)]

/-- A key says which path and range it is for. -/
theorem cacheKey_inj (h : cacheKey path range = cacheKey path' range') :
    path = path' ∧ range = range' := by
  have hlist := congrArg String.toList h
  simp only [cacheKey, String.toList_append, List.append_assoc,
    List.append_cancel_left_eq] at hlist
  obtain ⟨hpath, hrange⟩ := append_cons_inj_right (not_mem_rangeKey range)
    (not_mem_rangeKey range') hlist
  exact ⟨String.toList_inj.1 hpath, rangeKey_injective (String.toList_inj.1 hrange)⟩

/-- A read of the cache shows what the inner store has of an object for a range. -/
structure CachedObjectRead.Shows (read : CachedObjectRead) (object : RemoteObject)
    (range : Option GetRange) : Prop where
  range : object.requested range = some (read.rangeStart, read.rangeEnd)
  bytes : read.bytes = object.bytes.extract read.rangeStart read.rangeEnd
  size : read.size = object.bytes.length

/-- The range holds no byte of an object, and begins no later than at the end of it. -/
def GetRange.isEmptyWithin (size : Nat) : GetRange → Bool
  | bounded start stop => start = stop ∧ stop ≤ size
  | offset start => start = size
  | suffix _ => false

theorem asRange_of_requestedRange {size : Nat} {found : Nat × Nat} {range : GetRange}
    (hempty : range.isEmptyWithin size = false)
    (h : requestedRange size (some range) = some found) : range.asRange size = some found := by
  cases range with
  | bounded start stop =>
    rw [requestedRange] at h
    split at h
    next hle =>
      have hne : start ≠ stop := fun heq => by simp [GetRange.isEmptyWithin, heq, hle.2] at hempty
      rw [GetRange.asRange, if_pos (by omega), Nat.min_eq_left hle.2]
      exact h
    · cases h
  | offset start =>
    rw [requestedRange] at h
    split at h
    next hle =>
      have hne : start ≠ size := fun heq => by simp [GetRange.isEmptyWithin, heq] at hempty
      rw [GetRange.asRange, if_pos (by omega)]
      exact h
    · cases h
  | suffix count => exact h

theorem asRange_of_isEmptyWithin {size : Nat} {range : GetRange}
    (hempty : range.isEmptyWithin size) : range.asRange size = none := by
  cases range with
  | bounded start stop =>
    have heq := (of_decide_eq_true hempty).1
    rw [GetRange.asRange, if_neg (by omega)]
  | offset start =>
    have heq := of_decide_eq_true hempty
    rw [GetRange.asRange, if_neg (by omega)]
  | suffix count => cases hempty

theorem asRange_le {size : Nat} {found : Nat × Nat} {range : GetRange}
    (h : range.asRange size = some found) : found.1 ≤ found.2 ∧ found.2 ≤ size := by
  cases range with
  | bounded start stop =>
    rw [GetRange.asRange] at h
    split at h
    · cases h
      simp only
      omega
    · cases h
  | offset start =>
    rw [GetRange.asRange] at h
    split at h
    · cases h
      simp only
      omega
    · cases h
  | suffix count =>
    cases h
    simp only
    omega

theorem CachedObjectRead.Shows.of_read {result : GetResult}
    (h : object.read path range = some result) :
    (CachedObjectRead.fromGetResult result).Shows object range := by
  obtain ⟨found, hfound, rfl⟩ := Option.map_eq_some_iff.1 h
  exact ⟨hfound, rfl, rfl⟩

/-- The slice of a full object shows what the inner store has for the range, if that is not
empty. -/
theorem CachedObjectRead.Shows.slice {sliced : CachedObjectRead} {range : GetRange}
    (h : full.Shows object none) (hempty : range.isEmptyWithin full.size = false)
    (hslice : full.slice (some range) = some sliced) : sliced.Shows object (some range) := by
  have hfull := h.range
  rw [RemoteObject.requested, Option.some.injEq, Prod.mk.injEq] at hfull
  have hbytes := h.bytes
  rw [← hfull.1, ← hfull.2, List.extract_eq_take_drop, List.drop_zero, Nat.sub_zero,
    List.take_length] at hbytes
  rw [CachedObjectRead.slice] at hslice
  split at hslice
  · cases hslice
  · obtain ⟨⟨start, stop⟩, hfound, hslice⟩ := Option.bind_eq_some_iff.1 hslice
    dsimp only at hslice
    split at hslice
    · cases hslice
      have hrange := asRange_of_requestedRange hempty hfound
      rw [h.size] at hrange
      exact ⟨hrange, by rw [hbytes], h.size⟩
    · cases hslice

namespace CachedObjectStore

/-- Every entry shows what the inner store has, but those of some paths. -/
def FreshExcept (s : CachedObjectStore) (stale : List String) : Prop :=
  ∀ (key : String) (read : CachedObjectRead), s.cache[key]? = some read → ∃ path range,
    key = cacheKey path range ∧ key ∈ s.keysOf path ∧
      (path ∈ stale ∨ ∃ object, s.inner[path]? = some object ∧ read.Shows object range)

/-- Every entry shows what the inner store has. -/
abbrev Fresh (s : CachedObjectStore) : Prop := s.FreshExcept []

theorem fresh_new (inner : Objects) : (new inner).Fresh := by
  intro key read hread
  simp [new] at hread

theorem FreshExcept.lookup (h : s.FreshExcept stale)
    (hread : s.lookup (cacheKey path range) = some read) :
    path ∈ stale ∨ ∃ object, s.inner[path]? = some object ∧ read.Shows object range := by
  obtain ⟨path', range', hkey, -, hshows⟩ := h _ _ hread
  obtain ⟨rfl, rfl⟩ := cacheKey_inj hkey
  exact hshows

theorem keysOf_insert (s : CachedObjectStore) (path key other : String) (read : CachedObjectRead) :
    s.keysOf other ⊆ (s.insert path key read).keysOf other := by
  intro k hk
  rw [keysOf, insert, Table.get_insert]
  split
  next heq =>
    subst heq
    exact List.mem_insert_of_mem hk
  · exact hk

theorem FreshExcept.insert (h : s.FreshExcept stale)
    (hshows : path ∈ stale ∨ ∃ object, s.inner[path]? = some object ∧ read.Shows object range) :
    (s.insert path (cacheKey path range) read).FreshExcept stale := by
  intro key other hother
  rw [CachedObjectStore.insert, Table.get_insert] at hother
  split at hother
  next heq =>
    cases hother
    refine ⟨path, range, heq.symm, ?_, hshows⟩
    rw [keysOf, CachedObjectStore.insert, Table.get_insert, if_pos rfl, ← heq]
    exact List.mem_insert_self
  · obtain ⟨path', range', hkey, hmem, hfresh⟩ := h key other hother
    exact ⟨path', range', hkey, keysOf_insert s path _ path' read hmem, hfresh⟩

theorem FreshExcept.evict (h : s.FreshExcept stale) (keys : List String) :
    (s.evict keys).FreshExcept stale := by
  intro key read hread
  rw [CachedObjectStore.evict, Table.get_foldl_erase] at hread
  split at hread
  · cases hread
  · exact h key read hread

/-- A change of the inner store can only make the entries of the changed paths stale. -/
theorem FreshExcept.write (h : s.FreshExcept stale)
    (hobjects : ∀ path, path ∉ stale' → objects[path]? = s.inner[path]?) :
    ({ s with inner := objects } : CachedObjectStore).FreshExcept (stale' ++ stale) := by
  intro key read hread
  obtain ⟨path, range, hkey, hmem, hfresh⟩ := h key read hread
  refine ⟨path, range, hkey, hmem, ?_⟩
  rw [List.mem_append]
  by_cases hpath : path ∈ stale'
  · exact .inl (.inl hpath)
  · dsimp only
    rw [hobjects path hpath]
    exact hfresh.imp_left .inr

/-- Invalidation drops every entry of a path. -/
theorem FreshExcept.invalidatePath (h : s.FreshExcept (path :: stale)) :
    (s.invalidatePath path).FreshExcept stale := by
  intro key read hread
  rw [CachedObjectStore.invalidatePath, Table.get_foldl_erase] at hread
  split at hread
  · cases hread
  next hkept =>
    obtain ⟨path', range, hkey, hmem, hfresh⟩ := h key read hread
    have hne : path ≠ path' := fun heq => hkept (heq ▸ hmem)
    refine ⟨path', range, hkey, ?_, ?_⟩
    · rw [keysOf, CachedObjectStore.invalidatePath, Table.get_erase, if_neg hne]
      exact hmem
    · exact hfresh.imp_left fun hstale => (List.mem_cons.1 hstale).resolve_left hne.symm

/-- A change of the inner store at a path, and the invalidation of it. -/
theorem Fresh.writeInvalidate (h : s.Fresh)
    (hobjects : ∀ other, other ≠ path → objects[other]? = s.inner[other]?) :
    (({ s with inner := objects } : CachedObjectStore).invalidatePath path).Fresh := by
  have hwrite : ({ s with inner := objects } : CachedObjectStore).FreshExcept ([path] ++ []) :=
    h.write fun other hother => hobjects other fun heq => hother (heq ▸ List.mem_singleton_self _)
  exact hwrite.invalidatePath

end CachedObjectStore

/-- The bytes of a result, and the range that they are. -/
def GetResult.shown (result : GetResult) : List UInt8 × Nat × Nat :=
  (result.bytes, result.rangeStart, result.rangeEnd)

theorem CachedObjectRead.Shows.shown (h : read.Shows object range) (path : String)
    (attributes : List (String × String)) : (object.read path range).map GetResult.shown =
      some (read.intoGetResult attributes).shown := by
  rw [RemoteObject.read, h.range, Option.map_some, Option.map_some, GetResult.shown, GetResult.shown,
    CachedObjectRead.intoGetResult, h.bytes]

theorem CachedObjectRead.Shows.isSome_slice {range : GetRange} (h : full.Shows object none)
    (hempty : range.isEmptyWithin full.size) : (full.slice (some range)).isSome := by
  have hfull := h.range
  rw [RemoteObject.requested, Option.some.injEq, Prod.mk.injEq, ← h.size] at hfull
  have hlength : full.bytes.length = full.size := by
    rw [h.bytes, ← hfull.1, ← hfull.2, List.extract_eq_take_drop, List.drop_zero, Nat.sub_zero,
      h.size, List.take_length]
  have hfound : ∃ found, requestedRange full.size (some range) = some found ∧
      found.1 ≤ found.2 ∧ found.2 ≤ full.size := by
    cases range with
    | bounded start stop =>
      have heq := of_decide_eq_true hempty
      exact ⟨(start, stop), if_pos ⟨heq.1.le, heq.2⟩, heq.1.le, heq.2⟩
    | offset start =>
      have heq := of_decide_eq_true hempty
      exact ⟨(start, full.size), if_pos heq.le, heq.le, Nat.le_refl _⟩
    | suffix count => cases hempty
  obtain ⟨⟨start, stop⟩, hfound, hle⟩ := hfound
  rw [CachedObjectRead.slice, if_neg (by rw [← hfull.1, ← hfull.2]; simp), hfound]
  dsimp only [bind, Option.bind]
  rw [hlength, if_pos hle]
  rfl

namespace CachedObjectStore

/-- The request asks for no byte of an object that is cached whole. -/
def slicesEmpty (s : CachedObjectStore) (path : String) (options : GetOptions) : Bool :=
  options.isCacheableGet && (s.lookup (cacheKey path none)).any fun full =>
    options.range.any (GetRange.isEmptyWithin full.size)

theorem Fresh.cachedSlice (h : s.Fresh) (hempty : (s.lookup (cacheKey path none)).any
      (fun full => range.any (GetRange.isEmptyWithin full.size)) = false)
    (hslice : s.cachedSlice path range = some read) :
    ∃ object, s.inner[path]? = some object ∧ read.Shows object range := by
  cases range with
  | none => cases hslice
  | some range =>
    obtain ⟨full, hfull, hslice⟩ := Option.bind_eq_some_iff.1 hslice
    obtain ⟨object, hobject, hshows⟩ := (h.lookup hfull).resolve_left List.not_mem_nil
    rw [hfull] at hempty
    exact ⟨object, hobject, hshows.slice hempty hslice⟩

/-- A request that asks for bytes gets what the inner store has, and keeps the cache fresh. -/
theorem Fresh.getOpts (h : s.Fresh) (hempty : s.slicesEmpty path options = false) :
    (s.getOpts conditional path options).1.map GetResult.shown =
        (s.inner.getOpts conditional path options).map GetResult.shown ∧
      (s.getOpts conditional path options).2.inner = s.inner ∧
      (s.getOpts conditional path options).2.Fresh := by
  rw [CachedObjectStore.getOpts]
  cases hplain : options.isCacheableGet with
  | false => exact ⟨rfl, rfl, h⟩
  | true =>
    rw [slicesEmpty, hplain, Bool.true_and] at hempty
    have hinner : s.inner.getOpts conditional path options =
        s.inner[path]?.bind fun object => object.read path options.range := if_pos hplain
    rw [Bool.not_true, if_neg Bool.false_ne_true]
    dsimp only
    cases hlookup : s.lookup (cacheKey path options.range) with
    | some read =>
      obtain ⟨object, hobject, hshows⟩ := (h.lookup hlookup).resolve_left List.not_mem_nil
      refine ⟨?_, rfl, h⟩
      rw [hinner, hobject]
      exact (hshows.shown path []).symm
    | none =>
      dsimp only
      cases hslice : s.cachedSlice path options.range with
      | some read =>
        obtain ⟨object, hobject, hshows⟩ := h.cachedSlice hempty hslice
        refine ⟨?_, rfl, h.insert (.inr ⟨object, hobject, hshows⟩)⟩
        rw [hinner, hobject]
        exact (hshows.shown path []).symm
      | none =>
        dsimp only
        cases hread : s.inner.getOpts conditional path options with
        | none => exact ⟨rfl, rfl, h⟩
        | some result =>
          rw [hinner] at hread
          obtain ⟨object, hobject, hread⟩ := Option.bind_eq_some_iff.1 hread
          exact ⟨rfl, rfl, h.insert (.inr ⟨object, hobject, .of_read hread⟩)⟩

/-- A request for no byte of an object that is cached whole succeeds, and the inner store refuses
it. -/
theorem Fresh.getOpts_slicesEmpty (h : s.Fresh) (hempty : s.slicesEmpty path options) :
    (s.getOpts conditional path options).1.isSome ∧
      s.inner.getOpts conditional path options = none := by
  rw [slicesEmpty, Bool.and_eq_true] at hempty
  obtain ⟨hplain, hempty⟩ := hempty
  obtain ⟨full, hfull, hempty⟩ := (Option.any_eq_true _ _).1 hempty
  obtain ⟨range, hrange, hempty⟩ := (Option.any_eq_true _ _).1 hempty
  obtain ⟨object, hobject, hshows⟩ := (h.lookup hfull).resolve_left List.not_mem_nil
  rw [hshows.size] at hempty
  have hnone : object.read path options.range = none := by
    rw [RemoteObject.read, hrange, RemoteObject.requested, asRange_of_isEmptyWithin hempty]
    rfl
  have hinner : s.inner.getOpts conditional path options = none := by
    rw [Objects.getOpts, if_pos hplain, hobject]
    exact hnone
  refine ⟨?_, hinner⟩
  have hlookup : s.lookup (cacheKey path options.range) = none := by
    cases hlookup : s.lookup (cacheKey path options.range) with
    | none => rfl
    | some read =>
      obtain ⟨object', hobject', hshows'⟩ := (h.lookup hlookup).resolve_left List.not_mem_nil
      rw [hobject] at hobject'
      cases hobject'
      have hshown := hshows'.shown path []
      rw [hnone] at hshown
      cases hshown
  have hslice : (s.cachedSlice path options.range).isSome := by
    rw [CachedObjectStore.cachedSlice, hrange, Option.isSome_some, if_pos rfl, hfull]
    rw [← hshows.size] at hempty
    exact hshows.isSome_slice hempty
  obtain ⟨read, hread⟩ := Option.isSome_iff_exists.1 hslice
  rw [CachedObjectStore.getOpts, hplain, Bool.not_true, if_neg Bool.false_ne_true]
  dsimp only
  rw [hlookup]
  dsimp only
  rw [hread]
  rfl

end CachedObjectStore

namespace CachedObjectStore

/-- One of the reads that are made asks for no byte of an object that is cached whole. -/
def slicesEmptyIn (conditional : ConditionalGet) (s : CachedObjectStore) (path : String) :
    List ((Nat × Nat) × List String) → Bool
  | [] => false
  | (range, evicted) :: reads =>
    let options : GetOptions := { range := some (.bounded range.1 range.2) }
    (s.evict evicted).slicesEmpty path options ||
      match (s.evict evicted).getOpts conditional path options with
      | (none, _) => false
      | (some _, s) => s.slicesEmptyIn conditional path reads

end CachedObjectStore

/-- An operation on a store, with what the inner store does with it, or an eviction. -/
inductive StoreAction where
  | put (path : String) (payload : List (List UInt8)) (nowMillis : Int) (tags : Option ObjectTags)
  | completeMultipart (path : String) (parts : List (List UInt8)) (tags : Option ObjectTags)
  | get (path : String) (options : GetOptions)
  | getRanges (path : String) (reads : List ((Nat × Nat) × List String))
  | copy (source target : String) (tags : Option ObjectTags)
  | rename (source target : String) (tags : Option ObjectTags)
  | delete (path : String) (deleted : Bool)
  | evict (keys : List String)

/-- What an operation returns. -/
inductive StoreReply where
  | done (succeeded : Bool)
  | got (shown : Option (List UInt8 × Nat × Nat))
  | gotRanges (bytes : Option (List (List UInt8)))
deriving DecidableEq

/-- The operation on the inner store alone. -/
def Objects.execute (conditional : ConditionalGet) (objects : Objects) :
    StoreAction → StoreReply × Objects
  | .put path payload _ tags =>
    (.done tags.isSome, (tags.map fun tags => objects.insert path ⟨payload.flatten, tags⟩).getD
      objects)
  | .completeMultipart path parts tags =>
    (.done tags.isSome, (tags.map fun tags => objects.insert path ⟨parts.flatten, tags⟩).getD
      objects)
  | .get path options => (.got ((objects.getOpts conditional path options).map GetResult.shown),
      objects)
  | .getRanges path reads => (.gotRanges (objects.getRanges path (reads.map Prod.fst)), objects)
  | .copy source target tags =>
    (.done (objects.copy source target tags).isSome, (objects.copy source target tags).getD objects)
  | .rename source target tags =>
    (.done (objects.rename source target tags).isSome,
      (objects.rename source target tags).getD objects)
  | .delete path deleted => (.done deleted, if deleted then objects.erase path else objects)
  | .evict _ => (.done true, objects)

/-- The operation through the cache. -/
def CachedObjectStore.execute (conditional : ConditionalGet) (s : CachedObjectStore) :
    StoreAction → StoreReply × CachedObjectStore
  | .put path payload nowMillis tags => (.done tags.isSome, s.putOpts path payload nowMillis tags)
  | .completeMultipart path parts tags => (.done tags.isSome, s.complete path parts tags)
  | .get path options =>
    let (result, s) := s.getOpts conditional path options
    (.got (result.map GetResult.shown), s)
  | .getRanges path reads =>
    let (bytes, s) := s.getRanges conditional path reads
    (.gotRanges bytes, s)
  | .copy source target tags =>
    (.done (s.inner.copy source target tags).isSome, s.copyOpts source target tags)
  | .rename source target tags =>
    (.done (s.inner.rename source target tags).isSome, s.renameOpts source target tags)
  | .delete path deleted => (.done deleted, s.delete path deleted)
  | .evict keys => (.done true, s.evict keys)

/-- The operation asks for no byte of an object that is cached whole. -/
def CachedObjectStore.refuses (conditional : ConditionalGet) (s : CachedObjectStore) :
    StoreAction → Bool
  | .get path options => s.slicesEmpty path options
  | .getRanges path reads => s.slicesEmptyIn conditional path reads
  | _ => false

namespace CachedObjectStore

theorem Objects.getRanges_cons (objects : Objects) (path : String) (range : Nat × Nat)
    (ranges : List (Nat × Nat)) (conditional : ConditionalGet) :
    objects.getRanges path (range :: ranges) =
      (objects.getOpts conditional path { range := some (.bounded range.1 range.2) }).bind
        fun result => (objects.getRanges path ranges).map fun rest => result.bytes :: rest := by
  have hplain : GetOptions.isCacheableGet { range := some (.bounded range.1 range.2) } := rfl
  rw [Objects.getRanges, Objects.getRanges, List.mapM_cons, Objects.getOpts, if_pos hplain]
  cases objects[path]? with
  | none => rfl
  | some object =>
    cases hread : object.read path (some (.bounded range.1 range.2)) with
    | none => simp [hread]
    | some result =>
      simp only [hread, Option.bind_eq_bind, Option.bind_some, Option.pure_def]
      rw [Option.map_eq_bind]
      rfl

/-- Reads that ask for bytes get what the inner store has. -/
theorem Fresh.getRanges {reads : List ((Nat × Nat) × List String)} (h : s.Fresh)
    (hempty : s.slicesEmptyIn conditional path reads = false) :
    (s.getRanges conditional path reads).1 = s.inner.getRanges path (reads.map Prod.fst) ∧
      (s.getRanges conditional path reads).2.inner = s.inner ∧
      (s.getRanges conditional path reads).2.Fresh := by
  induction reads generalizing s with
  | nil => exact ⟨rfl, rfl, h⟩
  | cons read reads ih =>
    obtain ⟨range, evicted⟩ := read
    rw [slicesEmptyIn, Bool.or_eq_false_iff] at hempty
    obtain ⟨hfirst, hrest⟩ := hempty
    have hevicted : (s.evict evicted).Fresh := FreshExcept.evict h evicted
    obtain ⟨hreply, hinner, hfresh⟩ := @Fresh.getOpts _ _ _ conditional hevicted hfirst
    rw [List.map_cons, Objects.getRanges_cons s.inner path range _ conditional,
      CachedObjectStore.getRanges]
    rw [show (s.evict evicted).inner = s.inner from rfl] at hreply hinner
    generalize (s.evict evicted).getOpts conditional path
      { range := some (.bounded range.1 range.2) } = outcome at hreply hinner hfresh hrest ⊢
    obtain ⟨result, after⟩ := outcome
    cases result with
    | none =>
      have hnone := Option.map_eq_none_iff.1 hreply.symm
      rw [hnone]
      exact ⟨rfl, hinner, hfresh⟩
    | some result =>
      obtain ⟨found, hfound, hshown⟩ := Option.map_eq_some_iff.1 hreply.symm
      have hbytes : found.bytes = result.bytes := congrArg Prod.fst hshown
      obtain ⟨hall, hinner', hfresh'⟩ := ih hfresh hrest
      rw [hfound, Option.bind_some, hbytes]
      dsimp only at hinner hall hinner' hfresh' ⊢
      rw [hinner] at hall hinner'
      exact ⟨congrArg _ hall, hinner', hfresh'⟩

theorem Fresh.putOpts (h : s.Fresh) (payload : List (List UInt8)) (nowMillis : Int)
    (tags : Option ObjectTags) : (s.putOpts path payload nowMillis tags).Fresh := by
  cases tags with
  | none => exact h
  | some tags =>
    rw [CachedObjectStore.putOpts]
    apply FreshExcept.insert
    · apply h.writeInvalidate
      intro other hother
      rw [Table.get_insert, if_neg hother.symm]
    · refine .inr ⟨⟨payload.flatten, tags⟩, ?_, ?_⟩
      · rw [CachedObjectStore.invalidatePath, Table.get_insert, if_pos rfl]
      · have hbytes : payloadToBytes payload = payload.flatten := by
          rw [payloadToBytes.eq_def]
          split
          · rw [List.flatten_singleton]
          · rfl
        rw [hbytes, CachedObjectRead.fromPut]
        refine ⟨rfl, ?_, rfl⟩
        rw [List.extract_eq_take_drop, List.drop_zero, Nat.sub_zero, List.take_length]

/-- Every operation keeps the entries fresh. -/
theorem Fresh.execute (h : s.Fresh) {action : StoreAction}
    (haction : s.refuses conditional action = false) :
    (s.execute conditional action).1 = (s.inner.execute conditional action).1 ∧
      (s.execute conditional action).2.inner = (s.inner.execute conditional action).2 ∧
      (s.execute conditional action).2.Fresh := by
  cases action with
  | put path payload nowMillis tags =>
    refine ⟨rfl, ?_, h.putOpts payload nowMillis tags⟩
    cases tags <;> rfl
  | completeMultipart path parts tags =>
    cases tags with
    | none => exact ⟨rfl, rfl, h⟩
    | some tags =>
      refine ⟨rfl, rfl, h.writeInvalidate fun other hother => ?_⟩
      rw [Table.get_insert, if_neg hother.symm]
  | get path options =>
    obtain ⟨hreply, hinner, hfresh⟩ := @Fresh.getOpts _ _ _ conditional h haction
    exact ⟨congrArg StoreReply.got hreply, hinner, hfresh⟩
  | getRanges path reads =>
    obtain ⟨hreply, hinner, hfresh⟩ := h.getRanges haction
    exact ⟨congrArg StoreReply.gotRanges hreply, hinner, hfresh⟩
  | copy source target tags =>
    refine ⟨rfl, ?_⟩
    rw [CachedObjectStore.execute, CachedObjectStore.copyOpts, Objects.execute]
    cases hcopy : s.inner.copy source target tags with
    | none => exact ⟨rfl, h⟩
    | some objects =>
      refine ⟨rfl, h.writeInvalidate fun other hother => ?_⟩
      obtain ⟨tags, -, hcopy⟩ := Option.bind_eq_some_iff.1 hcopy
      obtain ⟨object, -, hcopy⟩ := Option.bind_eq_some_iff.1 hcopy
      cases hcopy
      rw [Table.get_insert, if_neg hother.symm]
  | rename source target tags =>
    refine ⟨rfl, ?_⟩
    rw [CachedObjectStore.execute, CachedObjectStore.renameOpts, Objects.execute]
    cases hrename : s.inner.rename source target tags with
    | none => exact ⟨rfl, h⟩
    | some objects =>
      refine ⟨rfl, ?_⟩
      obtain ⟨copied, hcopy, rfl⟩ := Option.map_eq_some_iff.1 hrename
      obtain ⟨tags, -, hcopy⟩ := Option.bind_eq_some_iff.1 hcopy
      obtain ⟨object, -, hcopy⟩ := Option.bind_eq_some_iff.1 hcopy
      cases hcopy
      have hwrite : ({ s with inner := (s.inner.insert target ⟨object.bytes, tags⟩).erase source } :
          CachedObjectStore).FreshExcept ([source, target] ++ []) := by
        apply h.write
        intro other hother
        rw [List.mem_cons, List.mem_singleton, not_or] at hother
        rw [Table.get_erase, if_neg (Ne.symm hother.1), Table.get_insert,
          if_neg (Ne.symm hother.2)]
      exact hwrite.invalidatePath.invalidatePath
  | delete path deleted =>
    rw [CachedObjectStore.execute, CachedObjectStore.delete, Objects.execute]
    cases deleted with
    | false => exact ⟨rfl, rfl, h.writeInvalidate fun _ _ => rfl⟩
    | true =>
      refine ⟨rfl, rfl, ?_⟩
      have hfresh : (({ s with inner := s.inner.erase path } :
          CachedObjectStore).invalidatePath path).Fresh := by
        apply h.writeInvalidate
        intro other hother
        rw [Table.get_erase, if_neg hother.symm]
      exact hfresh
  | evict keys => exact ⟨rfl, rfl, FreshExcept.evict h keys⟩

/-- A store with a cache answers as the inner store does, and a request for no byte of an object
that is cached whole, which it answers, is one that the inner store refuses. -/
theorem replies_eq (conditional : ConditionalGet) (inner : Objects) {actions : List StoreAction}
    (hactions : Transition.AllMeet (CachedObjectStore.execute conditional)
      (fun s action => s.refuses conditional action = false) (new inner) actions) :
    Transition.replies (CachedObjectStore.execute conditional) (new inner) actions =
        Transition.replies (Objects.execute conditional) inner actions ∧
      ∀ path options,
        let s := Transition.after (CachedObjectStore.execute conditional) (new inner) actions
        s.refuses conditional (.get path options) →
          (s.getOpts conditional path options).1.isSome ∧
            s.inner.getOpts conditional path options = none := by
  have hstep : ∀ (s : CachedObjectStore) (objects : Objects) (action : StoreAction),
      s.inner = objects ∧ s.Fresh → s.refuses conditional action = false →
        (s.execute conditional action).1 = (objects.execute conditional action).1 ∧
          (s.execute conditional action).2.inner = (objects.execute conditional action).2 ∧
          (s.execute conditional action).2.Fresh := by
    rintro s objects action ⟨rfl, hfresh⟩ haction
    exact hfresh.execute haction
  obtain ⟨hreplies, -, hfresh⟩ := Transition.replies_eq_of_simulates
    (fun (s : CachedObjectStore) objects => s.inner = objects ∧ s.Fresh) hstep
    ⟨rfl, fresh_new inner⟩ hactions
  exact ⟨hreplies, fun path options hrefuses => hfresh.getOpts_slicesEmpty hrefuses⟩

/-- The first bytes of an object are read again from the cached object. -/
theorem replies_eq_slice :
    let inner : Objects := (∅ : Objects).insert "a" ⟨[1, 2], ⟨0, none, none, []⟩⟩
    let actions : List StoreAction := [.get "a" {}, .get "a" { range := some (.bounded 0 1) },
      .put "a" [[3], [4]] 5 (some ⟨5, none, none, []⟩), .getRanges "a" [((1, 2), [])]]
    Transition.replies (CachedObjectStore.execute fun _ _ _ => none) (new inner) actions =
      Transition.replies (Objects.execute fun _ _ _ => none) inner actions :=
  (replies_eq _ _ (by decide +kernel)).1

/-- A range of no byte is read from the cached object, and the inner store refuses it. -/
theorem replies_ne_empty_range :
    let inner : Objects := (∅ : Objects).insert "a" ⟨[1, 2], ⟨0, none, none, []⟩⟩
    let actions : List StoreAction := [.get "a" {}, .get "a" { range := some (.bounded 1 1) }]
    Transition.replies (CachedObjectStore.execute fun _ _ _ => none) (new inner) actions ≠
      Transition.replies (Objects.execute fun _ _ _ => none) inner actions := by
  decide +kernel

end CachedObjectStore

end KevinDb
