import KevinDb.Lib.Keyset
import KevinDb.Query.CoalescedReads
import KevinDb.Search.Codec

namespace KevinDb
set_option autoImplicit true
open Std

def keyValueSeparator : UInt8 := 0

def rowGroupPostingsBytes : Nat := 32 * 1024 * 1024

def rowGroupRawTermBytes : Nat := 64 * 1024 * 1024

/-- The library of finite state transducers: `MapBuilder`, and what `Map::new` accepts. -/
structure FstLib where
  Builder : Type
  memory : Builder
  insert : Builder → List UInt8 → Nat → Except String Builder
  intoInner : Builder → Except String (List UInt8)
  validate : List UInt8 → Bool

structure TermInterner where
  bytes : List UInt8
  terms : List (Nat × Nat)
  lookup : Table (List UInt8) UInt32

def TermInterner.empty : TermInterner := ⟨[], [], ∅⟩

/-- The identifier of a term, and the interner that knows it. -/
def TermInterner.intern (interner : TermInterner) (term : List UInt8) : UInt32 × TermInterner :=
  match interner.lookup[term]? with
  | some termId => (termId, interner)
  | none =>
    let start := interner.bytes.length
    let bytes := interner.bytes ++ term
    let termId := UInt32.ofNat (min interner.terms.length (2 ^ 32 - 1))
    let terms := interner.terms ++ [(start, bytes.length)]
    (termId, { bytes, terms, lookup := interner.lookup.insert term termId })

/-- The bytes of a term. The source panics at an identifier that is out of range. -/
def TermInterner.term (interner : TermInterner) (termId : UInt32) : List UInt8 :=
  match interner.terms[termId.toNat]? with
  | some (start, stop) => (interner.bytes.drop start).take (stop - start)
  | none => []

class TermOccurrence (α : Type) where
  termId : α → UInt32

export TermOccurrence (termId)

structure KeyOccurrence where
  termId : UInt32
  row : UInt32
deriving DecidableEq

structure ValueOccurrence where
  termId : UInt32
  row : UInt32
  position : UInt32
deriving DecidableEq

instance : TermOccurrence KeyOccurrence := ⟨KeyOccurrence.termId⟩

instance : TermOccurrence ValueOccurrence := ⟨ValueOccurrence.termId⟩

/-! Sorting. -/

def smallBucket : Nat := 32

section sorting

variable [TermOccurrence α]

/-- The bytes of the term of an occurrence. -/
def TermInterner.termOf (interner : TermInterner) (occurrence : α) : List UInt8 :=
  interner.term (termId occurrence)

def compareOccurrenceTerms (interner : TermInterner) (left right : α) : Ordering :=
  compare (interner.termOf left) (interner.termOf right)

/-- The bucket of an occurrence at a depth. -/
def TermInterner.bucketOf (interner : TermInterner) (depth : Nat) (occurrence : α) : Nat :=
  match (interner.termOf occurrence)[depth]? with
  | some byte => byte.toNat + 1
  | none => 0

/-- The occurrences in a bucket, in their order. -/
def TermInterner.bucket (interner : TermInterner) (depth : Nat) (occurrences : List α)
    (bucketIndex : Nat) : List α :=
  occurrences.filter fun occurrence => interner.bucketOf depth occurrence = bucketIndex

/-- How much of the terms there is behind a depth. -/
def TermInterner.restLength (interner : TermInterner) (depth : Nat) (occurrences : List α) : Nat :=
  (occurrences.map fun occurrence => (interner.termOf occurrence).length - depth).sum

/-- There is less of the terms in a bucket behind the next depth. -/
theorem TermInterner.restLength_lt (interner : TermInterner) {depth bucketIndex : Nat}
    {occurrences : List α} (hindex : bucketIndex ≠ 0)
    (hne : interner.bucket depth occurrences bucketIndex ≠ []) :
    interner.restLength (depth + 1) (interner.bucket depth occurrences bucketIndex) <
      interner.restLength depth occurrences := by
  have hle (occurrences : List α) :
      interner.restLength (depth + 1) (interner.bucket depth occurrences bucketIndex) ≤
        interner.restLength depth occurrences := by
    induction occurrences with
    | nil => exact Nat.le_refl 0
    | cons occurrence occurrences ih =>
      rw [bucket] at ih
      rw [bucket, List.filter_cons]
      split
      · simp only [restLength, List.map_cons, List.sum_cons] at ih ⊢
        omega
      · simp only [restLength, List.map_cons, List.sum_cons] at ih ⊢
        omega
  induction occurrences with
  | nil => exact absurd rfl hne
  | cons occurrence occurrences ih =>
    have hrest := hle occurrences
    by_cases hbucket : interner.bucketOf depth occurrence = bucketIndex
    · have hlong : depth < (interner.termOf occurrence).length := by
        rw [bucketOf] at hbucket
        split at hbucket
        next hbyte => exact (List.getElem?_eq_some_iff.1 hbyte).1
        next => exact absurd hbucket.symm hindex
      rw [bucket, List.filter_cons_of_pos (by simpa using hbucket)]
      simp only [bucket, restLength, List.map_cons, List.sum_cons] at hrest ⊢
      omega
    · rw [bucket, List.filter_cons_of_neg (by simpa using hbucket)] at hne ⊢
      have hrest := ih hne
      simp only [bucket, restLength, List.map_cons, List.sum_cons] at hrest ⊢
      omega

def radixSortedOccurrences (interner : TermInterner) (occurrences : List α) (depth : Nat) :
    List α :=
  if occurrences.length ≤ smallBucket then
    ordered (compareOccurrenceTerms interner) occurrences
  else
    (List.range 257).flatMap fun bucketIndex =>
      let bucket := interner.bucket depth occurrences bucketIndex
      if hempty : bucket = [] then []
      else if hindex : bucketIndex = 0 ∨ bucket.length ≤ smallBucket then
        ordered (compareOccurrenceTerms interner) bucket
      else radixSortedOccurrences interner bucket (depth + 1)
termination_by interner.restLength depth occurrences
decreasing_by exact interner.restLength_lt (not_or.1 hindex).1 hempty

def radixSortOccurrences (interner : TermInterner) (occurrences : List α) : List α :=
  radixSortedOccurrences interner occurrences 0

end sorting

/-! Entries. -/

structure TermAccumulator where
  rows : TreeSet UInt32
  positionsByRow : Table UInt32 (TreeSet UInt32)

def TermAccumulator.empty : TermAccumulator := ⟨∅, ∅⟩

def KeyOccurrence.addTo (occurrence : KeyOccurrence) (accumulator : TermAccumulator) :
    TermAccumulator :=
  { accumulator with rows := accumulator.rows.insert occurrence.row }

def ValueOccurrence.addTo (occurrence : ValueOccurrence) (accumulator : TermAccumulator) :
    TermAccumulator :=
  { rows := accumulator.rows.insert occurrence.row
    positionsByRow := accumulator.positionsByRow.insert occurrence.row
      ((accumulator.positionsByRow[occurrence.row]?.getD ∅).insert occurrence.position) }

/-- The variables of the loops of `build_key_entries` and `build_value_entries`. -/
structure EntryBuilder where
  entries : List (List UInt8 × TermAccumulator)
  currentTermId : Option UInt32
  current : TermAccumulator

section entries

variable [TermOccurrence α]

/-- One turn of the loops, with how an occurrence is added. -/
def EntryBuilder.push (interner : TermInterner) (addTo : α → TermAccumulator → TermAccumulator)
    (builder : EntryBuilder) (occurrence : α) : EntryBuilder :=
  if some (termId occurrence) = builder.currentTermId then
    { builder with current := addTo occurrence builder.current }
  else
    match builder.currentTermId with
    | some current =>
      { entries := builder.entries ++ [(interner.term current, builder.current)]
        currentTermId := some (termId occurrence)
        current := addTo occurrence .empty }
    | none =>
      { builder with
        currentTermId := some (termId occurrence)
        current := addTo occurrence builder.current }

/-- The entries once the last one is pushed. -/
def EntryBuilder.finish (interner : TermInterner) (builder : EntryBuilder) :
    List (List UInt8 × TermAccumulator) :=
  match builder.currentTermId with
  | some current => builder.entries ++ [(interner.term current, builder.current)]
  | none => builder.entries

def buildEntries (interner : TermInterner) (addTo : α → TermAccumulator → TermAccumulator)
    (occurrences : List α) : List (List UInt8 × TermAccumulator) :=
  ((radixSortOccurrences interner occurrences).foldl (EntryBuilder.push interner addTo)
    ⟨[], none, .empty⟩).finish interner

end entries

def buildKeyEntries (interner : TermInterner) (occurrences : List KeyOccurrence) :
    List (List UInt8 × TermAccumulator) :=
  buildEntries interner KeyOccurrence.addTo occurrences

def buildValueEntries (interner : TermInterner) (occurrences : List ValueOccurrence) :
    List (List UInt8 × TermAccumulator) :=
  buildEntries interner ValueOccurrence.addTo occurrences

/-! Row groups. -/

structure TermEntry where
  term : List UInt8
  rows : List UInt32
  positionsByRow : Table UInt32 (List UInt32)

def TermEntry.ofAccumulator (term : List UInt8) (accumulator : TermAccumulator) : TermEntry where
  term
  rows := accumulator.rows.toList
  positionsByRow := accumulator.positionsByRow.map fun _ positions => positions.toList

def estimatedTermBytes (entry : TermEntry) (includePositions : Bool) : Outcome Nat := do
  let postings ← encodeU32List entry.rows
  if !includePositions then return postings.length
  else return postings.length + (← encodePositions entry.rows entry.positionsByRow).length

/-- `context` on what the library returns. -/
def orContext (result : Except String α) (context : String) : Outcome α :=
  match result with
  | .ok value => .ok value
  | .error _ => .error context

/-- The positions that are written for an entry. -/
def TermEntry.encodedPositions (entry : TermEntry) (includePositions : Bool) :
    Outcome (List UInt8) :=
  if includePositions then encodePositions entry.rows entry.positionsByRow else .ok []

/-- The variables of the loop of `encode_row_group`. -/
structure GroupEncoder (fst : FstLib) where
  fst : fst.Builder
  termInfos : List TermInfo
  postings : List UInt8
  positions : List UInt8

/-- One turn of the loop of `encode_row_group`. The ordinal is the number of the terms before. -/
def GroupEncoder.push {fst : FstLib} (includePositions : Bool) (encoder : GroupEncoder fst)
    (entry : TermEntry) : Outcome (GroupEncoder fst) := do
  let builder ← orContext (fst.insert encoder.fst entry.term encoder.termInfos.length)
    "insert search FST term"
  let postingsOffset ← checkedU32 encoder.postings.length "postings offset"
  let encodedPostings ← encodeU32List entry.rows
  let postingsLen ← checkedU32 encodedPostings.length "postings len"
  let positionsOffset ← checkedU32 encoder.positions.length "positions offset"
  let encodedPositions ← entry.encodedPositions includePositions
  let positionsLen ← checkedU32 encodedPositions.length "positions len"
  let docCount ← checkedU32 entry.rows.length "doc count"
  return {
    fst := builder
    termInfos := encoder.termInfos ++
      [{ docCount, postingsOffset, postingsLen, positionsOffset, positionsLen }]
    postings := encoder.postings ++ encodedPostings
    positions := encoder.positions ++ encodedPositions }

def encodeRowGroup (fst : FstLib) (includePositions : Bool) (entries : List TermEntry) :
    Outcome SearchRowGroup := do
  let encoder ← entries.foldlM (GroupEncoder.push includePositions) ⟨fst.memory, [], [], []⟩
  let fstBytes ← orContext (fst.intoInner encoder.fst) "finish search FST"
  return {
    minTerm := (entries.head?.map TermEntry.term).getD []
    maxTerm := (entries.getLast?.map TermEntry.term).getD []
    fstBytes
    termInfos := encoder.termInfos
    postings := encoder.postings
    positions := encoder.positions }

/-- The loop of `build_row_groups` over the entries, with its variables, and the last group. -/
def groupsFrom (fst : FstLib) (includePositions : Bool) (groups : List SearchRowGroup)
    (current : List TermEntry) (currentPostingsBytes currentRawTermBytes : Nat) :
    List TermEntry → Outcome (List SearchRowGroup)
  | [] =>
    if current ≠ [] then do return groups ++ [← encodeRowGroup fst includePositions current]
    else return groups
  | entry :: entries => do
    let postingsBytes ← estimatedTermBytes entry includePositions
    let rawTermBytes := entry.term.length
    if current ≠ [] ∧
        (saturatingAdd currentPostingsBytes postingsBytes > rowGroupPostingsBytes ∨
          saturatingAdd currentRawTermBytes rawTermBytes > rowGroupRawTermBytes) then
      let group ← encodeRowGroup fst includePositions current
      groupsFrom fst includePositions (groups ++ [group]) [entry]
        (saturatingAdd 0 postingsBytes) (saturatingAdd 0 rawTermBytes) entries
    else
      groupsFrom fst includePositions groups (current ++ [entry])
        (saturatingAdd currentPostingsBytes postingsBytes)
        (saturatingAdd currentRawTermBytes rawTermBytes) entries

def buildRowGroups (fst : FstLib) (includePositions : Bool)
    (terms : List (List UInt8 × TermAccumulator)) : Outcome (List SearchRowGroup) :=
  groupsFrom fst includePositions [] [] 0 0 (terms.map fun entry =>
    .ofAccumulator entry.1 entry.2)

/-! The index. -/

structure MutableSearchIndex where
  rowCount : UInt32
  termKeys : TermInterner
  termValues : TermInterner
  keyOccurrences : List KeyOccurrence
  valueOccurrences : List ValueOccurrence

namespace MutableSearchIndex

def new (rowCount : Nat) : MutableSearchIndex :=
  ⟨UInt32.ofNat (min rowCount (2 ^ 32 - 1)), .empty, .empty, [], []⟩

def addPath (index : MutableSearchIndex) (row : UInt32) (path : String) : MutableSearchIndex :=
  let (termId, termKeys) := index.termKeys.intern path.toUTF8.toList
  { index with termKeys, keyOccurrences := index.keyOccurrences ++ [⟨termId, row⟩] }

def addValuePosition (index : MutableSearchIndex) (row : UInt32) (path token : String)
    (position : UInt32) : MutableSearchIndex :=
  let key := token.toUTF8.toList ++ keyValueSeparator :: path.toUTF8.toList
  let (termId, termValues) := index.termValues.intern key
  { index with
    termValues
    valueOccurrences := index.valueOccurrences ++ [⟨termId, row, position⟩] }

def finish (fst : FstLib) (index : MutableSearchIndex) : Outcome SearchIndex := do
  let termKeyEntries := buildKeyEntries index.termKeys index.keyOccurrences
  let termValueEntries := buildValueEntries index.termValues index.valueOccurrences
  return {
    rowCount := index.rowCount
    termKeyGroups := ← buildRowGroups fst false termKeyEntries
    termValueGroups := ← buildRowGroups fst true termValueEntries }

end MutableSearchIndex

end KevinDb
